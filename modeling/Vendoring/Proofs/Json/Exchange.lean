/-
# Documents whose strings are exchanged

A string that is a value can be exchanged in the text of a document for another string, and
what is read then is the same document with that string in its place. A reader looks at one
character after the other and never back, so it is enough to follow both texts together:
outside of strings they agree, and inside of strings they agree unless the whole string is
exchanged.
-/

import Vendoring.Proofs.Json.Strings
import Vendoring.Proofs.Json.Tokens

namespace Vendoring

open Scan (BraceState IsRaw)

namespace Json

section Values

variable (new : String → String → Prop)

mutual

/-- The second value is the first one with some of its strings exchanged. Its keys are the
same. -/
inductive Alters : Json → Json → Prop
  | null : Alters null null
  | bool (b : Bool) : Alters (bool b) (bool b)
  | number (n : JsonNumber) : Alters (number n) (number n)
  | string {text text' : String} : text' = text ∨ new text text' →
      Alters (string text) (string text')
  | array {items items' : List Json} : AltersItems items items' →
      Alters (array items) (array items')
  | object {members members' : List (String × Json)} : AltersMembers members members' →
      Alters (object members) (object members')

/-- The items of the second list are altered items of the first one. -/
inductive AltersItems : List Json → List Json → Prop
  | nil : AltersItems [] []
  | cons {v v' : Json} {items items' : List Json} : Alters v v' → AltersItems items items' →
      AltersItems (v :: items) (v' :: items')

/-- The members of the second list have the same keys and altered values. -/
inductive AltersMembers : List (String × Json) → List (String × Json) → Prop
  | nil : AltersMembers [] []
  | cons {key : String} {v v' : Json} {members members' : List (String × Json)} : Alters v v' →
      AltersMembers members members' → AltersMembers ((key, v) :: members) ((key, v') :: members')

end

variable {new}

theorem AltersMembers.insertMember {key : String} {v v' : Json}
    {members members' : List (String × Json)} (hv : Alters new v v')
    (h : AltersMembers new members members') :
    AltersMembers new (insertMember key v members) (insertMember key v' members') := by
  induction members generalizing members' with
  | nil =>
    cases h
    exact .cons hv .nil
  | cons m members ih =>
    cases h with
    | cons hm hrest =>
      unfold Json.insertMember
      split
      · exact .cons hv hrest
      · exact .cons hm (ih hrest)

/-- The last value of every key counts in both documents. -/
theorem AltersMembers.distinct {members members' : List (String × Json)}
    (h : AltersMembers new members members') :
    AltersMembers new (distinctMembers members) (distinctMembers members') := by
  have hfold (seen seen' : List (String × Json)) (hseen : AltersMembers new seen seen') :
      AltersMembers new
        (members.foldl (fun seen m => Json.insertMember m.1 m.2 seen) seen)
        (members'.foldl (fun seen m => Json.insertMember m.1 m.2 seen) seen') := by
    induction members generalizing members' seen seen' with
    | nil =>
      cases h
      exact hseen
    | cons m members ih =>
      cases h with
      | cons hm hrest => exact ih hrest _ _ (hseen.insertMember hm)
  exact hfold [] [] .nil

end Values

/-- The second text is the first one with some of its string values exchanged, where the texts
are read from the given state. -/
inductive Exchanges (new : String → String → Prop) : BraceState → List Char → List Char → Prop
  | rest (state : BraceState) (s : List Char) : Exchanges new state s s
  | char {state : BraceState} {c : Char} {s s' : List Char} : Exchanges new (state.next c) s s' →
      Exchanges new state (c :: s) (c :: s')
  | value {raw raw' s s' : List Char} {text text' : String} (written : IsWritten raw text)
      (written' : IsWritten raw' text') (altered : new text text')
      (no_key : (skipSpace s).head? ≠ some ':') : Exchanges new .code s s' →
      Exchanges new .code ('"' :: (raw ++ '"' :: s)) ('"' :: (raw' ++ '"' :: s'))

variable {new : String → String → Prop} {state : BraceState} {s t : List Char} {c : Char}

namespace Exchanges

/-! ## Following both texts -/

theorem of_nil (h : Exchanges new state [] t) : t = [] := by
  cases h
  rfl

theorem of_cons (h : Exchanges new state (c :: s) t) (hc : state = .code → c ≠ '"') :
    ∃ t', t = c :: t' ∧ Exchanges new (state.next c) s t' := by
  cases h with
  | rest => exact ⟨s, rfl, .rest _ s⟩
  | char h => exact ⟨_, rfl, h⟩
  | value => exact absurd rfl (hc rfl)

theorem of_code (h : Exchanges new .code (c :: s) t) (hc : c ≠ '"') :
    ∃ t', t = c :: t' ∧ Exchanges new .code s t' := by
  obtain ⟨t', rfl, hrest⟩ := h.of_cons fun _ => hc
  rw [BraceState.next_code hc] at hrest
  exact ⟨t', rfl, hrest⟩

/-- Both texts start with the same character. -/
theorem head?_eq (h : Exchanges new state s t) : s.head? = t.head? := by
  cases h <;> rfl

theorem exists_cons (h : Exchanges new state (c :: s) t) : ∃ t', t = c :: t' := by
  cases h <;> exact ⟨_, rfl⟩

theorem append {front : List Char} (h : Exchanges new (front.foldl BraceState.next state) s t) :
    Exchanges new state (front ++ s) (front ++ t) := by
  induction front generalizing state with
  | nil => exact h
  | cons c front ih => exact .char (ih h)

/-- What is skipped in both texts is the same, if it has no quotes. -/
theorem dropWhile {p : Char → Bool} (hp : p '"' = false) (h : Exchanges new .code s t) :
    s.takeWhile p = t.takeWhile p ∧ Exchanges new .code (s.dropWhile p) (t.dropWhile p) := by
  induction s generalizing t with
  | nil =>
    obtain rfl := h.of_nil
    exact ⟨rfl, h⟩
  | cons c s ih =>
    by_cases hc : p c = true
    · have hne : c ≠ '"' := by
        rintro rfl
        simp [hp] at hc
      obtain ⟨t', rfl, hrest⟩ := h.of_code hne
      obtain ⟨htake, hdrop⟩ := ih hrest
      rw [List.takeWhile_cons_of_pos hc, List.takeWhile_cons_of_pos hc, htake,
        List.dropWhile_cons_of_pos hc, List.dropWhile_cons_of_pos hc]
      exact ⟨rfl, hdrop⟩
    · obtain ⟨t, rfl⟩ := h.exists_cons
      rw [List.takeWhile_cons_of_neg hc, List.takeWhile_cons_of_neg hc,
        List.dropWhile_cons_of_neg hc, List.dropWhile_cons_of_neg hc]
      exact ⟨rfl, h⟩

/-! ## Strings -/

/-- As long as a string is open, nothing is exchanged in it. -/
theorem of_open {front : List Char} (h : Exchanges new state (front ++ s) t)
    (hopen : ∀ p, p <+: front → p.foldl BraceState.next state ≠ .code) :
    ∃ t', t = front ++ t' ∧ Exchanges new (front.foldl BraceState.next state) s t' := by
  induction front generalizing state t with
  | nil => exact ⟨t, rfl, h⟩
  | cons c front ih =>
    obtain ⟨u, rfl, hbehind⟩ := h.of_cons fun hcode => absurd hcode (hopen [] List.nil_prefix)
    obtain ⟨t', rfl, hrest⟩ :=
      ih hbehind fun p hp => hopen (c :: p) (List.cons_prefix_cons.2 ⟨rfl, hp⟩)
    exact ⟨t', rfl, hrest⟩

theorem of_raw {raw : List Char} (h : Exchanges new .string (raw ++ '"' :: s) t)
    (hraw : IsRaw raw) : ∃ t', t = raw ++ '"' :: t' ∧ Exchanges new .code s t' := by
  obtain ⟨u, rfl, hquote⟩ := h.of_open hraw.open_of_prefix
  rw [hraw.stays_open] at hquote
  obtain ⟨t', rfl, hrest⟩ := hquote.of_cons nofun
  exact ⟨t', rfl, hrest⟩

/-- A string is read with the same text, or with an exchanged one where it is a value. -/
theorem readString {text : String} {left : List Char}
    (h : Exchanges new .code ('"' :: s) ('"' :: t))
    (hread : Json.readString s = some (text, left)) :
    ∃ text' left', Json.readString t = some (text', left') ∧
      (text' = text ∨ new text text' ∧ (skipSpace left).head? ≠ some ':') ∧
      Exchanges new .code left left' ∧ left' <:+ t := by
  have hsame (h : Exchanges new .string s t) :
      ∃ left', Json.readString t = some (text, left') ∧ Exchanges new .code left left' ∧
        left' <:+ t := by
    obtain ⟨raw, rfl, hraw, hwritten⟩ := readString_eq_some hread
    obtain ⟨left', rfl, hleft⟩ := h.of_raw hraw
    exact ⟨left', hwritten left', hleft, raw ++ ['"'], by simp⟩
  cases h with
  | rest =>
    obtain ⟨left', hread', hleft, hsuffix⟩ := hsame (.rest _ _)
    exact ⟨text, left', hread', .inl rfl, hleft, hsuffix⟩
  | char h =>
    obtain ⟨left', hread', hleft, hsuffix⟩ := hsame h
    exact ⟨text, left', hread', .inl rfl, hleft, hsuffix⟩
  | @value raw raw' u u' old text' written written' altered no_key h =>
    obtain ⟨rfl, rfl⟩ := Prod.mk.inj (Option.some.inj ((written u).symm.trans hread))
    refine ⟨text', u', written' u', .inr ⟨altered, no_key⟩, h, ?_⟩
    exact ⟨raw' ++ ['"'], by simp⟩

end Exchanges

/-- Whatever is read from one text is read from another text `t`, in a form that is related to
it, and what is left of the two texts is exchanged again. -/
def Carries {α : Type} (new : String → String → Prop) (rel : α → α → Prop) (t : List Char)
    (read read' : Option (α × List Char)) : Prop :=
  ∀ a rest, read = some (a, rest) → ∃ a' rest', read' = some (a', rest') ∧ rel a a' ∧
    Exchanges new .code rest rest' ∧ rest' <:+ t

namespace Carries

variable {α β : Type} {rel : α → α → Prop} {read read' : Option (α × List Char)} {u : List Char}

theorem none : Carries new rel t none read' := nofun

theorem mono (h : Carries new rel u read read') (hsuffix : u <:+ t) :
    Carries new rel t read read' := by
  intro a rest hread
  obtain ⟨a', rest', hread', hrel, hrest, hleft⟩ := h a rest hread
  exact ⟨a', rest', hread', hrel, hrest, hleft.trans hsuffix⟩

theorem some {a a' : α} (hrel : rel a a') (h : Exchanges new .code s u) (hsuffix : u <:+ t) :
    Carries new rel t (some (a, s)) (some (a', u)) := by
  intro b rest heq
  obtain ⟨rfl, rfl⟩ := Prod.mk.inj (Option.some.inj heq)
  exact ⟨a', u, rfl, hrel, h, hsuffix⟩

theorem map {rel' : β → β → Prop} {f g : α → β} (h : Carries new rel t read read')
    (hf : ∀ a a', rel a a' → rel' (f a) (g a')) :
    Carries new rel' t (read.map fun (a, rest) => (f a, rest))
      (read'.map fun (a, rest) => (g a, rest)) := by
  intro b rest hread
  obtain ⟨⟨a, _⟩, ha, heq⟩ := Option.map_eq_some_iff.1 hread
  obtain ⟨rfl, rfl⟩ := Prod.mk.inj heq
  obtain ⟨a', rest', rfl, hrel, hrest, hsuffix⟩ := h _ _ ha
  exact ⟨g a', rest', rfl, hf a a' hrel, hrest, hsuffix⟩

/-- What stands behind is read from what is left of the texts. -/
theorem bind {rel' : β → β → Prop} {onward onward' : α × List Char → Option (β × List Char)}
    (h : Carries new rel t read read')
    (honward : ∀ a a' rest rest', rel a a' → Exchanges new .code rest rest' → rest' <:+ t →
      Carries new rel' t (onward (a, rest)) (onward' (a', rest'))) :
    Carries new rel' t (read.bind onward) (read'.bind onward') := by
  intro b left hread
  obtain ⟨⟨a, rest⟩, ha, hb⟩ := Option.bind_eq_some_iff.1 hread
  obtain ⟨a', rest', rfl, hrel, hrest, hsuffix⟩ := h _ _ ha
  exact honward a a' rest rest' hrel hrest hsuffix b left hb

/-- What is known already is given with what is left of the texts. -/
theorem given (x : Option α) (h : Exchanges new .code s u) (hsuffix : u <:+ t) :
    Carries new Eq t (x.map (·, s)) (x.map (·, u)) := by
  intro a rest hread
  obtain ⟨b, rfl, heq⟩ := Option.map_eq_some_iff.1 hread
  obtain ⟨rfl, rfl⟩ := Prod.mk.inj heq
  exact ⟨b, u, rfl, rfl, h, hsuffix⟩

end Carries

namespace Exchanges

/-! ## Numbers -/

theorem collectDigits (h : Exchanges new .code s t) (n : Nat) :
    ∃ m count left left', Json.collectDigits n s = (m, count, left) ∧
      Json.collectDigits n t = (m, count, left') ∧ Exchanges new .code left left' ∧
      left' <:+ t := by
  induction s generalizing n t with
  | nil =>
    obtain rfl := h.of_nil
    exact ⟨n, 0, [], [], rfl, rfl, h, List.suffix_refl _⟩
  | cons c s ih =>
    by_cases hc : (c.isDigit && 10 * n + digitValue c ≤ maxWhole) = true
    · have hne : c ≠ '"' := by
        rintro rfl
        simp at hc
      obtain ⟨t', rfl, hrest⟩ := h.of_code hne
      obtain ⟨m, count, left, left', hs, ht, hleft, hsuffix⟩ := ih hrest (10 * n + digitValue c)
      refine ⟨m, count + 1, left, left', ?_, ?_, hleft, hsuffix.trans (List.suffix_cons _ _)⟩
      · rw [Json.collectDigits, if_pos hc, hs]
      · rw [Json.collectDigits, if_pos hc, ht]
    · obtain ⟨t, rfl⟩ := h.exists_cons
      refine ⟨n, 0, c :: s, c :: t, ?_, ?_, h, List.suffix_refl _⟩
      · rw [Json.collectDigits, if_neg hc]
      · rw [Json.collectDigits, if_neg hc]

theorem startsWithDigit (h : Exchanges new .code s t) :
    Json.startsWithDigit s = Json.startsWithDigit t := by
  rw [Json.startsWithDigit, Json.startsWithDigit, h.head?_eq]

theorem dropDigits (h : Exchanges new .code s t) :
    s.takeWhile Char.isDigit = t.takeWhile Char.isDigit ∧
      Exchanges new .code (s.dropWhile Char.isDigit) (t.dropWhile Char.isDigit) :=
  h.dropWhile (by decide)

theorem signs (h : Exchanges new .code s t) :
    (signOf s).1 = (signOf t).1 ∧ Exchanges new .code (signOf s).2 (signOf t).2 ∧
      (signOf t).2 <:+ t := by
  cases s with
  | nil =>
    obtain rfl := h.of_nil
    exact ⟨rfl, h, List.suffix_refl _⟩
  | cons c s =>
    by_cases hplus : c = '+'
    · subst hplus
      obtain ⟨t, rfl, hrest⟩ := h.of_code (by decide)
      exact ⟨rfl, hrest, List.suffix_cons _ _⟩
    · by_cases hminus : c = '-'
      · subst hminus
        obtain ⟨t, rfl, hrest⟩ := h.of_code (by decide)
        exact ⟨rfl, hrest, List.suffix_cons _ _⟩
      · obtain ⟨t, rfl⟩ := h.exists_cons
        rw [signOf_other hplus hminus, signOf_other hplus hminus]
        exact ⟨rfl, h, List.suffix_refl _⟩

theorem readExponent (h : Exchanges new .code s t) (negative : Bool) (digits : Nat) (power : Int) :
    Carries new Eq t (Json.readExponent negative digits power s)
      (Json.readExponent negative digits power t) := by
  cases s with
  | nil =>
    obtain rfl := h.of_nil
    exact .given _ h (List.suffix_refl _)
  | cons c s =>
    by_cases hc : (c = 'e' || c = 'E') = true
    · have hne : c ≠ '"' := by
        rintro rfl
        simp at hc
      obtain ⟨t, rfl, hrest⟩ := h.of_code hne
      obtain ⟨hsign, hunsigned, hsuffix⟩ := hrest.signs
      obtain ⟨htake, hdrop⟩ := hunsigned.dropDigits
      rw [readExponent_cons hc, readExponent_cons hc, hsign, htake]
      split
      · exact .none
      · have hdropped := (List.dropWhile_suffix Char.isDigit).trans hsuffix
        exact .given _ hdrop (hdropped.trans (List.suffix_cons _ _))
    · obtain ⟨t, rfl⟩ := h.exists_cons
      simp only [Json.readExponent, if_neg hc]
      exact .given _ h (List.suffix_refl _)

theorem readFraction (h : Exchanges new .code s t) (negative : Bool) (digits : Nat) (power : Int) :
    Carries new Eq t (Json.readFraction negative digits power s)
      (Json.readFraction negative digits power t) := by
  obtain ⟨n, count, left, left', hs, ht, hleft, hsuffix⟩ := h.collectDigits digits
  simp only [Json.readFraction, hs, ht, hleft.startsWithDigit]
  split
  · exact (hleft.dropDigits.2.readExponent _ _ _).mono ((List.dropWhile_suffix _).trans hsuffix)
  · split
    · exact .none
    · exact (hleft.readExponent _ _ _).mono hsuffix

theorem readNumberEnd (h : Exchanges new .code s t) (negative : Bool) (n : Nat) :
    Carries new Eq t (Json.readNumberEnd negative n s) (Json.readNumberEnd negative n t) := by
  have hdigits := h.startsWithDigit
  cases hs : Json.startsWithDigit s with
  | true =>
    rw [hs] at hdigits
    obtain ⟨htake, hdrop⟩ := h.dropDigits
    have hsuffix := List.dropWhile_suffix (l := t) Char.isDigit
    simp only [Json.readNumberEnd, hs, ← hdigits, if_true, htake]
    generalize s.dropWhile Char.isDigit = u at hdrop
    generalize t.dropWhile Char.isDigit = u' at hdrop hsuffix
    cases u with
    | nil =>
      obtain rfl := hdrop.of_nil
      exact (hdrop.readExponent _ _ _).mono hsuffix
    | cons c u =>
      by_cases hpoint : c = '.'
      · subst hpoint
        obtain ⟨u', rfl, hrest⟩ := hdrop.of_code (by decide)
        exact (hrest.readFraction _ _ _).mono ((List.suffix_cons _ _).trans hsuffix)
      · obtain ⟨u', rfl⟩ := hdrop.exists_cons
        simpa [hpoint] using (hdrop.readExponent negative n _).mono hsuffix
  | false =>
    rw [hs] at hdigits
    simp only [Json.readNumberEnd, hs, ← hdigits, Bool.false_eq_true, if_false]
    cases s with
    | nil =>
      obtain rfl := h.of_nil
      exact .given _ h (List.suffix_refl _)
    | cons c s =>
      by_cases hpoint : c = '.'
      · subst hpoint
        obtain ⟨t, rfl, hrest⟩ := h.of_code (by decide)
        exact (hrest.readFraction _ _ _).mono (List.suffix_cons _ _)
      · obtain ⟨t, rfl⟩ := h.exists_cons
        simp only
        split
        · exact h.readExponent _ _ _
        · exact .given _ h (List.suffix_refl _)

theorem readUnsigned (h : Exchanges new .code s t) (negative : Bool) :
    Carries new Eq t (Json.readUnsigned negative s) (Json.readUnsigned negative t) := by
  cases s with
  | nil => exact .none
  | cons c s =>
    by_cases hzero : c = '0'
    · subst hzero
      obtain ⟨t, rfl, hrest⟩ := h.of_code (by decide)
      simp only [Json.readUnsigned, hrest.startsWithDigit]
      split
      · exact .none
      · exact (hrest.readNumberEnd _ _).mono (List.suffix_cons _ _)
    · obtain ⟨t, rfl⟩ := h.exists_cons
      obtain ⟨n, count, left, left', hs, ht, hleft, hsuffix⟩ := h.collectDigits 0
      rw [readUnsigned_other hzero, readUnsigned_other hzero, hs, ht]
      split
      · exact (hleft.readNumberEnd _ _).mono hsuffix
      · exact .none

theorem readNumber (h : Exchanges new .code s t) :
    Carries new Eq t (Json.readNumber s) (Json.readNumber t) := by
  cases s with
  | nil => exact .none
  | cons c s =>
    by_cases hminus : c = '-'
    · subst hminus
      obtain ⟨t, rfl, hrest⟩ := h.of_code (by decide)
      rw [readNumber_minus, readNumber_minus]
      exact (hrest.readUnsigned true).mono (List.suffix_cons _ _)
    · obtain ⟨t, rfl⟩ := h.exists_cons
      rw [readNumber_other hminus, readNumber_other hminus]
      exact h.readUnsigned false

/-! ## Tokens -/

theorem skipSpace (h : Exchanges new .code s t) :
    Exchanges new .code (Json.skipSpace s) (Json.skipSpace t) ∧ Json.skipSpace t <:+ t :=
  ⟨(h.dropWhile (by decide)).2, List.dropWhile_suffix _⟩

theorem of_word {word : List Char} (h : Exchanges new .code (word ++ s) t) (hword : '"' ∉ word) :
    ∃ t', t = word ++ t' ∧ Exchanges new .code s t' := by
  induction word generalizing t with
  | nil => exact ⟨t, rfl, h⟩
  | cons c word ih =>
    rw [List.mem_cons, not_or] at hword
    obtain ⟨u, rfl, hbehind⟩ := h.of_code (Ne.symm hword.1)
    obtain ⟨t', rfl, hrest⟩ := ih hbehind hword.2
    exact ⟨t', rfl, hrest⟩

/-- Both texts go on with the same token, if it is no string. -/
theorem of_token (word : List Char) {left : List Char} (h : Exchanges new .code s t)
    (hs : Json.skipSpace s = word ++ left) (hword : '"' ∉ word) :
    ∃ left', Json.skipSpace t = word ++ left' ∧ Exchanges new .code left left' ∧
      word ++ left' <:+ t := by
  obtain ⟨hskip, hsuffix⟩ := h.skipSpace
  rw [hs] at hskip
  obtain ⟨left', ht, hleft⟩ := hskip.of_word hword
  exact ⟨left', ht, hleft, ht ▸ hsuffix⟩

end Exchanges

end Json

end Vendoring
