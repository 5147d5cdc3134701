/-
# The grammar of JSON

The texts of JSON as a grammar gives them, without a reader. Values and the runs of items and
members between the brackets of a container are spelled by rules that refer to each other, so
they are one relation with the form of the text as an index. Whatever the reader accepts is
spelled in this way. The reader refuses some of it: it bounds the nesting and the size of
numbers, and wants surrogates in pairs.
-/

import Vendoring.Proofs.Json.Members

namespace Vendoring.Json

variable {c : Char} {s left gap : List Char}

/-! ## Tokens -/

/-- A digit in base sixteen. -/
def IsHexDigit (c : Char) : Prop :=
  c.isDigit = true ∨ 'a' ≤ c ∧ c ≤ 'f' ∨ 'A' ≤ c ∧ c ≤ 'F'

instance (c : Char) : Decidable (IsHexDigit c) :=
  inferInstanceAs (Decidable (c.isDigit = true ∨ 'a' ≤ c ∧ c ≤ 'f' ∨ 'A' ≤ c ∧ c ≤ 'F'))

/-- The characters between the quotes of a string. -/
inductive IsStringText : List Char → Prop
  | nil : IsStringText []
  | char {c : Char} {s : List Char} : c ≠ '"' → c ≠ '\\' → 0x20 ≤ c.toNat → IsStringText s →
      IsStringText (c :: s)
  | escape {c : Char} {s : List Char} : c ∈ ['"', '\\', '/', 'b', 'f', 'n', 'r', 't'] →
      IsStringText s → IsStringText ('\\' :: c :: s)
  | unit {h₁ h₂ h₃ h₄ : Char} {s : List Char} : IsHexDigit h₁ → IsHexDigit h₂ → IsHexDigit h₃ →
      IsHexDigit h₄ → IsStringText s → IsStringText ('\\' :: 'u' :: h₁ :: h₂ :: h₃ :: h₄ :: s)

/-- The digits in front of the point: a zero stands alone. -/
inductive IsWhole : List Char → Prop
  | zero : IsWhole ['0']
  | digits {c : Char} {s : List Char} : c.isDigit = true → c ≠ '0' → s.all Char.isDigit = true →
      IsWhole (c :: s)

/-- The point with the digits behind it, or nothing. -/
inductive IsFraction : List Char → Prop
  | none : IsFraction []
  | digits {s : List Char} : s ≠ [] → s.all Char.isDigit = true → IsFraction ('.' :: s)

/-- The exponent with its letter, or nothing. -/
inductive IsExponent : List Char → Prop
  | none : IsExponent []
  | digits {c : Char} {sign s : List Char} : c = 'e' ∨ c = 'E' → sign ∈ [[], ['+'], ['-']] →
      s ≠ [] → s.all Char.isDigit = true → IsExponent (c :: (sign ++ s))

/-- A number. -/
inductive IsNumberText : List Char → Prop
  | parts {sign whole fraction exponent : List Char} : sign ∈ [[], ['-']] → IsWhole whole →
      IsFraction fraction → IsExponent exponent →
      IsNumberText (sign ++ (whole ++ (fraction ++ exponent)))

/-! ## Documents -/

/-- What a text is spelled as. -/
inductive Form
  /-- A value without white space around it. -/
  | value
  /-- An object without white space around it. -/
  | object
  /-- A value with white space around it; a document is one. -/
  | padded
  /-- What is between the brackets of an array that is not empty. -/
  | items
  /-- A key, a colon and a value. -/
  | member
  /-- What is between the braces of an object that is not empty. -/
  | members

/-- The text has the form, by the grammar of JSON. -/
inductive Spells : Form → List Char → Prop
  | word {w : String} : w ∈ ["null", "true", "false"] → Spells .value w.toList
  | number {s : List Char} : IsNumberText s → Spells .value s
  | string {s : List Char} : IsStringText s → Spells .value ('"' :: (s ++ ['"']))
  | emptyArray {gap : List Char} : gap.all isSpace = true → Spells .value ('[' :: (gap ++ [']']))
  | array {s : List Char} : Spells .items s → Spells .value ('[' :: (s ++ [']']))
  | object {s : List Char} : Spells .object s → Spells .value s
  | emptyObject {gap : List Char} : gap.all isSpace = true →
      Spells .object ('\x7b' :: (gap ++ ['\x7d']))
  | fullObject {s : List Char} : Spells .members s → Spells .object ('\x7b' :: (s ++ ['\x7d']))
  | padded {gap s gap' : List Char} : gap.all isSpace = true → Spells .value s →
      gap'.all isSpace = true → Spells .padded (gap ++ (s ++ gap'))
  | lastItem {s : List Char} : Spells .padded s → Spells .items s
  | item {s more : List Char} : Spells .padded s → Spells .items more →
      Spells .items (s ++ ',' :: more)
  | member {gap key gap' s : List Char} : gap.all isSpace = true → IsStringText key →
      gap'.all isSpace = true → Spells .padded s →
      Spells .member (gap ++ '"' :: (key ++ '"' :: (gap' ++ ':' :: s)))
  | lastMember {s : List Char} : Spells .member s → Spells .members s
  | moreMembers {s more : List Char} : Spells .member s → Spells .members more →
      Spells .members (s ++ ',' :: more)

/-! ## What the reader accepts: numbers -/

theorem exists_digits_of_collectDigits (n : Nat) (s : List Char) :
    ∃ digits, s = digits ++ (collectDigits n s).2.2 ∧ digits.all Char.isDigit = true ∧
      digits.length = (collectDigits n s).2.1 := by
  induction s generalizing n with
  | nil => exact ⟨[], rfl, rfl, rfl⟩
  | cons c s ih =>
    by_cases hc : (c.isDigit && 10 * n + digitValue c ≤ maxWhole) = true
    · obtain ⟨digits, hs, hdigits, hlength⟩ := ih (10 * n + digitValue c)
      have hstep : collectDigits n (c :: s) = ((collectDigits (10 * n + digitValue c) s).1,
          (collectDigits (10 * n + digitValue c) s).2.1 + 1,
          (collectDigits (10 * n + digitValue c) s).2.2) := by
        rw [collectDigits, if_pos hc]
      have hdigit : c.isDigit = true := (Bool.and_eq_true_iff.1 hc).1
      rw [hstep]
      exact ⟨c :: digits, by simp [← hs], by simp [hdigit, hdigits], by simp [hlength]⟩
    · have hstep : collectDigits n (c :: s) = (n, 0, c :: s) := by
        rw [collectDigits, if_neg hc]
      rw [hstep]
      exact ⟨[], rfl, rfl, rfl⟩

/-- The first digit always fits. -/
theorem count_collectDigits (hc : c.isDigit = true) (s : List Char) :
    (collectDigits 0 (c :: s)).2.1 = (collectDigits (digitValue c) s).2.1 + 1 := by
  have hfits : (c.isDigit && 10 * 0 + digitValue c ≤ maxWhole) = true := by
    have hle : c.toNat ≤ 57 := by
      simp only [Char.isDigit, Bool.and_eq_true, decide_eq_true_eq] at hc
      exact hc.2
    have hmax : 57 ≤ maxWhole := by decide
    have hsub : digitValue c ≤ c.toNat := Nat.sub_le _ _
    rw [hc, Bool.true_and, decide_eq_true_eq]
    omega
  rw [collectDigits, if_pos hfits]
  simp

theorem exists_sign_of_signOf (s : List Char) :
    ∃ sign ∈ [[], ['+'], ['-']], s = sign ++ (signOf s).2 := by
  match s with
  | [] => exact ⟨[], by simp, rfl⟩
  | '+' :: more => exact ⟨['+'], by simp, rfl⟩
  | '-' :: more => exact ⟨['-'], by simp, rfl⟩
  | c :: more =>
    by_cases hplus : c = '+'
    · subst hplus
      exact ⟨['+'], by simp, rfl⟩
    · by_cases hminus : c = '-'
      · subst hminus
        exact ⟨['-'], by simp, rfl⟩
      · exact ⟨[], by simp, by rw [signOf_other hplus hminus, List.nil_append]⟩

theorem exists_exponent {negative : Bool} {digits : Nat} {power : Int} {n : JsonNumber}
    (h : readExponent negative digits power s = some (n, left)) :
    ∃ text, s = text ++ left ∧ IsExponent text := by
  have hnone (h : (double? negative digits power).map (·, s) = some (n, left)) :
      ∃ text, s = text ++ left ∧ IsExponent text := by
    obtain ⟨_, -, heq⟩ := Option.map_eq_some_iff.1 h
    exact ⟨[], (Prod.mk.inj heq).2, .none⟩
  cases s with
  | nil => exact hnone h
  | cons c rest =>
    by_cases hc : (c = 'e' || c = 'E') = true
    · rw [readExponent_cons hc] at h
      split at h
      · simp at h
      · next hdigits =>
        obtain ⟨_, -, heq⟩ := Option.map_eq_some_iff.1 h
        obtain ⟨-, rfl⟩ := Prod.mk.inj heq
        obtain ⟨sign, hsign, hrest⟩ := exists_sign_of_signOf rest
        refine ⟨c :: (sign ++ (signOf rest).2.takeWhile Char.isDigit), ?_,
          .digits (by simpa using hc) hsign hdigits List.all_takeWhile⟩
        rw [List.cons_append, List.append_assoc, List.takeWhile_append_dropWhile, ← hrest]
    · simp only [readExponent, if_neg hc] at h
      exact hnone h

theorem exists_fraction {negative : Bool} {digits : Nat} {power : Int} {n : JsonNumber}
    (h : readFraction negative digits power s = some (n, left)) :
    ∃ fraction exponent, '.' :: s = fraction ++ (exponent ++ left) ∧ IsFraction fraction ∧
      IsExponent exponent := by
  obtain ⟨kept, hs, hkept, hlength⟩ := exists_digits_of_collectDigits digits s
  rw [readFraction] at h
  simp only at h
  split at h
  · next hmore =>
    -- digits that do not fit are passed over
    obtain ⟨exponent, hrest, hexponent⟩ := exists_exponent h
    obtain ⟨c, rest, hcons⟩ : ∃ c rest, (collectDigits digits s).2.2 = c :: rest := by
      refine List.exists_cons_of_ne_nil fun hnil => ?_
      simp [startsWithDigit, hnil] at hmore
    have hdigit : c.isDigit = true := by simpa [startsWithDigit, hcons] using hmore
    refine ⟨'.' :: (kept ++ (collectDigits digits s).2.2.takeWhile Char.isDigit), exponent, ?_,
      .digits ?_ ?_, hexponent⟩
    · rw [List.cons_append, List.append_assoc, ← hrest, List.takeWhile_append_dropWhile, ← hs]
    · simp [hcons, hdigit]
    · rw [List.all_append, hkept, List.all_takeWhile]
      rfl
  · split at h
    · simp at h
    · next hcount =>
      obtain ⟨exponent, hrest, hexponent⟩ := exists_exponent h
      refine ⟨'.' :: kept, exponent, ?_, .digits ?_ hkept, hexponent⟩
      · rw [List.cons_append, ← hrest, ← hs]
      · rintro rfl
        exact hcount hlength.symm

/-- Behind digits that were collected there may stand more of them. -/
theorem exists_numberEnd {negative : Bool} {m : Nat} {n : JsonNumber}
    (h : readNumberEnd negative m s = some (n, left)) :
    ∃ digits fraction exponent, s = digits ++ (fraction ++ (exponent ++ left)) ∧
      digits.all Char.isDigit = true ∧ (startsWithDigit s = false → digits = []) ∧
      IsFraction fraction ∧ IsExponent exponent := by
  rw [readNumberEnd.eq_def] at h
  split at h
  · next hmore =>
    have hsplit : s = s.takeWhile Char.isDigit ++ s.dropWhile Char.isDigit :=
      List.takeWhile_append_dropWhile.symm
    simp only at h
    split at h
    · next rest hpoint =>
      obtain ⟨fraction, exponent, hrest, hfraction, hexponent⟩ := exists_fraction h
      refine ⟨s.takeWhile Char.isDigit, fraction, exponent, ?_, List.all_takeWhile, by simp [hmore],
        hfraction, hexponent⟩
      rw [← hrest, ← hpoint]
      exact hsplit
    · obtain ⟨exponent, hrest, hexponent⟩ := exists_exponent h
      refine ⟨s.takeWhile Char.isDigit, [], exponent, ?_, List.all_takeWhile, by simp [hmore],
        .none, hexponent⟩
      rw [List.nil_append, ← hrest]
      exact hsplit
  · split at h
    · obtain ⟨fraction, exponent, hrest, hfraction, hexponent⟩ := exists_fraction h
      exact ⟨[], fraction, exponent, hrest, rfl, fun _ => rfl, hfraction, hexponent⟩
    · split at h
      · obtain ⟨exponent, hrest, hexponent⟩ := exists_exponent h
        exact ⟨[], [], exponent, hrest, rfl, fun _ => rfl, .none, hexponent⟩
      · obtain ⟨_, -, heq⟩ := Option.map_eq_some_iff.1 h
        obtain ⟨-, rfl⟩ := Prod.mk.inj heq
        exact ⟨[], [], [], rfl, rfl, fun _ => rfl, .none, .none⟩
    · obtain ⟨_, -, heq⟩ := Option.map_eq_some_iff.1 h
      obtain ⟨-, rfl⟩ := Prod.mk.inj heq
      exact ⟨[], [], [], rfl, rfl, fun _ => rfl, .none, .none⟩

theorem exists_unsigned {negative : Bool} {n : JsonNumber}
    (h : readUnsigned negative s = some (n, left)) :
    ∃ whole fraction exponent, s = whole ++ (fraction ++ (exponent ++ left)) ∧ IsWhole whole ∧
      IsFraction fraction ∧ IsExponent exponent := by
  cases s with
  | nil => simp [readUnsigned] at h
  | cons c rest =>
    by_cases hzero : c = '0'
    · subst hzero
      simp only [readUnsigned] at h
      split at h
      · simp at h
      · next hlone =>
        obtain ⟨digits, fraction, exponent, rfl, -, hnone, hfraction, hexponent⟩ :=
          exists_numberEnd h
        obtain rfl := hnone (Bool.eq_false_iff.2 hlone)
        exact ⟨['0'], fraction, exponent, rfl, .zero, hfraction, hexponent⟩
    · rw [readUnsigned_other hzero] at h
      split at h
      · next hdigit =>
        obtain ⟨digits, fraction, exponent, hend, hdigits, -, hfraction, hexponent⟩ :=
          exists_numberEnd h
        obtain ⟨kept, hs, hkept, hlength⟩ := exists_digits_of_collectDigits 0 (c :: rest)
        have hfirst : kept ≠ [] := by
          rintro rfl
          rw [count_collectDigits hdigit] at hlength
          cases hlength
        obtain ⟨d, kept, rfl⟩ := List.exists_cons_of_ne_nil hfirst
        obtain ⟨rfl, -⟩ := List.cons.inj hs
        rw [List.all_cons, Bool.and_eq_true_iff] at hkept
        refine ⟨c :: (kept ++ digits), fraction, exponent, ?_,
          .digits hdigit hzero ?_, hfraction, hexponent⟩
        · rw [List.cons_append, List.append_assoc, ← hend]
          exact hs
        · rw [List.all_append, hkept.2, hdigits]
          rfl
      · simp at h

theorem exists_numberText {n : JsonNumber} (h : readNumber s = some (n, left)) :
    ∃ text, s = text ++ left ∧ IsNumberText text := by
  have hparts (sign : List Char) {negative : Bool} {unsigned : List Char}
      (hsign : sign ∈ [[], ['-']]) (hs : s = sign ++ unsigned)
      (h : readUnsigned negative unsigned = some (n, left)) :
      ∃ text, s = text ++ left ∧ IsNumberText text := by
    obtain ⟨whole, fraction, exponent, rfl, hwhole, hfraction, hexponent⟩ := exists_unsigned h
    exact ⟨_, by simp [hs], .parts hsign hwhole hfraction hexponent⟩
  obtain ⟨c, rest, rfl, -⟩ := head_of_readNumber h
  by_cases hminus : c = '-'
  · subst hminus
    exact hparts ['-'] (by simp) rfl ((readNumber_minus rest) ▸ h)
  · exact hparts [] (by simp) rfl ((readNumber_other hminus) ▸ h)

/-! ## What the reader accepts: strings -/

theorem isHexDigit_of_hexValue? {n : Nat} (h : hexValue? c = some n) : IsHexDigit c := by
  unfold hexValue? at h
  split at h
  · next hdigit => exact .inl hdigit
  · split at h
    · next hlower => exact .inr (.inl hlower)
    · split at h
      · next hupper => exact .inr (.inr hupper)
      · cases h

theorem mem_of_escaped? {d : Char} (h : escaped? c = some d) :
    c ∈ ['"', '\\', '/', 'b', 'f', 'n', 'r', 't'] := by
  unfold escaped? at h
  split at h <;> simp at h ⊢

theorem exists_stringText {pieces : List StringPiece} (h : lexString s = some (pieces, left)) :
    ∃ raw, s = raw ++ '"' :: left ∧ IsStringText raw := by
  fun_induction lexString s generalizing pieces left with
  | case1 => simp at h
  | case2 rest =>
    obtain ⟨-, rfl⟩ := Prod.mk.inj (Option.some.inj h)
    exact ⟨[], rfl, .nil⟩
  | case3 => simp at h
  | case4 h₁ h₂ h₃ h₄ rest _ ih =>
    obtain ⟨n, hunit, hmap⟩ := Option.bind_eq_some_iff.1 h
    obtain ⟨⟨more, left⟩, hmore, heq⟩ := Option.map_eq_some_iff.1 hmap
    obtain ⟨-, rfl⟩ := Prod.mk.inj heq
    obtain ⟨raw, rfl, hraw⟩ := ih hmore
    simp only [hexUnit?, Option.pure_def, Option.bind_eq_bind, Option.bind_eq_some_iff] at hunit
    obtain ⟨_, hhex₁, _, hhex₂, _, hhex₃, _, hhex₄, -⟩ := hunit
    exact ⟨_, rfl, .unit (isHexDigit_of_hexValue? hhex₁) (isHexDigit_of_hexValue? hhex₂)
      (isHexDigit_of_hexValue? hhex₃) (isHexDigit_of_hexValue? hhex₄) hraw⟩
  | case5 => simp at h
  | case6 e rest _ _ ih =>
    obtain ⟨d, hescaped, hmap⟩ := Option.bind_eq_some_iff.1 h
    obtain ⟨⟨more, left⟩, hmore, heq⟩ := Option.map_eq_some_iff.1 hmap
    obtain ⟨-, rfl⟩ := Prod.mk.inj heq
    obtain ⟨raw, rfl, hraw⟩ := ih hmore
    exact ⟨_, rfl, .escape (mem_of_escaped? hescaped) hraw⟩
  | case7 => simp at h
  | case8 c rest hquote hescape hcontrol ih =>
    obtain ⟨⟨more, left⟩, hmore, heq⟩ := Option.map_eq_some_iff.1 h
    obtain ⟨-, rfl⟩ := Prod.mk.inj heq
    obtain ⟨raw, rfl, hraw⟩ := ih hmore
    exact ⟨_, rfl, .char hquote hescape (Nat.le_of_not_gt hcontrol) hraw⟩

theorem exists_stringText_of_readString {text : String} (h : readString s = some (text, left)) :
    ∃ raw, s = raw ++ '"' :: left ∧ IsStringText raw := by
  obtain ⟨⟨pieces, rest⟩, hlex, hjoin⟩ := Option.bind_eq_some_iff.1 h
  obtain ⟨chars, -, heq⟩ := Option.map_eq_some_iff.1 hjoin
  obtain ⟨-, rfl⟩ := Prod.mk.inj heq
  exact exists_stringText hlex

/-! ## What the reader accepts: containers -/

section Containers

variable {α : Type} {closing : Char} {parts onward : List Char → Option (List α × List Char)}
  {part : α} {found : List α}

theorem readInside_eq_some (h : readInside closing parts s = some (found, left)) :
    (∃ gap, gap.all isSpace = true ∧ s = gap ++ closing :: left) ∨
      parts s = some (found, left) := by
  obtain ⟨gap, hgap, hs⟩ := exists_space s
  unfold readInside at h
  split at h
  · next c rest htoken =>
    split at h
    · next hend =>
      obtain ⟨-, rfl⟩ := Prod.mk.inj (Option.some.inj h)
      exact .inl ⟨gap, hgap, by rw [← hend, ← htoken]; exact hs⟩
    · exact .inr h
  · exact .inr h

theorem readOnward_eq_some (h : readOnward closing onward part s = some (found, left)) :
    ∃ gap, gap.all isSpace = true ∧ (s = gap ++ closing :: left ∨
      ∃ more others, s = gap ++ ',' :: more ∧ onward more = some (others, left)) := by
  obtain ⟨gap, hgap, hs⟩ := exists_space s
  refine ⟨gap, hgap, ?_⟩
  unfold readOnward at h
  split at h
  · next c rest htoken =>
    rw [htoken] at hs
    split at h
    · next hcomma =>
      obtain ⟨⟨others, left⟩, honward, heq⟩ := Option.map_eq_some_iff.1 h
      obtain ⟨-, rfl⟩ := Prod.mk.inj heq
      exact .inr ⟨rest, others, hcomma ▸ hs, honward⟩
    · split at h
      · next hend =>
        obtain ⟨-, rfl⟩ := Prod.mk.inj (Option.some.inj h)
        exact .inl (hend ▸ hs)
      · cases h
  · cases h

end Containers

/-! ## What the reader accepts: values -/

/-- The text in front of what is left is spelled as a value behind white space, and as an
object if an object was read. -/
def ReadsSpelled (s left : List Char) (v : Json) : Prop :=
  ∃ gap text, gap.all isSpace = true ∧ s = gap ++ (text ++ left) ∧ Spells .value text ∧
    ∀ members, v = object members → Spells .object text

/-- All that is read within a number of calls is spelled. -/
structure ReaderSpelled (calls : Nat) : Prop where
  value : ∀ depth s left v, readValue calls depth s = some (v, left) → ReadsSpelled s left v
  items : ∀ depth s left found, readItems calls depth s = some (found, left) →
    ∃ text, s = text ++ ']' :: left ∧ Spells .items text
  members : ∀ depth s left found, readMembers calls depth s = some (found, left) →
    ∃ text, s = text ++ '\x7d' :: left ∧ Spells .members text

/-- A value together with the white space behind it. -/
theorem ReadsSpelled.padded {v : Json} {rest : List Char} (h : ReadsSpelled s (gap ++ rest) v)
    (hgap : gap.all isSpace = true) : ∃ text, s = text ++ rest ∧ Spells .padded text := by
  obtain ⟨before, text, hbefore, rfl, hvalue, -⟩ := h
  exact ⟨_, by simp, .padded hbefore hvalue hgap⟩

variable {calls depth : Nat}

theorem ReaderSpelled.items_succ (h : ReaderSpelled calls) {found : List Json}
    (hread : readItems (calls + 1) depth s = some (found, left)) :
    ∃ text, s = text ++ ']' :: left ∧ Spells .items text := by
  rw [readItems_succ] at hread
  obtain ⟨⟨item, rest⟩, hitem, honward⟩ := Option.bind_eq_some_iff.1 hread
  have hspelled := h.value _ _ _ _ hitem
  obtain ⟨gap, hgap, rfl | ⟨more, others, rfl, hmore⟩⟩ := readOnward_eq_some honward
  · obtain ⟨text, hs, htext⟩ := hspelled.padded hgap
    exact ⟨text, hs, .lastItem htext⟩
  · obtain ⟨text, hs, htext⟩ := hspelled.padded hgap
    obtain ⟨behind, rfl, hbehind⟩ := h.items _ _ _ _ hmore
    exact ⟨text ++ ',' :: behind, by simp [hs], .item htext hbehind⟩

theorem ReaderSpelled.member (h : ReaderSpelled calls) {m : String × Json} {rest : List Char}
    (hread : readMember (readValue calls depth) s = some (m, gap ++ rest))
    (hgap : gap.all isSpace = true) : ∃ text, s = text ++ rest ∧ Spells .member text := by
  obtain ⟨before, hbefore, hs⟩ := exists_space s
  unfold readMember at hread
  split at hread
  · next behind hquote =>
    obtain ⟨⟨key, valueText⟩, hkey, hbehind⟩ := Option.bind_eq_some_iff.1 hread
    obtain ⟨raw, rfl, hraw⟩ := exists_stringText_of_readString hkey
    obtain ⟨between, hbetween, hcolon⟩ := exists_space valueText
    dsimp only at hbehind
    split at hbehind
    · next value hvalue =>
      obtain ⟨⟨v, left⟩, hv, heq⟩ := Option.map_eq_some_iff.1 hbehind
      obtain ⟨-, rfl⟩ := Prod.mk.inj heq
      obtain ⟨text, rfl, htext⟩ := (h.value _ _ _ _ hv).padded hgap
      rw [hquote, hcolon, hvalue] at hs
      exact ⟨_, by rw [hs]; simp, .member hbefore hraw hbetween htext⟩
    · cases hbehind
  · cases hread

theorem ReaderSpelled.members_succ (h : ReaderSpelled calls) {found : List (String × Json)}
    (hread : readMembers (calls + 1) depth s = some (found, left)) :
    ∃ text, s = text ++ '\x7d' :: left ∧ Spells .members text := by
  rw [readMembers_succ] at hread
  obtain ⟨⟨m, rest⟩, hmember, honward⟩ := Option.bind_eq_some_iff.1 hread
  obtain ⟨gap, hgap, rfl | ⟨more, others, rfl, hmore⟩⟩ := readOnward_eq_some honward
  · obtain ⟨text, hs, htext⟩ := h.member hmember hgap
    exact ⟨text, hs, .lastMember htext⟩
  · obtain ⟨text, hs, htext⟩ := h.member hmember hgap
    obtain ⟨behind, rfl, hbehind⟩ := h.members _ _ _ _ hmore
    exact ⟨text ++ ',' :: behind, by simp [hs], .moreMembers htext hbehind⟩

/-- What is not an object has to be spelled as a value only. -/
theorem readsSpelled_of_token {v : Json} {token text rest : List Char}
    (htoken : skipSpace s = token) (heq : token = text ++ rest) (h : Spells .value text)
    (hv : ∀ members, v ≠ object members) : ReadsSpelled s rest v := by
  obtain ⟨gap, hgap, hs⟩ := exists_space s
  rw [htoken, heq] at hs
  exact ⟨gap, text, hgap, hs, h, fun members hm => absurd hm (hv members)⟩

theorem ReaderSpelled.value_succ (h : ReaderSpelled calls) {v : Json}
    (hread : readValue (calls + 1) depth s = some (v, left)) : ReadsSpelled s left v := by
  rcases token_of_readValue hread with ⟨rest, hs⟩ | ⟨rest, hs⟩ | ⟨rest, hs⟩ | ⟨rest, hs⟩ |
    ⟨rest, hs⟩ | ⟨rest, hs⟩ | ⟨c, rest, hs, hc⟩
  · rw [readValue_null hs] at hread
    obtain ⟨rfl, rfl⟩ := Prod.mk.inj (Option.some.inj hread)
    exact readsSpelled_of_token hs rfl (.word (w := "null") (by simp)) (by simp)
  · rw [readValue_true hs] at hread
    obtain ⟨rfl, rfl⟩ := Prod.mk.inj (Option.some.inj hread)
    exact readsSpelled_of_token hs rfl (.word (w := "true") (by simp)) (by simp)
  · rw [readValue_false hs] at hread
    obtain ⟨rfl, rfl⟩ := Prod.mk.inj (Option.some.inj hread)
    exact readsSpelled_of_token hs rfl (.word (w := "false") (by simp)) (by simp)
  · rw [readValue_string hs] at hread
    obtain ⟨⟨text, left⟩, htext, heq⟩ := Option.map_eq_some_iff.1 hread
    obtain ⟨rfl, rfl⟩ := Prod.mk.inj heq
    obtain ⟨raw, rfl, hraw⟩ := exists_stringText_of_readString htext
    exact readsSpelled_of_token hs (by simp) (.string hraw) (by simp)
  · rw [readValue_array hs] at hread
    split at hread
    · cases hread
    · obtain ⟨⟨items, left⟩, hinside, heq⟩ := Option.map_eq_some_iff.1 hread
      obtain ⟨rfl, rfl⟩ := Prod.mk.inj heq
      rcases readInside_eq_some hinside with ⟨gap, hgap, rfl⟩ | hitems
      · exact readsSpelled_of_token hs (by simp) (.emptyArray hgap) (by simp)
      · obtain ⟨text, rfl, htext⟩ := h.items _ _ _ _ hitems
        exact readsSpelled_of_token hs (by simp) (.array htext) (by simp)
  · rw [readValue_object hs] at hread
    split at hread
    · cases hread
    · obtain ⟨⟨members, left⟩, hinside, heq⟩ := Option.map_eq_some_iff.1 hread
      obtain ⟨rfl, rfl⟩ := Prod.mk.inj heq
      obtain ⟨gap, hgap, hgapS⟩ := exists_space s
      rw [hs] at hgapS
      have hobject : ∃ text, '\x7b' :: rest = text ++ left ∧ Spells .object text := by
        rcases readInside_eq_some hinside with ⟨gap, hgap, rfl⟩ | hmembers
        · exact ⟨_, by simp, .emptyObject hgap⟩
        · obtain ⟨text, rfl, htext⟩ := h.members _ _ _ _ hmembers
          exact ⟨_, by simp, .fullObject htext⟩
      obtain ⟨text, htext, hspelled⟩ := hobject
      exact ⟨gap, text, hgap, htext ▸ hgapS, .object hspelled, fun _ _ => hspelled⟩
  · rw [readValue_number hs hc] at hread
    obtain ⟨⟨n, left⟩, hnumber, heq⟩ := Option.map_eq_some_iff.1 hread
    obtain ⟨rfl, rfl⟩ := Prod.mk.inj heq
    obtain ⟨text, htext, hspelled⟩ := exists_numberText hnumber
    exact readsSpelled_of_token hs htext (.number hspelled) (by simp)

/-- The reader accepts nothing that the grammar does not spell. -/
theorem readerSpelled (calls : Nat) : ReaderSpelled calls := by
  induction calls with
  | zero =>
    constructor
    · simp [readValue]
    · simp [readItems]
    · simp [readMembers]
  | succ calls ih =>
    exact ⟨fun _ _ _ _ => ih.value_succ, fun _ _ _ _ => ih.items_succ,
      fun _ _ _ _ => ih.members_succ⟩

/-- A document that is read is spelled as one. -/
theorem spells_of_parse? {text : String} {v : Json} (h : parse? text = some v) :
    Spells .padded text.toList := by
  unfold parse? at h
  dsimp only at h
  split at h
  · next value rest hread =>
    split at h
    · next hrest =>
      have hgap : rest.all isSpace = true := by
        obtain ⟨gap, hgap, hs⟩ := exists_space rest
        rw [hrest, List.append_nil] at hs
        exact hs ▸ hgap
      have hspelled := (readerSpelled _).value _ _ _ _ hread
      rw [← List.append_nil rest] at hspelled
      obtain ⟨spelled, hs, hpadded⟩ := hspelled.padded hgap
      rw [hs, List.append_nil]
      exact hpadded
    · cases h
  · cases h

end Vendoring.Json
