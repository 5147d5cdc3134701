/-
# Reading a document whose strings are exchanged

Both documents are read alike, value by value. A value that is an exchanged string is read as
the new string; a key is never exchanged, since a colon stands behind it.
-/

import Vendoring.Proofs.Json.Exchange

namespace Vendoring.Json

variable {new : String → String → Prop} {s t : List Char} {calls calls' depth : Nat}

namespace Exchanges

/-! ## Containers -/

section Containers

variable {α : Type} {rel : List α → List α → Prop} {closing : Char}
  {parts parts' : List Char → Option (List α × List Char)}

theorem readInside (h : Exchanges new .code s t) (hclosing : closing ≠ '"') (hnil : rel [] [])
    (hparts : Carries new rel t (parts s) (parts' t)) :
    Carries new rel t (Json.readInside closing parts s) (Json.readInside closing parts' t) := by
  obtain ⟨hskip, hsuffix⟩ := h.skipSpace
  unfold Json.readInside
  cases hs : Json.skipSpace s with
  | nil =>
    rw [hs] at hskip
    rw [hskip.of_nil]
    exact hparts
  | cons c left =>
    rw [hs] at hskip
    by_cases hc : c = closing
    · obtain ⟨left', ht, hleft⟩ := hskip.of_code (hc ▸ hclosing)
      rw [ht] at hsuffix ⊢
      simp only [hc, if_true]
      exact .some hnil hleft ((List.suffix_cons _ _).trans hsuffix)
    · obtain ⟨left', ht⟩ := hskip.exists_cons
      rw [ht]
      simpa only [if_neg hc] using hparts

theorem readOnward {part part' : α} (h : Exchanges new .code s t) (hclosing : closing ≠ '"')
    (hlast : rel [part] [part'])
    (hcons : ∀ more more', rel more more' → rel (part :: more) (part' :: more'))
    (hparts : ∀ left left', Exchanges new .code left left' → left'.length < t.length →
      Carries new rel left' (parts left) (parts' left')) :
    Carries new rel t (Json.readOnward closing parts part s)
      (Json.readOnward closing parts' part' t) := by
  obtain ⟨hskip, hsuffix⟩ := h.skipSpace
  unfold Json.readOnward
  cases hs : Json.skipSpace s with
  | nil => exact .none
  | cons c left =>
    rw [hs] at hskip
    by_cases hcomma : c = ','
    · obtain ⟨left', ht, hleft⟩ := hskip.of_code (hcomma ▸ by decide)
      rw [ht] at hsuffix ⊢
      simp only [hcomma, if_true]
      have hmore := (hparts left left' hleft hsuffix.length_le).map
        (f := (part :: ·)) (g := (part' :: ·)) hcons
      exact hmore.mono ((List.suffix_cons _ _).trans hsuffix)
    · by_cases hc : c = closing
      · obtain ⟨left', ht, hleft⟩ := hskip.of_code (hc ▸ hclosing)
        rw [ht] at hsuffix ⊢
        simp only [if_neg hcomma, if_pos hc]
        exact .some hlast hleft ((List.suffix_cons _ _).trans hsuffix)
      · obtain ⟨left', ht⟩ := hskip.exists_cons
        simp only [if_neg hcomma, if_neg hc]
        exact .none

/-- The keys of both texts are the same. -/
theorem readMember {value value' : List Char → Option (Json × List Char)}
    (h : Exchanges new .code s t)
    (hvalue : ∀ left left', Exchanges new .code left left' → left'.length < t.length →
      Carries new (Alters new) left' (value left) (value' left')) :
    Carries new (fun m m' => m'.1 = m.1 ∧ Alters new m.2 m'.2) t (Json.readMember value s)
      (Json.readMember value' t) := by
  intro m left hread
  rw [Json.readMember] at hread
  split at hread
  · next behind hs =>
    obtain ⟨⟨key, rest⟩, hkey, hread⟩ := Option.bind_eq_some_iff.1 hread
    dsimp only at hread
    split at hread
    · next valueText hcolon =>
      obtain ⟨⟨v, _⟩, hv, heq⟩ := Option.map_eq_some_iff.1 hread
      obtain ⟨rfl, rfl⟩ := Prod.mk.inj heq
      obtain ⟨hskip, hsuffix⟩ := h.skipSpace
      rw [hs] at hskip
      obtain ⟨behind', ht⟩ := hskip.exists_cons
      rw [ht] at hskip hsuffix
      obtain ⟨key', rest', hkey', hnew, hrest, hbehind⟩ := hskip.readString hkey
      obtain rfl : key' = key := hnew.resolve_right (by simp [hcolon])
      obtain ⟨valueText', ht', hvalueText, hcolon'⟩ := hrest.of_token [':'] hcolon (by decide)
      have hinside : ':' :: valueText' <:+ t :=
        hcolon'.trans (hbehind.trans ((List.suffix_cons _ _).trans hsuffix))
      obtain ⟨v', left', hv', hrel, hleft, hleft'⟩ :=
        hvalue valueText valueText' hvalueText hinside.length_le v _ hv
      refine ⟨(key', v'), left', ?_, ⟨rfl, hrel⟩, hleft,
        hleft'.trans ((List.suffix_cons _ _).trans hinside)⟩
      simp [Json.readMember, ht, hkey', ht', hv']
    · simp at hread
  · simp at hread

end Containers

/-! ## Values -/

theorem readText (h : Exchanges new .code ('"' :: s) ('"' :: t)) :
    Carries new (fun text text' => text' = text ∨ new text text') t (Json.readString s)
      (Json.readString t) := by
  intro text left hread
  obtain ⟨text', left', hread', hnew, hleft, hsuffix⟩ := h.readString hread
  exact ⟨text', left', hread', hnew.imp_right And.left, hleft, hsuffix⟩

/-- A value is read from both texts, if the parts of containers are. -/
theorem readValue_succ
    (hitems : ∀ {s t : List Char} {depth : Nat}, Exchanges new .code s t →
      2 * t.length + 1 < calls' → Carries new (AltersItems new) t (readItems calls depth s)
        (readItems calls' depth t))
    (hmembers : ∀ {s t : List Char} {depth : Nat}, Exchanges new .code s t →
      2 * t.length + 1 < calls' → Carries new (AltersMembers new) t (readMembers calls depth s)
        (readMembers calls' depth t))
    (h : Exchanges new .code s t) (hcalls : 2 * t.length < calls' + 1) :
    Carries new (Alters new) t (readValue (calls + 1) depth s)
      (readValue (calls' + 1) depth t) := by
  intro v rest hread
  suffices hcarries : Carries new (Alters new) t (readValue (calls + 1) depth s)
      (readValue (calls' + 1) depth t) from hcarries v rest hread
  rcases token_of_readValue hread with ⟨left, hs⟩ | ⟨left, hs⟩ | ⟨left, hs⟩ | ⟨left, hs⟩ |
    ⟨left, hs⟩ | ⟨left, hs⟩ | ⟨c, left, hs, hc⟩
  · obtain ⟨left', ht, hleft, hsuffix⟩ := h.of_token ['n', 'u', 'l', 'l'] hs (by decide)
    rw [readValue_null hs, readValue_null ht]
    exact .some .null hleft ((List.suffix_append _ _).trans hsuffix)
  · obtain ⟨left', ht, hleft, hsuffix⟩ := h.of_token ['t', 'r', 'u', 'e'] hs (by decide)
    rw [readValue_true hs, readValue_true ht]
    exact .some (.bool true) hleft ((List.suffix_append _ _).trans hsuffix)
  · obtain ⟨left', ht, hleft, hsuffix⟩ := h.of_token ['f', 'a', 'l', 's', 'e'] hs (by decide)
    rw [readValue_false hs, readValue_false ht]
    exact .some (.bool false) hleft ((List.suffix_append _ _).trans hsuffix)
  · obtain ⟨hskip, hsuffix⟩ := h.skipSpace
    rw [hs] at hskip
    obtain ⟨left', ht⟩ := hskip.exists_cons
    rw [readValue_string hs, readValue_string ht]
    rw [ht] at hskip hsuffix
    exact (hskip.readText.map fun _ _ => .string).mono ((List.suffix_cons _ _).trans hsuffix)
  · obtain ⟨left', ht, hleft, hsuffix⟩ := h.of_token ['['] hs (by decide)
    have hshorter := hsuffix.length_le
    simp only [List.singleton_append, List.length_cons] at ht hsuffix hshorter
    rw [readValue_array hs, readValue_array ht]
    split
    · exact .none
    · exact ((hleft.readInside (by decide : ']' ≠ '"') .nil (hitems hleft (by omega))).map
        (fun _ _ => Alters.array)).mono ((List.suffix_cons _ _).trans hsuffix)
  · obtain ⟨left', ht, hleft, hsuffix⟩ := h.of_token ['\x7b'] hs (by decide)
    have hshorter := hsuffix.length_le
    simp only [List.singleton_append, List.length_cons] at ht hsuffix hshorter
    rw [readValue_object hs, readValue_object ht]
    split
    · exact .none
    · exact ((hleft.readInside (by decide : '\x7d' ≠ '"') .nil (hmembers hleft (by omega))).map
        (fun _ _ hrel => Alters.object hrel.distinct)).mono ((List.suffix_cons _ _).trans hsuffix)
  · obtain ⟨hskip, hsuffix⟩ := h.skipSpace
    rw [hs] at hskip
    obtain ⟨left', ht⟩ := hskip.exists_cons
    rw [readValue_number hs hc, readValue_number ht hc]
    rw [ht] at hskip hsuffix
    exact (hskip.readNumber.map fun n _ hn => hn ▸ .number n).mono hsuffix

theorem readItems_succ
    (hvalue : ∀ {s t : List Char} {depth : Nat}, Exchanges new .code s t →
      2 * t.length < calls' → Carries new (Alters new) t (readValue calls depth s)
        (readValue calls' depth t))
    (hitems : ∀ {s t : List Char} {depth : Nat}, Exchanges new .code s t →
      2 * t.length + 1 < calls' → Carries new (AltersItems new) t (readItems calls depth s)
        (readItems calls' depth t))
    (h : Exchanges new .code s t) (hcalls : 2 * t.length + 1 < calls' + 1) :
    Carries new (AltersItems new) t (readItems (calls + 1) depth s)
      (readItems (calls' + 1) depth t) := by
  rw [Json.readItems_succ, Json.readItems_succ]
  refine (hvalue h (by omega)).bind fun v v' rest rest' hv hrest hsuffix => ?_
  have hshorter := hsuffix.length_le
  refine (hrest.readOnward (by decide) (.cons hv .nil) (fun _ _ => .cons hv) ?_).mono hsuffix
  exact fun left left' hleft hlt => hitems hleft (by omega)

theorem readMembers_succ
    (hvalue : ∀ {s t : List Char} {depth : Nat}, Exchanges new .code s t →
      2 * t.length < calls' → Carries new (Alters new) t (readValue calls depth s)
        (readValue calls' depth t))
    (hmembers : ∀ {s t : List Char} {depth : Nat}, Exchanges new .code s t →
      2 * t.length + 1 < calls' → Carries new (AltersMembers new) t (readMembers calls depth s)
        (readMembers calls' depth t))
    (h : Exchanges new .code s t) (hcalls : 2 * t.length + 1 < calls' + 1) :
    Carries new (AltersMembers new) t (readMembers (calls + 1) depth s)
      (readMembers (calls' + 1) depth t) := by
  rw [Json.readMembers_succ, Json.readMembers_succ]
  refine (h.readMember fun left left' hleft hlt => hvalue hleft (by omega)).bind
    fun m m' rest rest' hm hrest hsuffix => ?_
  obtain ⟨key, v⟩ := m
  obtain ⟨_, v'⟩ := m'
  obtain ⟨rfl, hv⟩ := hm
  have hshorter := hsuffix.length_le
  refine (hrest.readOnward (by decide) (.cons hv .nil) (fun _ _ => .cons hv) ?_).mono hsuffix
  exact fun left left' hleft hlt => hmembers hleft (by omega)

/-- However the first text was read, the second one is read with enough calls. -/
theorem read (calls calls' : Nat) :
    (∀ {s t : List Char} {depth : Nat}, Exchanges new .code s t → 2 * t.length < calls' →
      Carries new (Alters new) t (readValue calls depth s) (readValue calls' depth t)) ∧
    (∀ {s t : List Char} {depth : Nat}, Exchanges new .code s t → 2 * t.length + 1 < calls' →
      Carries new (AltersItems new) t (readItems calls depth s) (readItems calls' depth t)) ∧
    (∀ {s t : List Char} {depth : Nat}, Exchanges new .code s t → 2 * t.length + 1 < calls' →
      Carries new (AltersMembers new) t (readMembers calls depth s)
        (readMembers calls' depth t)) := by
  induction calls generalizing calls' with
  | zero => exact ⟨fun _ _ => .none, fun _ _ => .none, fun _ _ => .none⟩
  | succ calls ih =>
    cases calls' with
    | zero => exact ⟨fun _ h => absurd h (by simp), fun _ h => absurd h (by simp),
        fun _ h => absurd h (by simp)⟩
    | succ calls' =>
      obtain ⟨hvalue, hitems, hmembers⟩ := ih calls'
      exact ⟨readValue_succ hitems hmembers, readItems_succ hvalue hitems,
        readMembers_succ hvalue hmembers⟩

end Exchanges

/-- A document with some of its string values exchanged is read as the same document with new
strings in their places. -/
theorem parse?_of_exchanges {text text' : String} {v : Json} (h : parse? text = some v)
    (hexchanges : Exchanges new .code text.toList text'.toList) :
    ∃ v', parse? text' = some v' ∧ Alters new v v' := by
  unfold parse? at h ⊢
  dsimp only at h ⊢
  split at h
  · next value rest hread =>
    split at h
    · next hend =>
      obtain rfl := Option.some.inj h
      obtain ⟨v', rest', hread', hrel, hrest, -⟩ :=
        (Exchanges.read _ (2 * text'.toList.length + 2)).1 hexchanges (by omega) _ _ hread
      have hend' := hrest.skipSpace.1
      rw [hend] at hend'
      refine ⟨v', ?_, hrel⟩
      rw [hread']
      simp only [hend'.of_nil, if_true]
    · simp at h
  · simp at h

end Vendoring.Json
