/-
# Where a search finds its forms

A search goes on behind every form that it has seen, so the specifiers that it
finds come one behind the other, each with the quote or the keyword of its own
form in front of it. Offsets count the bytes of the text before a place, and the
beginnings of one text are told apart by their numbers of bytes; a match is
therefore as good as the piece of text that it stands for.
-/

import Vendoring.Scan.Search

namespace Vendoring.Scan

/-! ## Counting bytes -/

@[simp] theorem byteLength_nil : byteLength [] = 0 := rfl

@[simp] theorem byteLength_cons (c : Char) (s : List Char) :
    byteLength (c :: s) = c.utf8Size + byteLength s := rfl

@[simp] theorem byteLength_append (s u : List Char) :
    byteLength (s ++ u) = byteLength s + byteLength u := by
  induction s with
  | nil => simp
  | cons c s ih => simp [ih, Nat.add_assoc]

theorem byteLength_toList (s : String) : byteLength s.toList = s.utf8ByteSize := by
  have hlist (l : List Char) : byteLength l = (String.ofList l).utf8ByteSize := by
    induction l with
    | nil => rfl
    | cons c l ih =>
      rw [← List.singleton_append, String.ofList_append, String.utf8ByteSize_append, ← ih,
        List.singleton_append, byteLength_cons]
      simp
  rw [hlist, String.ofList_toList]

theorem byteLength_eq_zero_iff {s : List Char} : byteLength s = 0 ↔ s = [] := by
  cases s with
  | nil => simp
  | cons c s =>
    have := c.utf8Size_pos
    rw [byteLength_cons]
    simp only [reduceCtorEq, iff_false]
    omega

variable {s u v w : List Char}

/-- Of two beginnings of one text the one with fewer bytes is a beginning of the other. -/
theorem prefix_of_byteLength_le (h : s ++ u = v ++ w) (hle : byteLength s ≤ byteLength v) :
    s <+: v := by
  rcases List.append_eq_append_iff.1 h with ⟨more, rfl, -⟩ | ⟨more, rfl, -⟩
  · exact List.prefix_append _ _
  · rw [byteLength_append] at hle
    obtain rfl : more = [] := byteLength_eq_zero_iff.1 (by omega)
    simp

/-- Beginnings of one text with equally many bytes are equal. -/
theorem eq_of_byteLength_eq (h : s ++ u = v ++ w) (heq : byteLength s = byteLength v) :
    s = v := by
  obtain ⟨more, rfl⟩ := prefix_of_byteLength_le h (by omega)
  rw [byteLength_append] at heq
  obtain rfl : more = [] := byteLength_eq_zero_iff.1 (by omega)
  simp

theorem byteLength_le_of_prefix (h : s <+: u) : byteLength s ≤ byteLength u := by
  obtain ⟨more, rfl⟩ := h
  rw [byteLength_append]
  omega

/-! ## Matches and the text that they stand for -/

/-- The span of the match lies in the text, begins and ends between characters, and
holds the specifier. -/
def Match.Covers (m : Match) (s : List Char) : Prop :=
  ∃ before behind, s = before ++ m.specifier.toList ++ behind ∧
    m.start = byteLength before ∧ m.stop = byteLength (before ++ m.specifier.toList)

/-- The form has its specifier behind some text of its own, and covers both. -/
structure Seen.Fits (seen : Seen Occurrence) (s : List Char) : Prop where
  lead_ne : seen.value.lead ≠ []
  covered : seen.value.lead ++ seen.value.specifier <+: s.take seen.size

variable {recognise : Option Char → List Char → Option (Seen Occurrence)}

/-- What a search finds is seen at its place, behind the characters that are passed over. -/
theorem mem_searchFrom {α : Type} {recognise : Option Char → List Char → Option (Seen α)}
    {skip offset : Nat} {before : Option Char} {x : Nat × α}
    (h : x ∈ searchFrom recognise skip before offset s) :
    ∃ passed behind last seen, s = passed ++ behind ∧ skip ≤ passed.length ∧
      recognise last behind = some seen ∧ x = (offset + byteLength passed, seen.value) := by
  induction s generalizing skip offset before with
  | nil => simp [searchFrom] at h
  | cons c rest ih =>
    have hbehind {skip' : Nat} (hskip : skip ≤ skip' + 1)
        (h : x ∈ searchFrom recognise skip' (some c) (offset + c.utf8Size) rest) :
        ∃ passed behind last seen, c :: rest = passed ++ behind ∧ skip ≤ passed.length ∧
          recognise last behind = some seen ∧ x = (offset + byteLength passed, seen.value) := by
      obtain ⟨passed, behind, last, seen, rfl, hpassed, hseen, rfl⟩ := ih h
      refine ⟨c :: passed, behind, last, seen, rfl, ?_, hseen, ?_⟩
      · rw [List.length_cons]
        omega
      · rw [byteLength_cons, Nat.add_assoc]
    cases skip with
    | succ skip => exact hbehind (Nat.le_refl _) h
    | zero =>
      rw [searchFrom] at h
      split at h
      · next seen hseen =>
        rcases List.mem_cons.1 h with rfl | h
        · exact ⟨[], c :: rest, before, seen, rfl, Nat.le_refl _, hseen, rfl⟩
        · exact hbehind (Nat.zero_le _) h
      · exact hbehind (Nat.zero_le _) h

/-- What a search finds behind a form lies behind all characters of the form. -/
theorem pairwise_searchFrom (hfits : ∀ before s seen, recognise before s = some seen → seen.Fits s)
    {skip offset : Nat} {before : Option Char} :
    (searchFrom recognise skip before offset s).Pairwise fun x y =>
      (x.2.toMatch x.1).stop < (y.2.toMatch y.1).start := by
  induction s generalizing skip offset before with
  | nil => simp [searchFrom]
  | cons c rest ih =>
    cases skip with
    | succ skip => exact ih
    | zero =>
      rw [searchFrom]
      split
      · next seen hseen =>
        refine List.pairwise_cons.2 ⟨fun y hy => ?_, ih⟩
        obtain ⟨passed, behind, last, seen', rfl, hpassed, hseen', rfl⟩ := mem_searchFrom hy
        have hfirst := hfits _ _ _ hseen
        have hlead' := (hfits _ _ _ hseen').lead_ne
        have hlength : seen.size ≤ (c :: passed).length := by
          rw [List.length_cons]
          omega
        have hcovered := hfirst.covered
        rw [← List.cons_append, List.take_append_of_le_length hlength] at hcovered
        have hle := byteLength_le_of_prefix (hcovered.trans (List.take_prefix _ _))
        rw [byteLength_append, byteLength_cons] at hle
        have hpos : byteLength seen'.value.lead ≠ 0 := fun h => hlead' (byteLength_eq_zero_iff.1 h)
        simp only [Occurrence.toMatch]
        omega
      · exact ih

/-- A match stands for a form that is seen in the text. -/
theorem mem_matchesOf {m : Match} (h : m ∈ matchesOf recognise s) :
    ∃ passed behind last seen, s = passed ++ behind ∧ recognise last behind = some seen ∧
      m = seen.value.toMatch (byteLength passed) := by
  obtain ⟨x, hx, rfl⟩ := List.mem_map.1 h
  obtain ⟨passed, behind, last, seen, hs, -, hseen, rfl⟩ := mem_searchFrom hx
  exact ⟨passed, behind, last, seen, hs, hseen, by simp⟩

theorem Seen.Fits.covers {seen : Seen Occurrence} (h : seen.Fits u) (passed : List Char) :
    (seen.value.toMatch (byteLength passed)).Covers (passed ++ u) := by
  obtain ⟨tail, htail⟩ := h.covered.trans (List.take_prefix _ _)
  refine ⟨passed ++ seen.value.lead, tail, ?_, ?_, ?_⟩
  · simp [Occurrence.toMatch, ← htail]
  · simp [Occurrence.toMatch]
  · simp [Occurrence.toMatch, Nat.add_assoc]

/-- The specifiers of one search stand one behind the other. -/
theorem pairwise_matchesOf
    (hfits : ∀ before s seen, recognise before s = some seen → seen.Fits s) (s : List Char) :
    (matchesOf recognise s).Pairwise fun m n => m.stop < n.start :=
  List.pairwise_map.2 (pairwise_searchFrom hfits)

theorem covers_of_mem_matchesOf
    (hfits : ∀ before s seen, recognise before s = some seen → seen.Fits s) {m : Match}
    (h : m ∈ matchesOf recognise s) : m.Covers s := by
  obtain ⟨passed, behind, last, seen, rfl, hseen, rfl⟩ := mem_matchesOf h
  exact (hfits _ _ _ hseen).covers passed

end Vendoring.Scan
