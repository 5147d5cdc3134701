/-
# Strings as they are written

A string is read up to the quote that ends it, and what it means depends on nothing behind
that quote. A search that knows no more of strings than quotes and backslashes finds the same
end, and decodes the same text.
-/

import Vendoring.Proofs.Scan.Manifest

namespace Vendoring.Json

open Scan

variable {s left raw : List Char} {text : String}

/-- The characters are those of a string, as they stand between its quotes. -/
def IsWritten (raw : List Char) (text : String) : Prop :=
  ∀ rest, readString (raw ++ '"' :: rest) = some (text, rest)

/-! ## One character after the other -/

theorem lexString_quote (rest : List Char) : lexString ('"' :: rest) = some ([], rest) := by
  rw [lexString.eq_def]
  rfl

theorem lexString_char {c : Char} (hquote : c ≠ '"') (hescape : c ≠ '\\') (rest : List Char) :
    lexString (c :: rest) =
      if c.toNat < 0x20 then none
      else (lexString rest).map fun (pieces, left) => (.char c :: pieces, left) := by
  rw [lexString.eq_def]
  simp only [if_neg hquote, if_neg hescape]

theorem lexString_unit (a b c d : Char) (rest : List Char) :
    lexString ('\\' :: 'u' :: a :: b :: c :: d :: rest) =
      (hexUnit? a b c d).bind fun n =>
        (lexString rest).map fun (pieces, left) => (.unit n :: pieces, left) := by
  rw [lexString.eq_def]
  rfl

theorem lexString_escape {e : Char} (he : e ≠ 'u') (rest : List Char) :
    lexString ('\\' :: e :: rest) =
      (escaped? e).bind fun d =>
        (lexString rest).map fun (pieces, left) => (.char d :: pieces, left) := by
  rw [lexString.eq_def]
  simp only [if_neg he]
  rfl

theorem hexValue?_eq_some {c : Char} {n : Nat} (h : hexValue? c = some n) : c ≠ '"' ∧ c ≠ '\\' := by
  constructor <;> rintro rfl <;> simp [hexValue?] at h

theorem isRaw_of_hexUnit {a b c d : Char} {n : Nat} (h : hexUnit? a b c d = some n)
    (hraw : IsRaw raw) : IsRaw (a :: b :: c :: d :: raw) := by
  simp only [hexUnit?, Option.pure_def, Option.bind_eq_bind, Option.bind_eq_some_iff] at h
  obtain ⟨_, ha, _, hb, _, hc, _, hd, -⟩ := h
  have hcons {c : Char} {n : Nat} {raw : List Char} (h : hexValue? c = some n)
      (hraw : IsRaw raw) : IsRaw (c :: raw) :=
    hraw.cons (hexValue?_eq_some h).1 (hexValue?_eq_some h).2
  exact hcons ha (hcons hb (hcons hc (hcons hd hraw)))

/-- A string ends where its quotes and backslashes say. -/
theorem lexString_eq_some {pieces : List StringPiece} (h : lexString s = some (pieces, left)) :
    ∃ raw, s = raw ++ '"' :: left ∧ IsRaw raw ∧
      ∀ rest, lexString (raw ++ '"' :: rest) = some (pieces, rest) := by
  fun_induction lexString s generalizing pieces left with
  | case1 => simp at h
  | case2 rest =>
    obtain ⟨rfl, rfl⟩ := Prod.mk.inj (Option.some.inj h)
    exact ⟨[], rfl, isRaw_nil, lexString_quote⟩
  | case3 => simp at h
  | case4 h₁ h₂ h₃ h₄ rest _ ih =>
    obtain ⟨n, hunit, hmap⟩ := Option.bind_eq_some_iff.1 h
    obtain ⟨⟨more, left⟩, hmore, heq⟩ := Option.map_eq_some_iff.1 hmap
    obtain ⟨rfl, rfl⟩ := Prod.mk.inj heq
    obtain ⟨raw, rfl, hraw, hlex⟩ := ih hmore
    refine ⟨'\\' :: 'u' :: h₁ :: h₂ :: h₃ :: h₄ :: raw, rfl,
      (isRaw_of_hexUnit hunit hraw).escape 'u', fun rest => ?_⟩
    simp only [List.cons_append]
    rw [lexString_unit, hunit, Option.bind_some, hlex]
    rfl
  | case5 => simp at h
  | case6 e rest hne _ ih =>
    obtain ⟨d, hescaped, hmap⟩ := Option.bind_eq_some_iff.1 h
    obtain ⟨⟨more, left⟩, hmore, heq⟩ := Option.map_eq_some_iff.1 hmap
    obtain ⟨rfl, rfl⟩ := Prod.mk.inj heq
    obtain ⟨raw, rfl, hraw, hlex⟩ := ih hmore
    refine ⟨'\\' :: e :: raw, rfl, hraw.escape e, fun rest => ?_⟩
    simp only [List.cons_append]
    rw [lexString_escape hne, hescaped, Option.bind_some, hlex]
    rfl
  | case7 => simp at h
  | case8 c rest hquote hescape hcontrol ih =>
    obtain ⟨⟨more, left⟩, hmore, heq⟩ := Option.map_eq_some_iff.1 h
    obtain ⟨rfl, rfl⟩ := Prod.mk.inj heq
    obtain ⟨raw, rfl, hraw, hlex⟩ := ih hmore
    refine ⟨c :: raw, rfl, hraw.cons hquote hescape, fun rest => ?_⟩
    rw [List.cons_append, lexString_char hquote hescape, if_neg hcontrol, hlex]
    rfl

theorem readString_eq_some (h : readString s = some (text, left)) :
    ∃ raw, s = raw ++ '"' :: left ∧ IsRaw raw ∧ IsWritten raw text := by
  obtain ⟨⟨pieces, rest⟩, hlex, hjoin⟩ := Option.bind_eq_some_iff.1 h
  obtain ⟨chars, hchars, heq⟩ := Option.map_eq_some_iff.1 hjoin
  obtain ⟨rfl, rfl⟩ := Prod.mk.inj heq
  obtain ⟨raw, hs, hraw, hlex'⟩ := lexString_eq_some hlex
  exact ⟨raw, hs, hraw, fun rest => by simp [readString, hlex', hchars]⟩

theorem IsWritten.isRaw (h : IsWritten raw text) : IsRaw raw := by
  obtain ⟨raw', hs, hraw, -⟩ := readString_eq_some (h [])
  rwa [List.append_cancel_right hs]

/-! ## Strings without escapes -/

/-- The characters stand for themselves in a string. -/
def IsPlainText (s : List Char) : Prop :=
  ∀ c ∈ s, c ≠ '"' ∧ c ≠ '\\' ∧ 0x20 ≤ c.toNat

instance : DecidablePred IsPlainText := fun s =>
  List.decidableBAll (fun c => c ≠ '"' ∧ c ≠ '\\' ∧ 0x20 ≤ c.toNat) s

theorem joinPieces_char (s : List Char) : joinPieces (s.map .char) = some s := by
  induction s with
  | nil => rfl
  | cons c s ih =>
    rw [List.map_cons, joinPieces, ih]
    rfl

theorem IsPlainText.lexString (h : IsPlainText raw) (rest : List Char) :
    Json.lexString (raw ++ '"' :: rest) = some (raw.map .char, rest) := by
  induction raw with
  | nil => exact lexString_quote rest
  | cons c raw ih =>
    obtain ⟨hquote, hescape, hcontrol⟩ := h c List.mem_cons_self
    have hrest := ih fun d hd => h d (List.mem_cons_of_mem c hd)
    rw [List.cons_append, lexString_char hquote hescape, if_neg (Nat.not_lt.2 hcontrol), hrest]
    rfl

/-- A plain text is written as it is. -/
theorem IsPlainText.isWritten (h : IsPlainText raw) : IsWritten raw (String.ofList raw) := by
  intro rest
  simp only [readString, h.lexString, Option.bind_some, joinPieces_char]
  rfl

/-- A string that can be read without a backslash is plain. -/
theorem isPlainText_of_lexString {pieces : List StringPiece}
    (h : Json.lexString (raw ++ '"' :: s) = some (pieces, left)) (hquote : '"' ∉ raw)
    (hescape : '\\' ∉ raw) : IsPlainText raw := by
  induction raw generalizing pieces with
  | nil => exact fun c hc => absurd hc List.not_mem_nil
  | cons c raw ih =>
    rw [List.mem_cons, not_or] at hquote hescape
    rw [List.cons_append, lexString_char (Ne.symm hquote.1) (Ne.symm hescape.1)] at h
    split at h
    · simp at h
    · next hcontrol =>
      obtain ⟨⟨more, _⟩, hmore, heq⟩ := Option.map_eq_some_iff.1 h
      obtain ⟨-, rfl⟩ := Prod.mk.inj heq
      exact List.forall_mem_cons.2 ⟨⟨Ne.symm hquote.1, Ne.symm hescape.1, Nat.not_lt.1 hcontrol⟩,
        ih hmore hquote.2 hescape.2⟩

/-- What a search decodes is what is read. -/
theorem IsWritten.decodeRaw? (h : IsWritten raw text) : Scan.decodeRaw? raw = some text := by
  unfold Scan.decodeRaw?
  split
  · rw [h []]
  · next hescape =>
    obtain ⟨⟨pieces, rest⟩, hlex, -⟩ := Option.bind_eq_some_iff.1 (h [])
    have hplain := isPlainText_of_lexString hlex (h.isRaw.not_mem_quote hescape) hescape
    have hread := hplain.isWritten []
    rw [h []] at hread
    simpa using hread.symm

end Vendoring.Json
