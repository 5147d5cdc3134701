/-
# Declarations where they are written

A declaration is found as a string in the text of a manifest, and means the text that its
escapes stand for. So the span of a match holds the string as it is written, which is the
specifier itself only where there are no escapes.
-/

import Vendoring.Proofs.Scan.Forms
import Vendoring.Scan.Manifest

namespace Vendoring.Scan

open Text

variable {s rest raw u : List Char} {c : Char} {m : Match} {offset : Nat}

/-! ## Inside and outside of strings -/

/-- Where a text stands behind one more character. -/
def BraceState.next : BraceState → Char → BraceState
  | .code, c => if c = '"' then .string else .code
  | .string, c => if c = '\\' then .escape else if c = '"' then .code else .string
  | .escape, _ => .string

namespace BraceState

theorem next_code (hc : c ≠ '"') : code.next c = .code :=
  if_neg hc

theorem next_string (hquote : c ≠ '"') (hescape : c ≠ '\\') : string.next c = .string := by
  simp [next, hquote, hescape]

end BraceState

/-- The characters of a string as they are written: none of their quotes ends it. -/
structure IsRaw (raw : List Char) : Prop where
  open_of_prefix : ∀ front, front <+: raw → front.foldl BraceState.next .string ≠ .code
  stays_open : raw.foldl BraceState.next .string = .string

theorem isRaw_nil : IsRaw [] := ⟨fun front h => by simp [List.prefix_nil.1 h], rfl⟩

theorem IsRaw.cons (h : IsRaw raw) (hquote : c ≠ '"') (hescape : c ≠ '\\') : IsRaw (c :: raw) where
  open_of_prefix front hfront := by
    cases front with
    | nil => simp
    | cons d front =>
      obtain ⟨rfl, hrest⟩ := List.cons_prefix_cons.1 hfront
      rw [List.foldl_cons, BraceState.next_string hquote hescape]
      exact h.open_of_prefix front hrest
  stays_open := by
    rw [List.foldl_cons, BraceState.next_string hquote hescape]
    exact h.stays_open

theorem IsRaw.escape (h : IsRaw raw) (c : Char) : IsRaw ('\\' :: c :: raw) where
  open_of_prefix front hfront := by
    match front with
    | [] => simp
    | [d] =>
      rw [(List.cons_prefix_cons.1 hfront).1]
      simp [BraceState.next]
    | d :: e :: front =>
      obtain ⟨hd, hrest⟩ := List.cons_prefix_cons.1 hfront
      rw [hd]
      exact h.open_of_prefix front (List.cons_prefix_cons.1 hrest).2
  stays_open := h.stays_open

/-- Without a backslash there is no way to write a quote. -/
theorem IsRaw.not_mem_quote (h : IsRaw raw) (hescape : '\\' ∉ raw) : '"' ∉ raw := by
  intro hmem
  obtain ⟨front, behind, rfl, hfirst⟩ := List.eq_append_cons_of_mem hmem
  have hopen : IsRaw front := by
    clear h hmem
    induction front with
    | nil => exact isRaw_nil
    | cons c front ih =>
      simp only [List.cons_append, List.mem_cons, not_or] at hescape hfirst
      exact (ih hfirst.2 hescape.2).cons (Ne.symm hfirst.1) (Ne.symm hescape.1)
  refine h.open_of_prefix (front ++ ['"']) ⟨behind, by simp⟩ ?_
  rw [List.foldl_append, hopen.stays_open]
  rfl

/-- A string ends at its first quote that is not escaped. -/
theorem rawString?_eq_some (h : rawString? s = some raw) :
    IsRaw raw ∧ ∃ rest, s = raw ++ '"' :: rest := by
  fun_induction rawString? s generalizing raw with
  | case1 => simp at h
  | case2 rest =>
    obtain rfl := Option.some.inj h
    exact ⟨isRaw_nil, rest, rfl⟩
  | case3 => simp at h
  | case4 => simp at h
  | case5 d more _ _ ih =>
    obtain ⟨raw, hraw, rfl⟩ := Option.map_eq_some_iff.1 h
    obtain ⟨hopen, rest, rfl⟩ := ih hraw
    exact ⟨hopen.escape d, rest, rfl⟩
  | case6 c rest hquote hescape ih =>
    obtain ⟨raw, hraw, rfl⟩ := Option.map_eq_some_iff.1 h
    obtain ⟨hopen, rest, rfl⟩ := ih hraw
    exact ⟨hopen.cons hquote hescape, rest, rfl⟩

/-- A text that leaves a string has passed the quote that ends it. -/
theorem IsRaw.prefix_of_code {front behind : List Char} (h : IsRaw raw)
    (hfront : front <+: raw ++ '"' :: behind)
    (hcode : front.foldl BraceState.next .string = .code) :
    raw ++ ['"'] <+: front := by
  have hclosed : raw ++ ['"'] <+: raw ++ '"' :: behind := by simp
  rcases List.prefix_or_prefix_of_prefix hclosed hfront with hle | hle
  · exact hle
  · rcases List.prefix_concat_iff.1 hle with rfl | hle
    · exact List.prefix_refl _
    · exact absurd hcode (h.open_of_prefix front hle)

/-- The quote that ends a string is determined. -/
theorem IsRaw.unique {raw' behind behind' : List Char} (h : IsRaw raw) (h' : IsRaw raw')
    (heq : raw ++ '"' :: behind = raw' ++ '"' :: behind') : raw = raw' ∧ behind = behind' := by
  have hcode {raw : List Char} (h : IsRaw raw) :
      (raw ++ ['"']).foldl BraceState.next .string = .code := by
    rw [List.foldl_append, h.stays_open]
    rfl
  have hclosed : raw' ++ ['"'] <+: raw ++ '"' :: behind := heq ▸ ⟨behind', by simp⟩
  have hclosed' : raw ++ ['"'] <+: raw' ++ '"' :: behind' := heq ▸ ⟨behind, by simp⟩
  have hle := h.prefix_of_code hclosed (hcode h')
  have hle' := h'.prefix_of_code hclosed' (hcode h)
  obtain rfl := List.append_cancel_right (hle.eq_of_length_le hle'.length_le)
  exact ⟨rfl, by simpa using heq⟩

/-! ## Pieces of declarations -/

theorem behindColon?_eq_some (h : behindColon? s = some rest) : ∃ front, s = front ++ rest := by
  obtain ⟨behind, hbehind, rfl⟩ := Option.map_eq_some_iff.1 h
  obtain ⟨blanks, -, hblanks⟩ := exists_blanks s
  obtain ⟨more, -, hmore⟩ := exists_blanks behind
  refine ⟨blanks ++ [':'] ++ more, ?_⟩
  rw [List.append_assoc, ← hmore, List.append_assoc, ← behind?_eq_some hbehind, ← hblanks]

/-- A pair has its specifier behind a key and a colon, as a string. -/
theorem stringPair?_eq_some {before : Option Char} {seen : Seen Occurrence}
    (h : stringPair? before s = some seen) :
    IsRaw seen.value.specifier ∧ ∃ front behind, seen.value.lead = front ++ ['"'] ∧
      s = front ++ '"' :: (seen.value.specifier ++ '"' :: behind) := by
  unfold stringPair? at h
  simp only [Option.pure_def, Option.bind_eq_bind, Option.bind_eq_some_iff, Option.some.injEq] at h
  obtain ⟨body, hbody, key, hkey, behind, hbehind, value, hvalue, raw, hraw, rfl⟩ := h
  obtain ⟨-, afterKey, rfl⟩ := rawString?_eq_some hkey
  obtain ⟨hopen, tail, rfl⟩ := rawString?_eq_some hraw
  have hdrop : (key ++ '"' :: afterKey).drop (key.length + 1) = afterKey := by
    rw [← List.drop_drop, List.drop_left]
    rfl
  rw [hdrop] at hbehind
  obtain ⟨colon, rfl⟩ := behindColon?_eq_some hbehind
  obtain rfl := behind?_eq_some hvalue
  have hs : s = (['"'] ++ key ++ ['"'] ++ colon ++ ['"']) ++ (raw ++ '"' :: tail) := by
    rw [behind?_eq_some hbody]
    simp
  refine ⟨hopen, ['"'] ++ key ++ ['"'] ++ colon, tail, ?_, ?_⟩
  · show s.take _ = _
    rw [hs, List.length_append, Nat.add_sub_cancel, List.take_left]
  · rw [hs]
    simp

/-- A block starts with a brace behind its key. -/
theorem blockStart?_eq_some {before : Option Char} {seen : Seen (List Char × List Char)}
    (h : blockStart? before s = some seen) :
    s = seen.value.1 ++ seen.value.2 ∧ ∃ inside, seen.value.2 = '\x7b' :: inside := by
  unfold blockStart? at h
  simp only [Option.pure_def, Option.bind_eq_bind, Option.bind_eq_some_iff, Option.some.injEq] at h
  obtain ⟨behind, hbehind, opening, hopening, inside, hinside, rfl⟩ := h
  obtain ⟨colon, rfl⟩ := behindColon?_eq_some hopening
  have hs := behind?_eq_some hbehind
  rw [← List.append_assoc] at hs
  refine ⟨?_, inside, behind?_eq_some hinside⟩
  simp only
  rw [hs, List.length_append, Nat.add_sub_cancel, List.take_left]

/-! ## Declarations -/

/-- The span of the match holds a string between its quotes, which is written as `raw` and
means the specifier. -/
structure Match.Writes (m : Match) (raw s : List Char) : Prop where
  isRaw : IsRaw raw
  means : decodeRaw? raw = some m.specifier
  covered : ∃ front behind, s = front ++ '"' :: (raw ++ '"' :: behind) ∧
    m.start = byteLength (front ++ ['"']) ∧ m.stop = byteLength (front ++ '"' :: raw)

/-- The declarations of a block are written inside the block. -/
theorem writes_of_mem_blockMatches (hm : m ∈ blockMatches (byteLength u) ('\x7b' :: s)) :
    ∃ raw, m.Writes raw (u ++ '\x7b' :: s) := by
  unfold blockMatches at hm
  split at hm
  · simp at hm
  · next close _ =>
    obtain ⟨⟨place, o⟩, ho, hm⟩ := List.mem_filterMap.1 hm
    obtain ⟨text, htext, rfl⟩ := Option.map_eq_some_iff.1 hm
    obtain ⟨passed, pair, last, seen, hinside, -, hseen, heq⟩ := mem_searchFrom ho
    obtain ⟨rfl, rfl⟩ := Prod.mk.inj heq
    obtain ⟨hraw, front, behind, hlead, rfl⟩ := stringPair?_eq_some hseen
    obtain ⟨beyond, hs⟩ : ∃ beyond, s = passed ++
        (front ++ '"' :: (seen.value.specifier ++ '"' :: behind)) ++ beyond := by
      rw [← hinside, List.drop_take]
      exact ⟨_, (List.take_append_drop _ _).symm⟩
    have hbrace : '\x7b'.utf8Size = 1 := rfl
    refine ⟨seen.value.specifier, hraw, htext, u ++ '\x7b' :: (passed ++ front), behind ++ beyond,
      ?_, ?_, ?_⟩
    · simp [hs]
    · simp [Occurrence.toMatch, hlead, hbrace]
      omega
    · simp [Occurrence.toMatch, hlead, hbrace]
      omega

/-- A match of a manifest stands for a string in its text. -/
theorem exists_writes_of_mem_scanManifest (hm : m ∈ scanManifest s) : ∃ raw, m.Writes raw s := by
  obtain ⟨⟨offset, lead, text⟩, hblock, hm⟩ := List.mem_flatMap.1 hm
  obtain ⟨passed, behind, last, seen, rfl, -, hseen, heq⟩ := mem_searchFrom hblock
  obtain ⟨rfl, hvalue⟩ := Prod.mk.inj heq
  obtain ⟨rfl, rfl⟩ := Prod.mk.inj hvalue
  obtain ⟨hbehind, inside, hinside⟩ := blockStart?_eq_some hseen
  rw [hinside] at hm hbehind
  rw [hbehind, ← List.append_assoc]
  refine writes_of_mem_blockMatches ?_
  simpa [Nat.add_assoc] using hm

end Vendoring.Scan
