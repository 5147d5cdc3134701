/-
# Forms that are found

A form that is seen somewhere is found there, unless the search has gone into another form
that reaches further. A key of declarations reaches into no other one. A key and a value of a
document are seen as a pair if both are strings: whatever their escapes are, the search and
the reader of the document take the same quotes for their ends.
-/

import Vendoring.Proofs.Json.Members

namespace Vendoring.Scan

open Text
open Json (IsWritten isSpace)

variable {s u rest raw : List Char} {offset : Nat} {before : Option Char}

/-! ## How a search comes to a form -/

section Search

variable {α : Type} {recognise : Option Char → List Char → Option (Seen α)}

/-- What a search has passed over counts by its bytes only. -/
theorem exists_searchFrom_skip (front : List Char) :
    ∃ last, searchFrom recognise front.length before offset (front ++ s) =
      searchFrom recognise 0 last (offset + byteLength front) s := by
  induction front generalizing before offset with
  | nil => exact ⟨before, rfl⟩
  | cons c front ih =>
    obtain ⟨last, h⟩ := @ih (offset + c.utf8Size) (some c)
    exact ⟨last, by rw [List.length_cons, List.cons_append, searchFrom, h, byteLength_cons,
      Nat.add_assoc]⟩

/-- A search goes on over characters that start no form. -/
theorem exists_searchFrom_none {front : List Char}
    (h : ∀ c ∈ front, ∀ before rest, recognise before (c :: rest) = none) :
    ∃ last, searchFrom recognise 0 before offset (front ++ s) =
      searchFrom recognise 0 last (offset + byteLength front) s := by
  induction front generalizing before offset with
  | nil => exact ⟨before, rfl⟩
  | cons c front ih =>
    obtain ⟨last, hrest⟩ := @ih (offset + c.utf8Size) (some c)
      fun d hd => h d (List.mem_cons_of_mem c hd)
    refine ⟨last, ?_⟩
    rw [List.cons_append, searchFrom]
    simp only [h c List.mem_cons_self]
    rw [hrest, byteLength_cons, Nat.add_assoc]

/-- A form that is seen is found, and the search goes on behind it. -/
theorem exists_searchFrom_seen {front : List Char} {seen : Seen α}
    (h : recognise before (front ++ s) = some seen) (hsize : front.length = seen.size)
    (hpos : front ≠ []) :
    ∃ last, searchFrom recognise 0 before offset (front ++ s) =
      (offset, seen.value) ::
        searchFrom recognise 0 last (offset + byteLength front) s := by
  cases front with
  | nil => exact absurd rfl hpos
  | cons c front =>
    obtain ⟨last, hrest⟩ := @exists_searchFrom_skip s (offset + c.utf8Size) (some c) α
      recognise front
    refine ⟨last, ?_⟩
    rw [List.cons_append] at h ⊢
    rw [searchFrom]
    simp only [h, ← hsize, List.length_cons, Nat.add_sub_cancel]
    rw [hrest, byteLength_cons, Nat.add_assoc]

/-- A form is found wherever it stands, if no other form reaches into it. -/
theorem mem_searchFrom_of_apart {front behind : List Char} {seen : Seen α} {skip : Nat}
    (hseen : ∀ before, recognise before behind = some seen) (hbehind : behind ≠ [])
    (hapart : ∀ before passed other, passed ≠ [] →
      recognise before (passed ++ behind) = some other → other.size ≤ passed.length)
    (hskip : skip ≤ front.length) :
    (offset + byteLength front, seen.value) ∈
      searchFrom recognise skip before offset (front ++ behind) := by
  induction front generalizing skip before offset with
  | nil =>
    obtain ⟨c, rest, rfl⟩ := List.exists_cons_of_ne_nil hbehind
    obtain rfl : skip = 0 := Nat.le_zero.1 hskip
    rw [List.nil_append, searchFrom]
    simp only [hseen]
    exact List.mem_cons_self
  | cons c front ih =>
    rw [byteLength_cons, ← Nat.add_assoc, List.cons_append]
    cases skip with
    | succ skip =>
      rw [searchFrom]
      exact ih (Nat.le_of_succ_le_succ hskip)
    | zero =>
      rw [searchFrom]
      split
      · next other hother =>
        have hle := hapart before (c :: front) other (List.cons_ne_nil _ _) hother
        rw [List.length_cons] at hle
        exact List.mem_cons_of_mem _ (ih (by omega))
      · exact ih (Nat.zero_le _)

end Search

/-! ## Strings and white space -/

theorem behind?_append (start rest : List Char) : behind? start (start ++ rest) = some rest := by
  have hstart : start.isPrefixOf (start ++ rest) = true :=
    List.isPrefixOf_iff_prefix.2 (List.prefix_append _ _)
  simp [behind?, hstart]

/-- White space of a document is white space for the search. -/
theorem isBlank_of_isSpace {c : Char} (h : isSpace c = true) : isBlank c = true := by
  simp only [isSpace, Bool.or_eq_true, decide_eq_true_eq] at h
  obtain ((rfl | rfl) | rfl) | rfl := h <;> rfl

theorem dropWhile_isBlank_space {gap : List Char} (hgap : gap.all isSpace = true) {c : Char}
    (hc : isBlank c = false) : (gap ++ c :: rest).dropWhile isBlank = c :: rest :=
  dropWhile_isBlank_append
    (List.all_eq_true.2 fun d hd => isBlank_of_isSpace (List.all_eq_true.1 hgap d hd))
    (by simp [hc])

theorem behindColon?_space {gap gap' : List Char} (hgap : gap.all isSpace = true)
    (hgap' : gap'.all isSpace = true) {c : Char} (hc : isBlank c = false) :
    behindColon? (gap ++ ':' :: (gap' ++ c :: rest)) = some (c :: rest) := by
  have hcolon : behind? [':'] (':' :: (gap' ++ c :: rest)) = some (gap' ++ c :: rest) :=
    behind?_append [':'] _
  rw [behindColon?, dropWhile_isBlank_space hgap (by decide), hcolon, Option.map_some,
    dropWhile_isBlank_space hgap' hc]

theorem rawString?_quote (rest : List Char) : rawString? ('"' :: rest) = some [] := by
  rw [rawString?.eq_def]
  rfl

theorem rawString?_char {c : Char} (hquote : c ≠ '"') (hescape : c ≠ '\\') (rest : List Char) :
    rawString? (c :: rest) = (rawString? rest).map (c :: ·) := by
  rw [rawString?.eq_def]
  simp only [if_neg hquote, if_neg hescape]

theorem rawString?_escape {c : Char} (hc : c ≠ '\n') (rest : List Char) :
    rawString? ('\\' :: c :: rest) = (rawString? rest).map ('\\' :: c :: ·) := by
  rw [rawString?.eq_def]
  simp [hc]

/-- A string of a document is a string for the search, too. -/
theorem exists_rawString? {pieces : List Json.StringPiece}
    (h : Json.lexString s = some (pieces, rest)) : ∃ raw, rawString? s = some raw := by
  fun_induction Json.lexString s generalizing pieces rest with
  | case1 => simp at h
  | case2 left => exact ⟨[], rawString?_quote left⟩
  | case3 => simp at h
  | case4 h₁ h₂ h₃ h₄ left _ ih =>
    obtain ⟨n, hunit, hmap⟩ := Option.bind_eq_some_iff.1 h
    obtain ⟨⟨more, left'⟩, hmore, -⟩ := Option.map_eq_some_iff.1 hmap
    obtain ⟨raw, hraw⟩ := ih hmore
    simp only [Json.hexUnit?, Option.pure_def, Option.bind_eq_bind,
      Option.bind_eq_some_iff] at hunit
    obtain ⟨_, ha, _, hb, _, hc, _, hd, -⟩ := hunit
    have hdigit {c : Char} {n : Nat} (h : Json.hexValue? c = some n) (rest : List Char) :
        rawString? (c :: rest) = (rawString? rest).map (c :: ·) :=
      rawString?_char (Json.hexValue?_eq_some h).1 (Json.hexValue?_eq_some h).2 rest
    rw [rawString?_escape (by decide), hdigit ha, hdigit hb, hdigit hc, hdigit hd, hraw]
    exact ⟨_, rfl⟩
  | case5 => simp at h
  | case6 e left _ _ ih =>
    obtain ⟨d, hescaped, hmap⟩ := Option.bind_eq_some_iff.1 h
    obtain ⟨⟨more, left'⟩, hmore, -⟩ := Option.map_eq_some_iff.1 hmap
    obtain ⟨raw, hraw⟩ := ih hmore
    have he : e ≠ '\n' := by
      rintro rfl
      simp [Json.escaped?] at hescaped
    rw [rawString?_escape he, hraw]
    exact ⟨_, rfl⟩
  | case7 => simp at h
  | case8 c left hquote hescape _ ih =>
    obtain ⟨⟨more, left'⟩, hmore, -⟩ := Option.map_eq_some_iff.1 h
    obtain ⟨raw, hraw⟩ := ih hmore
    rw [rawString?_char hquote hescape, hraw]
    exact ⟨_, rfl⟩

theorem rawString?_of_isWritten {text : String} (h : IsWritten raw text) (rest : List Char) :
    rawString? (raw ++ '"' :: rest) = some raw := by
  obtain ⟨⟨pieces, left⟩, hlex, -⟩ := Option.bind_eq_some_iff.1 (h rest)
  obtain ⟨raw', hraw'⟩ := exists_rawString? hlex
  obtain ⟨hopen, left', heq⟩ := rawString?_eq_some hraw'
  rw [hraw', (h.isRaw.unique hopen heq).1]

/-! ## Seeing the forms -/

/-- A key that is written between quotes, and a colon with white space around it. -/
def keyText (key gap gap' : List Char) : List Char :=
  '"' :: (key ++ '"' :: (gap ++ ':' :: gap'))

theorem keyText_append (key gap gap' u : List Char) :
    keyText key gap gap' ++ u = '"' :: (key ++ '"' :: (gap ++ ':' :: (gap' ++ u))) := by
  simp [keyText]

section Forms

variable {gap gap' : List Char} (hgap : gap.all isSpace = true) (hgap' : gap'.all isSpace = true)
include hgap hgap'

/-- A member that is a string is seen as a pair. -/
theorem stringPair?_of_isWritten {key text : String} {raw' : List Char} (hkey : IsWritten raw key)
    (htext : IsWritten raw' text) (before : Option Char) (rest : List Char) :
    stringPair? before (keyText raw gap gap' ++ '"' :: (raw' ++ '"' :: rest)) =
      some ⟨(keyText raw gap gap' ++ ['"']).length + raw'.length + 1,
        keyText raw gap gap' ++ ['"'], raw'⟩ := by
  have hopen (u : List Char) : behind? ['"'] ('"' :: u) = some u := behind?_append ['"'] u
  have hkeyText : behind? ['"'] (keyText raw gap gap' ++ '"' :: (raw' ++ '"' :: rest)) =
      some (raw ++ '"' :: (gap ++ ':' :: (gap' ++ '"' :: (raw' ++ '"' :: rest)))) := by
    rw [keyText_append]
    apply hopen
  have hdrop (u : List Char) : (raw ++ '"' :: u).drop (raw.length + 1) = u := by
    rw [← List.drop_drop, List.drop_left]
    rfl
  have hlead : (keyText raw gap gap' ++ '"' :: (raw' ++ '"' :: rest)).take
      ((keyText raw gap gap' ++ '"' :: (raw' ++ '"' :: rest)).length -
        (raw' ++ '"' :: rest).length) = keyText raw gap gap' ++ ['"'] := by
    rw [← List.singleton_append, ← List.append_assoc, List.length_append, Nat.add_sub_cancel,
      List.take_left]
  unfold stringPair?
  simp only [hkeyText, hopen, Option.pure_def, Option.bind_eq_bind, Option.bind_some,
    rawString?_of_isWritten hkey, hdrop, rawString?_of_isWritten htext, hlead,
    behindColon?_space hgap hgap' (by decide : isBlank '"' = false)]

/-- The key of a block of declarations is seen with the brace behind it. -/
theorem blockStart?_of_space (before : Option Char) (inside : List Char) :
    blockStart? before (keyText componentsKey.toList gap gap' ++ '\x7b' :: inside) =
      some ⟨(keyText componentsKey.toList gap gap').length + 1,
        keyText componentsKey.toList gap gap', '\x7b' :: inside⟩ := by
  have hkey : behind? ('"' :: componentsKey.toList ++ ['"'])
      (keyText componentsKey.toList gap gap' ++ '\x7b' :: inside) =
        some (gap ++ ':' :: (gap' ++ '\x7b' :: inside)) := by
    simpa [keyText] using behind?_append ('"' :: componentsKey.toList ++ ['"'])
      (gap ++ ':' :: (gap' ++ '\x7b' :: inside))
  have hbrace : behind? ['\x7b'] ('\x7b' :: inside) = some inside := behind?_append ['\x7b'] inside
  unfold blockStart?
  simp only [hkey, hbrace, behindColon?_space hgap hgap' (by decide : isBlank '\x7b' = false),
    Option.pure_def, Option.bind_eq_bind, Option.bind_some, List.length_append, List.length_cons,
    Nat.add_sub_cancel, List.take_left]
  rw [Nat.add_comm inside.length, ← Nat.add_assoc, Nat.add_sub_cancel]

end Forms

theorem behindColon?_blanks (h : behindColon? s = some rest) :
    ∃ gap gap', gap.all isBlank = true ∧ gap'.all isBlank = true ∧
      s = gap ++ ':' :: (gap' ++ rest) := by
  obtain ⟨behind, hbehind, rfl⟩ := Option.map_eq_some_iff.1 h
  obtain ⟨gap, hgap, hs⟩ := exists_blanks s
  obtain ⟨gap', hgap', hrest⟩ := exists_blanks behind
  refine ⟨gap, gap', hgap, hgap', ?_⟩
  rw [← hrest, ← List.singleton_append, ← behind?_eq_some hbehind]
  exact hs

theorem keyText_of_blockStart? {seen : Seen (List Char × List Char)}
    (h : blockStart? before s = some seen) :
    ∃ gap gap' inside, gap.all isBlank = true ∧ gap'.all isBlank = true ∧
      s = keyText componentsKey.toList gap gap' ++ '\x7b' :: inside ∧
      seen.size = (keyText componentsKey.toList gap gap').length + 1 := by
  unfold blockStart? at h
  simp only [Option.pure_def, Option.bind_eq_bind, Option.bind_eq_some_iff, Option.some.injEq] at h
  obtain ⟨behind, hbehind, opening, hopening, inside, hinside, rfl⟩ := h
  obtain ⟨gap, gap', hgap, hgap', rfl⟩ := behindColon?_blanks hopening
  obtain rfl := behind?_eq_some hinside
  have hs : s = keyText componentsKey.toList gap gap' ++ '\x7b' :: inside := by
    simpa [keyText] using behind?_eq_some hbehind
  refine ⟨gap, gap', inside, hgap, hgap', hs, ?_⟩
  rw [hs, List.length_append, List.length_cons]
  show _ + (inside.length + 1) - inside.length = _
  rw [← Nat.add_assoc, Nat.add_right_comm, Nat.add_sub_cancel]

theorem prefix_of_not_mem {a v w : List Char} {c : Char} (h : u ++ v = a ++ c :: w) (hc : c ∉ u) :
    u <+: a := by
  rcases List.append_eq_append_iff.1 h with ⟨more, rfl, -⟩ | ⟨more, rfl, hmore⟩
  · exact List.prefix_append _ _
  · cases more with
    | nil => simp
    | cons d more =>
      obtain ⟨rfl, -⟩ := List.cons.inj hmore
      exact absurd (List.mem_append_right _ List.mem_cons_self) hc

/-- No block of declarations reaches into another one: a quote that starts a form of its own
would have to be the second quote of the key, and no letter stands behind that one. -/
theorem size_le_of_blockStart? {passed : List Char} {seen : Seen (List Char × List Char)}
    (hpassed : passed ≠ []) (h : blockStart? before (passed ++ '"' :: 'u' :: u) = some seen) :
    seen.size ≤ passed.length := by
  obtain ⟨gap, gap', inside, hgap, hgap', hs, hsize⟩ := keyText_of_blockStart? h
  obtain ⟨first, passed, rfl⟩ := List.exists_cons_of_ne_nil hpassed
  have hblank {gap : List Char} (hgap : gap.all isBlank = true) {c : Char} (hc : c ∈ gap) :
      isBlank c = true := List.all_eq_true.1 hgap c hc
  rw [keyText_append] at hs
  -- behind its first quote the key has no other one
  have hkey : componentsKey.toList <+: passed :=
    prefix_of_not_mem (List.cons.inj hs).2.symm (by decide +kernel)
  obtain ⟨passed, rfl⟩ := hkey
  have hquote : passed ++ '"' :: 'u' :: u = '"' :: (gap ++ ':' :: (gap' ++ '\x7b' :: inside)) := by
    have hkey : componentsKey.toList ++ (passed ++ '"' :: 'u' :: u) =
        componentsKey.toList ++ '"' :: (gap ++ ':' :: (gap' ++ '\x7b' :: inside)) := by
      simpa using (List.cons.inj hs).2
    exact List.append_cancel_left hkey
  cases passed with
  | nil =>
    have hcolon : 'u' :: u = gap ++ ':' :: (gap' ++ '\x7b' :: inside) := (List.cons.inj hquote).2
    cases gap with
    | nil => exact absurd (List.cons.inj hcolon).1 (by decide)
    | cons d gap =>
      obtain ⟨rfl, -⟩ := List.cons.inj hcolon
      exact absurd (hblank hgap List.mem_cons_self) (by decide)
  | cons d passed =>
    have hbehind : (gap ++ ':' :: (gap' ++ ['\x7b'])) ++ inside = passed ++ '"' :: 'u' :: u := by
      simpa using (List.cons.inj hquote).2.symm
    have hle := (prefix_of_not_mem hbehind (by
      simp only [List.mem_append, List.mem_cons, List.not_mem_nil, or_false, not_or]
      exact ⟨fun hc => absurd (hblank hgap hc) (by decide), by decide,
        fun hc => absurd (hblank hgap' hc) (by decide), by decide⟩)).length_le
    rw [hsize]
    simp only [keyText, List.length_cons, List.length_append, List.length_nil] at hle ⊢
    omega

/-- A block of declarations is found wherever it starts. -/
theorem mem_search_blockStart? {gap gap' : List Char} (hgap : gap.all isSpace = true)
    (hgap' : gap'.all isSpace = true) (front inside : List Char) :
    (byteLength front, keyText componentsKey.toList gap gap', '\x7b' :: inside) ∈
      search blockStart?
        (front ++ (keyText componentsKey.toList gap gap' ++ '\x7b' :: inside)) := by
  obtain ⟨u, hu⟩ : ∃ u, keyText componentsKey.toList gap gap' ++ '\x7b' :: inside =
      '"' :: 'u' :: u := ⟨_, rfl⟩
  have hseen (before : Option Char) := blockStart?_of_space hgap hgap' before inside
  rw [hu] at hseen ⊢
  rw [← Nat.zero_add (byteLength front)]
  exact mem_searchFrom_of_apart hseen (List.cons_ne_nil _ _)
    (fun _ _ _ => size_le_of_blockStart?) (Nat.zero_le _)

end Vendoring.Scan
