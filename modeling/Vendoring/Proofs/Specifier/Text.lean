/-
# The paths that specifiers name

A specifier that is read as absolute starts at the root, and the path that it
names inside a package consists of pieces of its text. So where the text has no
step up, neither has that path. The name of a package that is read off a text is one
piece, or a scope with one piece behind it.
-/

import Mathlib.Data.List.TakeDrop
import Mathlib.Data.List.TakeWhile
import Vendoring.Proofs.Path.Components
import Vendoring.Specifier

namespace Vendoring

open Text

namespace Text

variable {sep : Char} {part s u : List Char}

theorem mem_splitOn_append_sep : part ∈ splitOn sep (s ++ sep :: u) ↔
    part ∈ splitOn sep s ∨ part ∈ splitOn sep u := by
  rw [splitOn_append_sep, List.mem_append]

/-- Separators at the front only add empty parts. -/
theorem mem_splitOn_of_dropWhile (h : part ∈ splitOn sep (s.dropWhile (· = sep))) :
    part ∈ splitOn sep s := by
  induction s with
  | nil => exact h
  | cons c cs ih =>
    by_cases hc : c = sep
    · rw [List.dropWhile_cons_of_pos (by simp [hc])] at h
      rw [splitOn, if_pos hc]
      exact List.mem_cons_of_mem _ (ih h)
    · rwa [List.dropWhile_cons_of_neg (by simp [hc])] at h

/-- A character outside the class stays in front. -/
theorem dropEndWhile_cons {p : Char → Bool} {c : Char} (hc : p c = false) :
    dropEndWhile p (c :: s) = c :: dropEndWhile p s := by
  rw [dropEndWhile, List.reverse_cons, List.dropWhile_append]
  split
  · next hall =>
    rw [dropEndWhile, List.dropWhile_cons_of_neg (by simp [hc]), List.isEmpty_iff.1 hall]
    rfl
  · rw [List.reverse_append]
    rfl

/-- Separators at the end only add empty parts. -/
theorem mem_splitOn_of_dropEndWhile (h : part ∈ splitOn sep (dropEndWhile (· = sep) s)) :
    part ∈ splitOn sep s := by
  have hs : s = dropEndWhile (· = sep) s ++ (s.reverse.takeWhile (· = sep)).reverse := by
    rw [dropEndWhile, ← List.reverse_append, List.takeWhile_append_dropWhile, List.reverse_reverse]
  have htail : ∀ c ∈ (s.reverse.takeWhile (· = sep)).reverse, c = sep := fun c hc => by
    simpa using List.mem_takeWhile_imp (List.mem_reverse.1 hc)
  rw [hs]
  cases ht : (s.reverse.takeWhile (· = sep)).reverse with
  | nil => simpa using h
  | cons c cs =>
    rw [ht] at htail
    rw [htail c (by simp), mem_splitOn_append_sep]
    exact .inl h

end Text

namespace Specifier

variable {raw name sub path : String} {s first rest part : List Char}

theorem cutAtSlash_eq_some (h : cutAtSlash s = (first, some rest)) : s = first ++ '/' :: rest := by
  unfold cutAtSlash at h
  rw [List.span_eq_takeWhile_dropWhile] at h
  cases hdrop : s.dropWhile (· ≠ '/') with
  | nil =>
    rw [hdrop] at h
    simp at h
  | cons c cs =>
    rw [hdrop] at h
    obtain ⟨rfl, hrest⟩ := Prod.mk.inj h
    obtain rfl := Option.some.inj hrest
    have hc := List.head?_dropWhile_not (fun c => decide (c ≠ '/')) s
    rw [hdrop] at hc
    have hc : c = '/' := by simpa using hc
    have hs := List.takeWhile_append_dropWhile (p := fun c => decide (c ≠ '/')) (l := s)
    rw [hdrop, hc] at hs
    exact hs.symm

theorem mem_splitOn_of_subpathOf (h : subpathOf s = some sub) (hpart : part ∈ splitOn '/' sub.toList) :
    part ∈ splitOn '/' s := by
  unfold subpathOf at h
  split at h
  · simp at h
  · obtain rfl := Option.some.inj h
    rw [String.toList_ofList] at hpart
    exact mem_splitOn_of_dropEndWhile hpart

theorem isAbsolute_of_parse (h : parse raw = .absolute path) :
    (⟨path⟩ : Path).isAbsolute = true := by
  simp only [parse] at h
  split at h
  · simp at h
  · split at h
    · next hhead =>
      obtain rfl := Specifier.absolute.inj h
      rw [Path.isAbsolute, String.toList_ofList, hhead]
      rfl
    · split at h
      · simp at h
      · unfold ofPackageText at h
        split at h
        split at h
        · split at h
          · simp at h
          · simp at h
          · split at h <;> simp at h
        · simp at h

/-- An absolute path is read as absolute. -/
theorem exists_parse_eq_absolute (h : (⟨raw⟩ : Path).isAbsolute = true) :
    ∃ path, parse raw = .absolute path := by
  rw [Path.isAbsolute, decide_eq_true_eq] at h
  obtain ⟨rest, hraw⟩ : ∃ rest, raw.toList = '/' :: rest := by
    cases hlist : raw.toList with
    | nil => simp [hlist] at h
    | cons c rest =>
      rw [hlist, List.head?_cons, Option.some.injEq] at h
      exact ⟨rest, by rw [h]⟩
  have hhead : (clean raw).head? = some '/' := by
    rw [clean, trim, String.toList_ofList, hraw, List.dropWhile_cons_of_neg (by decide),
      dropEndWhile_cons (by decide), List.map_cons, List.head?_cons, if_neg (by decide)]
  have hne : clean raw ≠ [] := by
    rintro hnil
    simp [hnil] at hhead
  exact ⟨String.ofList (clean raw), by simp only [parse, if_neg hne, if_pos hhead]⟩

theorem parse_of_subpath? (h : (parse raw).subpath? = some sub) :
    parse raw = ofPackageText (clean raw) := by
  simp only [parse] at h ⊢
  split at h
  · simp [subpath?] at h
  · rw [if_neg ‹_›]
    split at h
    · simp [subpath?] at h
    · rw [if_neg ‹_›]
      split at h
      · simp [subpath?] at h
      · rw [if_neg ‹_›]

/-- A path inside a package stands behind the name of the package and a slash. -/
theorem exists_of_subpath? (h : (ofPackageText s).subpath? = some sub) :
    ∃ name rest, (ofPackageText s).packageName? = some (String.ofList name) ∧
      s = name ++ '/' :: rest ∧
      ∀ part ∈ splitOn '/' sub.toList, part ∈ splitOn '/' rest := by
  rcases hcut : cutAtSlash s with ⟨first, behind⟩
  simp only [ofPackageText, hcut] at h ⊢
  split at h
  · next hscope =>
    rw [if_pos hscope]
    split at h
    · simp [subpath?] at h
    · simp [subpath?] at h
    · next second tail _ hsecond =>
      split at h
      · simp [subpath?] at h
      · next hlength =>
        obtain ⟨rest, rfl, hcut'⟩ := Option.map_eq_some_iff.1 hsecond
        obtain ⟨tail, rfl, hsub⟩ := Option.bind_eq_some_iff.1 h
        refine ⟨first ++ '/' :: second, tail, ?_, ?_, fun part => mem_splitOn_of_subpathOf hsub⟩
        · simp [hlength, packageName?]
        · rw [cutAtSlash_eq_some hcut, cutAtSlash_eq_some hcut']
          simp
  · next hscope =>
    obtain ⟨rest, rfl, hsub⟩ := Option.bind_eq_some_iff.1 h
    rw [if_neg hscope]
    exact ⟨first, rest, rfl, cutAtSlash_eq_some hcut, fun part hpart =>
      mem_splitOn_of_dropWhile (mem_splitOn_of_subpathOf hsub hpart)⟩

/-- The path inside a package consists of pieces of the specifier's text. -/
theorem mem_splitOn_of_subpath? (h : (parse raw).subpath? = some sub)
    (hpart : part ∈ splitOn '/' sub.toList) : part ∈ splitOn '/' (clean raw) := by
  rw [parse_of_subpath? h] at h
  obtain ⟨name, rest, -, hclean, hparts⟩ := exists_of_subpath? h
  rw [hclean, mem_splitOn_append_sep]
  exact .inr (hparts part hpart)

theorem length_clean_le (raw : String) : (clean raw).length ≤ raw.toList.length := by
  rw [clean, List.length_map, trim, String.toList_ofList, dropEndWhile, List.length_reverse]
  refine (List.dropWhile_sublist _).length_le.trans ?_
  rw [List.length_reverse]
  exact (List.dropWhile_sublist _).length_le

/-- The bare name of a package names no path inside it. -/
theorem subpath?_eq_none (h : (parse raw).packageName? = some raw) :
    (parse raw).subpath? = none := by
  by_contra hne
  obtain ⟨sub, hsub⟩ := Option.ne_none_iff_exists'.1 hne
  have hparse := parse_of_subpath? hsub
  rw [hparse] at h hsub
  obtain ⟨name, rest, hname, hclean, -⟩ := exists_of_subpath? hsub
  have htext : name = raw.toList := by
    rw [← Option.some.inj (hname.symm.trans h), String.toList_ofList]
  have hlength := congrArg List.length hclean
  have hle := length_clean_le raw
  simp only [htext, List.length_append, List.length_cons] at hlength
  omega

/-- What names a package and nothing inside it is the package of a scope or of none. -/
theorem eq_of_subpath?_eq_none {s : Specifier} {name : String} (hname : s.packageName? = some name)
    (hsub : s.subpath? = none) : s = .inScope name none ∨ s = .plain name none := by
  cases s with
  | inScope _ _ =>
    obtain rfl := Option.some.inj hname
    obtain rfl := hsub
    exact .inl rfl
  | plain _ _ =>
    obtain rfl := Option.some.inj hname
    obtain rfl := hsub
    exact .inr rfl
  | relative _ | absolute _ | empty => cases hname

theorem cutAtSlash_fst (s : List Char) : (cutAtSlash s).1 = s.takeWhile fun c => c ≠ '/' := by
  unfold cutAtSlash
  rw [List.span_eq_takeWhile_dropWhile]
  split
  · next heq => exact (Prod.mk.inj heq).1.symm
  · next heq => exact (Prod.mk.inj heq).1.symm

theorem not_slash_of_cutAtSlash {behind : Option (List Char)}
    (h : cutAtSlash s = (first, behind)) : '/' ∉ first := by
  have hfirst : first = _ := (congrArg Prod.fst h).symm.trans (cutAtSlash_fst s)
  rintro hmem
  rw [hfirst] at hmem
  simpa using List.mem_takeWhile_imp hmem

/-- Without a slash behind it, the first piece is the text. -/
theorem cutAtSlash_eq_none (h : cutAtSlash s = (first, none)) : s = first := by
  have hfirst : first = _ := (congrArg Prod.fst h).symm.trans (cutAtSlash_fst s)
  unfold cutAtSlash at h
  rw [List.span_eq_takeWhile_dropWhile] at h
  split at h
  · next heq =>
    obtain ⟨-, hdrop⟩ := Prod.mk.inj heq
    have hs := List.takeWhile_append_dropWhile (p := fun c => decide (c ≠ '/')) (l := s)
    rw [hdrop, List.append_nil, ← hfirst] at hs
    exact hs.symm
  · simp at h

/-- The first piece of a text that is no step is no step either. -/
theorem isStep_of_cutAtSlash {behind : Option (List Char)} (h : cutAtSlash s = (first, behind))
    (hfirst : first = ['.'] ∨ first = ['.', '.']) : isStep s = true := by
  cases behind with
  | none =>
    obtain rfl := cutAtSlash_eq_none h
    rcases hfirst with rfl | rfl <;> rfl
  | some rest =>
    rw [cutAtSlash_eq_some h]
    rcases hfirst with rfl | rfl <;> rfl

/-- A specifier that names a package is neither a step nor a path from the root. -/
theorem parse_of_packageName? (h : (parse raw).packageName? = some name) :
    parse raw = ofPackageText (clean raw) ∧ clean raw ≠ [] ∧ (clean raw).head? ≠ some '/' ∧
      isStep (clean raw) = false := by
  simp only [parse] at h ⊢
  split at h
  · simp [packageName?] at h
  · split at h
    · simp [packageName?] at h
    · split at h
      · simp [packageName?] at h
      · simp_all

/-- The name of a package is one piece, or a scope with a piece behind it. -/
theorem exists_pieces_of_named (h : (parse raw).packageName? = some name) :
    ('/' ∉ name.toList ∧ Path.isPadding name.toList = false ∧ name ≠ "..") ∨
      ∃ scope inner : String, name = scope ++ "/" ++ inner ∧ scope.toList.head? = some '@' ∧
        '/' ∉ scope.toList ∧ '/' ∉ inner.toList := by
  obtain ⟨hparse, hne, hhead, hstep⟩ := parse_of_packageName? h
  rw [hparse] at h
  rcases hcut : cutAtSlash (clean raw) with ⟨first, behind⟩
  have hslash := not_slash_of_cutAtSlash hcut
  simp only [ofPackageText, hcut] at h
  split at h
  · next hscope =>
    split at h
    · simp [packageName?] at h
    · simp [packageName?] at h
    · next second tail hsecond heq =>
      split at h
      · simp [packageName?] at h
      · obtain ⟨rest, -, hcut'⟩ := Option.map_eq_some_iff.1 heq
        refine .inr ⟨String.ofList first, String.ofList second, ?_, by simpa, by simpa,
          by simpa using not_slash_of_cutAtSlash hcut'⟩
        rw [← Option.some.inj h]
        exact String.toList_injective (by simp)
  · obtain rfl : String.ofList first = name := Option.some.inj h
    refine .inl ⟨by simpa using hslash, ?_, fun hup => ?_⟩
    · rw [String.toList_ofList, Path.isPadding, Bool.or_eq_false_iff]
      constructor
      · rw [decide_eq_false_iff_not]
        rintro rfl
        cases behind with
        | none => exact hne (cutAtSlash_eq_none hcut)
        | some rest => exact hhead (by rw [cutAtSlash_eq_some hcut]; rfl)
      · rw [decide_eq_false_iff_not]
        exact fun hdot => absurd (isStep_of_cutAtSlash hcut (.inl hdot)) (by simp [hstep])
    · have hdots : first = ['.', '.'] := by
        rw [← String.toList_ofList (l := first), hup]
        rfl
      exact absurd (isStep_of_cutAtSlash hcut (.inr hdots)) (by simp [hstep])

end Specifier

end Vendoring
