/-
# Paths inside packages

The path inside a package is cut off behind the name of the package. It has text and does
not end in a slash, and behind the name and one slash it is read as the same specifier
again. Behind a name of one segment it starts with no slash either, so it leads from every
directory to a place in that directory. A scoped name is cut at the slash behind its second
segment and nowhere else: a further slash there is kept in front of the path, which then
starts at the root and leads out of the package.
-/

import Mathlib.Data.List.Induction
import Vendoring.Proofs.Specifier.Text

namespace Vendoring

open Text

namespace Text

variable {p : Char → Bool} {s : List Char}

theorem isPrefix_dropEndWhile (p : Char → Bool) (s : List Char) : dropEndWhile p s <+: s := by
  rw [dropEndWhile, ← List.reverse_suffix, List.reverse_reverse]
  exact List.dropWhile_suffix p

/-- What is left does not end in a character of the class. -/
theorem getLast?_dropEndWhile {c : Char} (h : (dropEndWhile p s).getLast? = some c) :
    p c = false := by
  rw [dropEndWhile, List.getLast?_reverse] at h
  have hhead := List.head?_dropWhile_not p s.reverse
  rwa [h] at hhead

/-- A text that does not end in a character of the class is left as it is. -/
theorem dropEndWhile_of_getLast? (h : ∀ c ∈ s.getLast?, p c = false) : dropEndWhile p s = s := by
  cases s using List.reverseRecOn with
  | nil => rfl
  | append_singleton front c =>
    have hc : p c = false := h c (by simp)
    rw [dropEndWhile, List.reverse_append, List.reverse_singleton, List.singleton_append,
      List.dropWhile_cons_of_neg (by simp [hc])]
    simp

end Text

namespace Specifier

variable {raw name sub : String} {s first second rest tail : List Char}

/-! ## Cutting off a path -/

theorem subpathOf_eq_some (h : subpathOf s = some sub) :
    sub.toList = dropEndWhile (· = '/') s ∧ sub ≠ "" := by
  unfold subpathOf at h
  split at h
  · simp at h
  · next kept hkept =>
    obtain rfl := Option.some.inj h
    refine ⟨String.toList_ofList, fun hempty => hkept ?_⟩
    rw [← String.toList_ofList (l := dropEndWhile _ s), hempty]
    rfl

theorem getLast?_of_subpathOf (h : subpathOf s = some sub) : sub.toList.getLast? ≠ some '/' := by
  rw [(subpathOf_eq_some h).1]
  intro hlast
  simpa using getLast?_dropEndWhile hlast

theorem head?_of_subpathOf (h : subpathOf s = some sub) : sub.toList.head? = s.head? := by
  obtain ⟨hsub, hne⟩ := subpathOf_eq_some h
  obtain ⟨more, hs⟩ := isPrefix_dropEndWhile (· = '/') s
  rw [← hsub] at hs
  have hlist : sub.toList ≠ [] := fun hnil => hne (String.toList_eq_nil_iff.1 hnil)
  obtain ⟨c, cs, hcs⟩ := List.exists_cons_of_ne_nil hlist
  rw [← hs, hcs]
  rfl

/-- A path that was cut off is cut off again as it is. -/
theorem subpathOf_again (h : subpathOf s = some sub) : subpathOf sub.toList = some sub := by
  have hkept : dropEndWhile (· = '/') sub.toList = sub.toList := by
    refine dropEndWhile_of_getLast? fun c hc => decide_eq_false ?_
    rintro rfl
    exact getLast?_of_subpathOf h hc
  have hlist : sub.toList ≠ [] := fun hnil =>
    (subpathOf_eq_some h).2 (String.toList_eq_nil_iff.1 hnil)
  unfold subpathOf
  rw [hkept]
  split
  · contradiction
  · rw [String.ofList_toList]

theorem mem_of_mem_subpathOf (h : subpathOf s = some sub) {c : Char} (hc : c ∈ sub.toList) :
    c ∈ s := by
  rw [(subpathOf_eq_some h).1] at hc
  exact (isPrefix_dropEndWhile _ s).subset hc

/-! ## Names in front of a path -/

theorem cutAtSlash_append (h : '/' ∉ first) :
    cutAtSlash (first ++ '/' :: rest) = (first, some rest) := by
  have hall : ∀ c ∈ first, decide (c ≠ '/') = true := fun c hc =>
    decide_eq_true fun heq => h (heq ▸ hc)
  rw [cutAtSlash, List.span_eq_takeWhile_dropWhile, List.takeWhile_append_of_pos hall,
    List.dropWhile_append_of_pos hall]
  simp

theorem ofPackageText_plain (hslash : '/' ∉ first) (hplain : first.head? ≠ some '@') :
    ofPackageText (first ++ '/' :: rest) =
      plain (String.ofList first) (subpathOf (rest.dropWhile (· = '/'))) := by
  rw [ofPackageText, cutAtSlash_append hslash]
  simp [hplain]

theorem ofPackageText_inScope (hslash : '/' ∉ first) (hscope : first.head? = some '@')
    (hlength : first.length ≠ 1) (hslash' : '/' ∉ second) (hsecond : second ≠ []) :
    ofPackageText (first ++ '/' :: (second ++ '/' :: tail)) =
      inScope (String.ofList (first ++ '/' :: second)) (subpathOf tail) := by
  have hcut : cutAtSlash (second ++ '/' :: tail) = (second, some tail) := cutAtSlash_append hslash'
  obtain ⟨c, cs, rfl⟩ := List.exists_cons_of_ne_nil hsecond
  simp only [ofPackageText, cutAtSlash_append hslash, if_pos hscope, if_neg hlength,
    Option.map_some, hcut, Option.bind_some]

/-- A text that names a package and a path inside it is one of the two forms. -/
theorem forms_of_subpath? (hname : (ofPackageText s).packageName? = some name)
    (hsub : (ofPackageText s).subpath? = some sub) :
    (∃ first rest, s = first ++ '/' :: rest ∧ '/' ∉ first ∧ first.head? ≠ some '@' ∧
        name = String.ofList first ∧ subpathOf (rest.dropWhile (· = '/')) = some sub) ∨
      ∃ first second tail, s = first ++ '/' :: (second ++ '/' :: tail) ∧ '/' ∉ first ∧
        first.head? = some '@' ∧ first.length ≠ 1 ∧ '/' ∉ second ∧ second ≠ [] ∧
        name = String.ofList (first ++ '/' :: second) ∧ subpathOf tail = some sub := by
  rcases hcut : cutAtSlash s with ⟨first, behind⟩
  have hslash := not_slash_of_cutAtSlash hcut
  simp only [ofPackageText, hcut] at hname hsub
  by_cases hscope : first.head? = some '@'
  · rw [if_pos hscope] at hname hsub
    split at hsub
    · simp [subpath?] at hsub
    · simp [subpath?] at hsub
    · next second tail hsecond heq =>
      simp only [heq] at hname
      by_cases hlength : first.length = 1
      · simp [hlength, subpath?] at hsub
      · rw [if_neg hlength] at hname hsub
        obtain ⟨rest, rfl, hcut'⟩ := Option.map_eq_some_iff.1 heq
        obtain ⟨tail, rfl, hsub⟩ := Option.bind_eq_some_iff.1 hsub
        refine .inr ⟨first, second, tail, ?_, hslash, hscope, hlength,
          not_slash_of_cutAtSlash hcut', hsecond, (Option.some.inj hname).symm, hsub⟩
        rw [cutAtSlash_eq_some hcut, cutAtSlash_eq_some hcut']
  · rw [if_neg hscope] at hname hsub
    obtain ⟨rest, rfl, hsub⟩ := Option.bind_eq_some_iff.1 hsub
    exact .inl ⟨first, rest, cutAtSlash_eq_some hcut, hslash, hscope,
      (Option.some.inj hname).symm, hsub⟩

/-! ## Reading the path again -/

/-- A text without white space and backslashes is compared as it is. -/
theorem clean_eq_self (h : ∀ c ∈ raw.toList, isBlank c = false ∧ c ≠ '\\') :
    clean raw = raw.toList := by
  have hfront : raw.toList.dropWhile isBlank = raw.toList := by
    cases hlist : raw.toList with
    | nil => rfl
    | cons c cs => exact List.dropWhile_cons_of_neg (by simp [(h c (by simp [hlist])).1])
  have hend : dropEndWhile isBlank raw.toList = raw.toList :=
    dropEndWhile_of_getLast? fun c hc => (h c (List.mem_of_getLast? hc)).1
  rw [clean, trim, hfront, hend, String.toList_ofList]
  conv_rhs => rw [← List.map_id raw.toList]
  exact List.map_congr_left fun c hc => if_neg (h c hc).2

/-- A text is compared by its own characters, but for its backslashes, which are slashes. -/
theorem mem_of_mem_clean {c : Char} (hc : c ∈ clean raw) : c = '/' ∨ c ∈ raw.toList ∧ c ≠ '\\' := by
  rw [clean, trim, String.toList_ofList] at hc
  obtain ⟨d, hd, rfl⟩ := List.mem_map.1 hc
  have hmem : d ∈ raw.toList :=
    (List.dropWhile_sublist _).mem ((isPrefix_dropEndWhile _ _).subset hd)
  by_cases hback : d = '\\'
  · exact .inl (if_pos hback)
  · rw [if_neg hback]
    exact .inr ⟨hmem, hback⟩

/-- What is compared of a text without white space has neither white space nor
backslashes. -/
theorem plain_of_mem_clean (h : ∀ c ∈ raw.toList, isBlank c = false) {c : Char}
    (hc : c ∈ clean raw) : isBlank c = false ∧ c ≠ '\\' := by
  rcases mem_of_mem_clean hc with rfl | ⟨hmem, hback⟩
  · decide
  · exact ⟨h c hmem, hback⟩

theorem isStep_append_slash (h : '/' ∉ first) (hone : first ≠ ['.']) (htwo : first ≠ ['.', '.']) :
    isStep (first ++ '/' :: rest) = false := by
  -- a step is cut at its first slash behind its dots
  have hcut (dots : List Char) (hdots : '/' ∉ dots) (hne : first ≠ dots) :
      (dots ++ ['/']).isPrefixOf (first ++ '/' :: rest) = false := by
    rw [Bool.eq_false_iff]
    intro hstart
    obtain ⟨more, hmore⟩ := List.isPrefixOf_iff_prefix.1 hstart
    rw [List.append_assoc, List.singleton_append] at hmore
    have hfirst := congrArg cutAtSlash hmore
    rw [cutAtSlash_append hdots, cutAtSlash_append h] at hfirst
    exact hne (Prod.mk.inj hfirst).1.symm
  have hslash (dots : List Char) (hdots : '/' ∉ dots) : first ++ '/' :: rest ≠ dots := by
    rintro rfl
    simp at hdots
  have hone' := hcut ['.'] (by decide) hone
  have htwo' := hcut ['.', '.'] (by decide) htwo
  rw [List.singleton_append] at hone'
  rw [show ['.', '.'] ++ ['/'] = ['.', '.', '/'] from rfl] at htwo'
  simp only [isStep, decide_eq_false (hslash ['.'] (by decide)),
    decide_eq_false (hslash ['.', '.'] (by decide)), hone', htwo', Bool.or_false]

/-- The first piece of a text that names a package is neither empty nor a step. -/
theorem first_of_packageName? (hname : (parse raw).packageName? = some name) (hslash : '/' ∉ first)
    (h : clean raw = first ++ '/' :: rest) : first ≠ [] ∧ first ≠ ['.'] ∧ first ≠ ['.', '.'] := by
  obtain ⟨-, -, hhead, hstep⟩ := parse_of_packageName? hname
  have hcut : cutAtSlash (clean raw) = (first, some rest) := h ▸ cutAtSlash_append hslash
  refine ⟨?_, fun hdot => ?_, fun hdots => ?_⟩
  · rintro rfl
    exact hhead (by rw [h]; rfl)
  · exact absurd (isStep_of_cutAtSlash hcut (.inl hdot)) (by simp [hstep])
  · exact absurd (isStep_of_cutAtSlash hcut (.inr hdots)) (by simp [hstep])

/-- A text with such a first piece is read as the name of a package. -/
theorem parse_of_clean (hslash : '/' ∉ first)
    (hfirst : first ≠ [] ∧ first ≠ ['.'] ∧ first ≠ ['.', '.'])
    (h : clean raw = first ++ '/' :: rest) : parse raw = ofPackageText (first ++ '/' :: rest) := by
  obtain ⟨hne, hone, htwo⟩ := hfirst
  have hhead : (first ++ '/' :: rest).head? ≠ some '/' := by
    obtain ⟨c, cs, rfl⟩ := List.exists_cons_of_ne_nil hne
    rw [List.cons_append, List.head?_cons, Ne, Option.some.injEq]
    rintro rfl
    simp at hslash
  simp only [parse, h]
  rw [if_neg (by simp), if_neg hhead, if_neg (by simp [isStep_append_slash hslash hone htwo])]

/-- The name and the path consist of characters of the text. -/
theorem subset_of_subpath? (hname : (ofPackageText s).packageName? = some name)
    (hsub : (ofPackageText s).subpath? = some sub) : name.toList ++ '/' :: sub.toList ⊆ s := by
  rcases forms_of_subpath? hname hsub with ⟨first, rest, rfl, -, -, rfl, hcut⟩ |
    ⟨first, second, tail, rfl, -, -, -, -, -, rfl, hcut⟩
  · have hrest : sub.toList ⊆ rest := fun c hc =>
      (List.dropWhile_sublist _).mem (mem_of_mem_subpathOf hcut hc)
    rw [String.toList_ofList]
    exact List.append_subset.2 ⟨List.subset_append_left _ _,
      List.Subset.trans (List.cons_subset_cons _ hrest) (List.subset_append_right _ _)⟩
  · have htail : sub.toList ⊆ tail := fun c hc => mem_of_mem_subpathOf hcut hc
    rw [String.toList_ofList, List.append_assoc, List.cons_append]
    refine List.append_subset.2 ⟨List.subset_append_left _ _, ?_⟩
    refine List.Subset.trans (List.cons_subset_cons _ ?_) (List.subset_append_right _ _)
    exact List.append_subset.2 ⟨List.subset_append_left _ _,
      List.Subset.trans (List.cons_subset_cons _ htail) (List.subset_append_right _ _)⟩

/-- The path inside a package is written with slashes and characters of the specifier. -/
theorem mem_of_mem_subpath? (hname : (parse raw).packageName? = some name)
    (hsub : (parse raw).subpath? = some sub) {c : Char} (hc : c ∈ sub.toList) :
    c = '/' ∨ c ∈ raw.toList := by
  have hparse := (parse_of_packageName? hname).1
  rw [hparse] at hname hsub
  have hclean := subset_of_subpath? hname hsub
    (List.mem_append_right _ (List.mem_cons_of_mem _ hc))
  exact (mem_of_mem_clean hclean).imp_right And.left

/-- Behind a name of one segment the path does not start with a slash. -/
theorem head?_of_subpathOf_dropWhile (h : subpathOf (rest.dropWhile (· = '/')) = some sub) :
    sub.toList.head? ≠ some '/' := by
  rw [head?_of_subpathOf h]
  intro hhead
  have hnot := List.head?_dropWhile_not (fun c => decide (c = '/')) rest
  rw [hhead] at hnot
  simp at hnot

/-- A specifier without white space that names a path inside a package is read from the name
and the path again. -/
theorem parse_name_slash_subpath (hblank : ∀ c ∈ raw.toList, isBlank c = false)
    (hname : (parse raw).packageName? = some name) (hsub : (parse raw).subpath? = some sub) :
    parse (name ++ "/" ++ sub) = parse raw := by
  have hparse := (parse_of_packageName? hname).1
  have hclean : clean (name ++ "/" ++ sub) = name.toList ++ '/' :: sub.toList := by
    have htext : (name ++ "/" ++ sub).toList = name.toList ++ '/' :: sub.toList := by simp
    rw [clean_eq_self, htext]
    rw [htext]
    exact fun c hc => plain_of_mem_clean hblank
      (subset_of_subpath? (hparse ▸ hname) (hparse ▸ hsub) hc)
  rcases forms_of_subpath? (hparse ▸ hname) (hparse ▸ hsub) with
    ⟨first, rest, hs, hslash, hscope, rfl, hcut⟩ |
    ⟨first, second, tail, hs, hslash, hscope, hlength, hslash', hsecond, rfl, hcut⟩
  · have hkept : sub.toList.dropWhile (· = '/') = sub.toList := by
      have hhead := head?_of_subpathOf_dropWhile hcut
      cases hlist : sub.toList with
      | nil => rfl
      | cons c cs =>
        rw [hlist, List.head?_cons, Ne, Option.some.injEq] at hhead
        exact List.dropWhile_cons_of_neg (by simpa using hhead)
    rw [String.toList_ofList] at hclean
    rw [parse_of_clean hslash (first_of_packageName? hname hslash hs) hclean, hparse, hs,
      ofPackageText_plain hslash hscope, ofPackageText_plain hslash hscope, hcut, hkept,
      subpathOf_again hcut]
  · rw [String.toList_ofList, List.append_assoc, List.cons_append] at hclean
    rw [parse_of_clean hslash (first_of_packageName? hname hslash hs) hclean, hparse, hs,
      ofPackageText_inScope hslash hscope hlength hslash' hsecond,
      ofPackageText_inScope hslash hscope hlength hslash' hsecond, hcut, subpathOf_again hcut]

/-! ## Where the path leads -/

variable (hname : (parse raw).packageName? = some name) (hsub : (parse raw).subpath? = some sub)

include hname hsub

/-- The path has text and does not end in a slash. -/
theorem subpath?_ends : sub ≠ "" ∧ sub.toList.getLast? ≠ some '/' := by
  have hparse := (parse_of_packageName? hname).1
  rcases forms_of_subpath? (hparse ▸ hname) (hparse ▸ hsub) with
    ⟨_, _, -, -, -, -, hcut⟩ | ⟨_, _, _, -, -, -, -, -, -, -, hcut⟩
  · exact ⟨(subpathOf_eq_some hcut).2, getLast?_of_subpathOf hcut⟩
  · exact ⟨(subpathOf_eq_some hcut).2, getLast?_of_subpathOf hcut⟩

/-- The path starts at the root exactly if a scoped name stands in front of two slashes. -/
theorem isAbsolute_subpath? : (⟨sub⟩ : Path).isAbsolute = true ↔
    name.toList.head? = some '@' ∧ name.toList ++ ['/', '/'] <+: clean raw := by
  have hparse := (parse_of_packageName? hname).1
  rw [Path.isAbsolute, decide_eq_true_eq]
  rcases forms_of_subpath? (hparse ▸ hname) (hparse ▸ hsub) with
    ⟨first, rest, hs, hslash, hscope, rfl, hcut⟩ |
    ⟨first, second, tail, hs, -, hscope, -, -, -, rfl, hcut⟩
  · rw [String.toList_ofList]
    exact ⟨fun hhead => absurd hhead (head?_of_subpathOf_dropWhile hcut),
      fun hat => absurd hat.1 hscope⟩
  · have hat : (first ++ '/' :: second).head? = some '@' := by
      rw [List.head?_append, hscope]
      rfl
    have htext : clean raw = first ++ '/' :: second ++ ['/'] ++ tail := by simp [hs]
    rw [head?_of_subpathOf hcut, String.toList_ofList, htext, hat,
      show ['/', '/'] = ['/'] ++ ['/'] from rfl, ← List.append_assoc,
      List.prefix_append_right_inj]
    cases tail with
    | nil => simp
    | cons c cs => simp [eq_comm]

/-- Joined to a directory, such a path takes its place, and any other path leads to a place
in the directory. -/
theorem join_subpath? (dir : Path) :
    if name.toList.head? = some '@' ∧ name.toList ++ ['/', '/'] <+: clean raw then
      dir.join ⟨sub⟩ = ⟨sub⟩
    else (dir.join ⟨sub⟩).StartsWith dir := by
  have habsolute := isAbsolute_subpath? hname hsub
  split
  · next hslashes => exact Path.join_absolute (habsolute.2 hslashes)
  · next hslashes =>
    have hrelative : (⟨sub⟩ : Path).isAbsolute = false :=
      Bool.eq_false_iff.2 (mt habsolute.1 hslashes)
    by_cases hdir : dir.text = ""
    · rw [Path.StartsWith, Path.components_eq_nil hdir]
      exact List.nil_prefix
    · rw [Path.StartsWith, Path.components_join hrelative hdir]
      exact List.prefix_append _ _

omit hname hsub in
/-- A second slash behind a scoped name is kept, and the path leads out of the package. -/
theorem exists_absolute_subpath : parse "@s/n//x" = .inScope "@s/n" (some "/x") ∧
    (⟨"/d/node_modules/@s/n"⟩ : Path) / "/x" = ⟨"/x"⟩ := by
  decide

end Specifier

end Vendoring
