/-
# Splitting a path at its package tree

A path is split behind the last of its components that is called like a package tree, and
the two parts joined again are the path. What is behind the tree tells which package the
path belongs to. The catalog calls its packages by the directories that it lists, and comes
to the same names, save where the directory of a package is itself called like a package tree.
-/

import Vendoring.Proofs.Catalog.Nearest

namespace Vendoring

open Text

namespace Path

variable {p : Path} {cs tree within : List Component} {names : List String}

/-! ## The two parts of a path -/

theorem splitAtTree_eq_some_iff : splitAtTree cs = some (tree, within) ↔
    cs = tree ++ within ∧ tree.getLast? = some (.name packageTreeName) ∧
      Component.name packageTreeName ∉ within := by
  refine ⟨splitAtTree_eq_some, ?_⟩
  rintro ⟨rfl, hlast, hwithin⟩
  induction tree with
  | nil => simp at hlast
  | cons c tree ih =>
    rw [List.cons_append, splitAtTree]
    cases tree with
    | nil =>
      obtain rfl : c = .name packageTreeName := by simpa using hlast
      rw [List.nil_append, splitAtTree_eq_none_iff.2 hwithin]
      rfl
    | cons d tree => rw [ih (by simpa using hlast)]

/-- Something follows the last component of the path that is called like a package tree. -/
def GoesOnBehindTree (p : Path) : Prop :=
  ∃ front rest, p.components = front ++ .name packageTreeName :: rest ∧ rest ≠ [] ∧
    Component.name packageTreeName ∉ rest

/-- The parts of a path around its innermost package tree make up the path. -/
structure SplitsAtTree (p : Path) : Prop where
  isSome_packageTree? : p.packageTree?.isSome = true ↔ p.HasTree
  of_packageTree? : ∀ tree, p.packageTree? = some tree →
    p.StartsWith tree ∧ tree.endsWithName packageTreeName = true
  isSome_withinTree? : p.withinTree?.isSome = true ↔ p.GoesOnBehindTree
  of_withinTree? : ∀ within, p.withinTree? = some within → ¬within.HasTree ∧
    ∃ tree, p.packageTree? = some tree ∧ (tree.join within).SameAs p

theorem GoesOnBehindTree.hasTree (h : p.GoesOnBehindTree) : p.HasTree := by
  obtain ⟨front, rest, hcs, -⟩ := h
  simp [HasTree, hcs]

theorem splitsAtTree_of_not_hasTree (h : ¬p.HasTree) : SplitsAtTree p := by
  have hsplit := splitAtTree_eq_none_iff.2 h
  have htree : p.packageTree? = none := by rw [packageTree?, hsplit]; rfl
  have hwithin : p.withinTree? = none := by rw [withinTree?, hsplit]
  constructor
  · simpa [htree] using h
  · simp [htree]
  · simpa [hwithin] using fun hon : p.GoesOnBehindTree => h hon.hasTree
  · simp [hwithin]

theorem splitsAtTree_of_splitAtTree (h : splitAtTree p.components = some (tree, within)) :
    SplitsAtTree p := by
  obtain ⟨hcs, hlast, hfree⟩ := splitAtTree_eq_some h
  have htree : p.packageTree? = some (ofComponents tree) := by rw [packageTree?, h]; rfl
  have hspelled : IsSpelled tree := IsSpelled.of_append (hcs ▸ p.isSpelled_components)
  have htreeCs := components_ofComponents hspelled
  have hmem : p.HasTree := by
    rw [HasTree, hcs]
    exact List.mem_append_left _ (List.mem_of_getLast? hlast)
  have hgoesOn : p.GoesOnBehindTree ↔ within ≠ [] := by
    constructor
    · rintro ⟨front, rest, hrest, hne, hnot⟩
      have hsplit : splitAtTree p.components = some (front ++ [.name packageTreeName], rest) :=
        splitAtTree_eq_some_iff.2 ⟨by rw [hrest]; simp, by simp, hnot⟩
      obtain ⟨-, rfl⟩ := Prod.mk.inj (Option.some.inj (h.symm.trans hsplit))
      exact hne
    · intro hne
      obtain ⟨front, rfl⟩ := List.getLast?_eq_some_iff.1 hlast
      exact ⟨front, within, by rw [hcs]; simp, hne, hfree⟩
  constructor
  · simpa [htree] using hmem
  · intro dir hdir
    obtain rfl := Option.some.inj (htree.symm.trans hdir)
    rw [StartsWith, endsWithName, htreeCs, hcs]
    exact ⟨List.prefix_append _ _, by simp [hlast]⟩
  · rw [hgoesOn, withinTree?, h]
    cases within <;> simp
  · intro rest hrest
    have hsteps := isStep_of_splitAtTree h
    obtain ⟨hrelative, hstepsOf⟩ := stepsOf_segments_ofComponents hsteps
    obtain rfl : ofComponents within = rest := by
      rw [withinTree?, h] at hrest
      cases within with
      | nil => cases hrest
      | cons c cs => exact Option.some.inj hrest
    refine ⟨?_, _, htree, ?_⟩
    · rwa [HasTree, components_ofComponents (isSpelled_of_isStep hsteps)]
    · have hne : (ofComponents tree).text ≠ "" := by
        rw [← components_ne_nil_iff, htreeCs]
        rintro rfl
        simp at hlast
      show ((ofComponents tree).join (ofComponents within)).components = _
      rw [components_join hrelative hne, hstepsOf, htreeCs, hcs]

theorem splitsAtTree (p : Path) : SplitsAtTree p := by
  cases hsplit : splitAtTree p.components with
  | none => exact splitsAtTree_of_not_hasTree (splitAtTree_eq_none_iff.1 hsplit)
  | some split => exact splitsAtTree_of_splitAtTree hsplit

/-! ## The name behind a package tree -/

theorem withinTree?_of_names (hcs : p.components = cs ++ names.map .name)
    (hlast : cs.getLast? = some (.name packageTreeName)) (hne : names ≠ [])
    (hnames : packageTreeName ∉ names) :
    p.withinTree? = some (ofComponents (names.map .name)) := by
  have hsplit : splitAtTree p.components = some (cs, names.map .name) :=
    splitAtTree_eq_some_iff.2 ⟨hcs, hlast, by simpa using hnames⟩
  rw [withinTree?, hsplit]
  obtain ⟨first, rest, rfl⟩ := List.exists_cons_of_ne_nil hne
  rfl

theorem namesOf_map_name (names : List String) : namesOf (names.map .name) = names := by
  rw [namesOf, List.filterMap_map]
  exact List.filterMap_some

end Path

namespace Catalog

variable {t : FileTree} {l : Loader} {root tree : Path} {p : Package} {name : String}
  {pieces : List String}

theorem IsMadeOf.ne_nil (h : IsMadeOf name pieces) : pieces ≠ [] := by
  cases h <;> simp

/-- A scope is not called like a package tree, so only the last piece can be. -/
theorem IsMadeOf.not_mem_packageTreeName (h : IsMadeOf name pieces)
    (hlast : pieces.getLast? ≠ some packageTreeName) : packageTreeName ∉ pieces := by
  cases h with
  | plain _ => simpa [eq_comm] using hlast
  | @inScope scope inner hscope =>
    have hne : packageTreeName ≠ scope := by
      rintro rfl
      exact absurd hscope (by decide)
    simpa [hne, eq_comm] using hlast

/-- A package is called by what its pieces spell as a path. -/
theorem IsMadeOf.ofComponents_eq (h : IsMadeOf name pieces) (hpieces : ∀ s ∈ pieces, IsName s) :
    Path.ofComponents (pieces.map .name) = ⟨name⟩ := by
  cases h with
  | plain _ =>
    have hne : name.toList ≠ [] := fun hnil =>
      (hpieces name (by simp)).1 (String.toList_eq_nil_iff.1 hnil)
    simp [Path.ofComponents, Path.ofSegments, Component.text, joinWith, hne]
  | @inScope scope inner _ =>
    have htext : scope ++ "/" ++ inner =
        String.ofList (scope.toList ++ '/' :: inner.toList) := by
      apply String.toList_injective
      simp
    rw [htext]
    simp [Path.ofComponents, Path.ofSegments, Component.text, joinWith]

/-- The pieces of a name are read as that name. -/
theorem IsMadeOf.packageName?_eq {path : Path} (h : IsMadeOf name pieces)
    (hpieces : ∀ s ∈ pieces, IsName s)
    (hpath : path.withinTree? = some (Path.ofComponents (pieces.map .name))) :
    path.packageName? = some name := by
  have hspelled : Path.IsSpelled (pieces.map .name) := by
    have hsteps : ∀ c ∈ pieces.map Component.name, c.IsStep := by
      intro c hc
      obtain ⟨s, hs, rfl⟩ := List.mem_map.1 hc
      exact (hpieces s hs).isStep
    exact Path.isSpelled_of_isStep hsteps
  rw [Path.packageName?, hpath, Option.map_some, Path.components_ofComponents hspelled,
    Path.namesOf_map_name]
  cases h with
  | plain hplain =>
    rw [startsWithChar, decide_eq_false_iff_not] at hplain
    simp only [hplain, if_false]
  | inScope hscope =>
    rw [startsWithChar, decide_eq_true_eq] at hscope
    simp only [hscope, if_true, List.head?_cons, Option.map_some]

theorem IsTree.endsWithName (h : IsTree t root tree)
    (hroot : root.endsWithName packageTreeName = true) :
    tree.endsWithName packageTreeName = true := by
  cases h with
  | outermost => exact hroot
  | nested _ _ => simp [Path.endsWithName, isName_packageTreeName.components_div]

/-- The root of a package lies in its tree by the pieces of its name. -/
theorem IsEntered.exists_pieces (h : IsEntered t l root p) :
    ∃ tree pieces, IsTree t root tree ∧ IsMadeOf p.name pieces ∧ (∀ s ∈ pieces, IsName s) ∧
      p.root.components = tree.components ++ pieces.map .name := by
  obtain ⟨tree, name, dir, htree, hdir, rfl⟩ := h
  rcases mem_packageDirs hdir with ⟨hname, hplain, rfl⟩ |
    ⟨scope, inner, hscope, hinner, hat, rfl, rfl⟩
  · exact ⟨tree, [name], htree, .plain hplain, by simpa using hname, hname.components_div tree⟩
  · refine ⟨tree, [scope, inner], htree, .inScope hat, by simp [hscope, hinner], ?_⟩
    show (tree / scope / inner : Path).components = _
    rw [hinner.components_div, hscope.components_div, List.append_assoc]
    rfl

/-- The name of a package is what its root is called behind the package tree, unless the
package is itself called like one. -/
theorem IsEntered.withinTree?_root (h : IsEntered t l root p)
    (hroot : root.endsWithName packageTreeName = true)
    (hown : p.root.endsWithName packageTreeName = false) :
    p.root.withinTree? = some ⟨p.name⟩ ∧ p.root.packageName? = some p.name := by
  obtain ⟨tree, pieces, htree, hmade, hpieces, hcs⟩ := h.exists_pieces
  have hlast : tree.components.getLast? = some (.name packageTreeName) := by
    simpa [Path.endsWithName] using htree.endsWithName hroot
  have hne := hmade.ne_nil
  have hnot : packageTreeName ∉ pieces := by
    refine hmade.not_mem_packageTreeName fun hends => ?_
    rw [Path.endsWithName, decide_eq_false_iff_not, hcs] at hown
    exact hown (by simp [List.getLast?_append, hends])
  have hwithin := Path.withinTree?_of_names hcs hlast hne hnot
  refine ⟨?_, hmade.packageName?_eq hpieces hwithin⟩
  rw [hwithin, hmade.ofComponents_eq hpieces]

theorem IsSurvey.isEntered_of_mem {c : Catalog} (h : IsSurvey t l root c) (hp : p ∈ c.packages) :
    IsEntered t l root p := by
  obtain ⟨⟨d, p⟩, hmem, rfl⟩ := List.mem_map.1 hp
  exact (h.byRoot d p (PathMap.getElem?_of_mem_toList c.byRoot hmem)).2

/-- Every path is made up of its parts around the innermost package tree. Behind a package
tree, the part inside a tree of every package that is stored, under its root or for its name,
is the name of the package, and so is the name that is read off the root. -/
theorem packageTrees_agree : (∀ p : Path, p.SplitsAtTree) ∧
    ∀ (t : FileTree) (l : Loader) (root : Path), root.endsWithName packageTreeName = true →
      ∀ p, (p ∈ (survey t l root).packages ∨ ∃ name, (survey t l root).get? name = some p) →
        p.root.endsWithName packageTreeName = false →
          p.root.withinTree? = some ⟨p.name⟩ ∧ p.root.packageName? = some p.name := by
  refine ⟨Path.splitsAtTree, fun t l root hroot p hp hown => ?_⟩
  have hsurvey := isSurvey_survey t l root
  have hentered : IsEntered t l root p := by
    rcases hp with hmem | ⟨name, hname⟩
    · exact hsurvey.isEntered_of_mem hmem
    · exact (hsurvey.get? hname).2
  exact hentered.withinTree?_root hroot hown

theorem packageTrees_agree_scoped :
    ∃ p ∈ (survey scopedTree {} ⟨"/node_modules"⟩).packages,
      p.root.SameAs ⟨"/node_modules/q/node_modules/@s/p"⟩ ∧ p.name = "@s/p" ∧
        p.root.withinTree? = some ⟨p.name⟩ ∧ p.root.packageName? = some p.name := by
  obtain ⟨p, hmem, hroot, hname, hown⟩ :
      ∃ p ∈ (survey scopedTree {} ⟨"/node_modules"⟩).packages,
        p.root.SameAs ⟨"/node_modules/q/node_modules/@s/p"⟩ ∧ p.name = "@s/p" ∧
          p.root.endsWithName packageTreeName = false := by
    decide +kernel
  exact ⟨p, hmem, hroot, hname, packageTrees_agree.2 scopedTree {} ⟨"/node_modules"⟩ (by decide) p
    (.inl hmem) hown⟩

end Catalog

end Vendoring
