/-
# What a survey enters

Every package of a surveyed catalog was read from a directory of a package tree,
which is the outermost tree or lies in another package. It is kept under its own
root, and under its own name. So what holds of every package that is read in a
tree holds of every package that a build looks up.
-/

import Vendoring.Catalog.Survey
import Vendoring.Proofs.FileTree.Locations

namespace Vendoring.Catalog

variable (t : FileTree) (l : Loader) (root : Path)

/-- The directory is a package tree of the survey. -/
inductive IsTree : Path → Prop
  | outermost : IsTree root
  | nested {tree : Path} {package : String × Path} : IsTree tree → package ∈ packageDirs t tree →
      IsTree (package.2 / packageTreeName)

/-- The package was read in a tree of the survey. -/
def IsEntered (p : Package) : Prop :=
  ∃ tree name dir, IsTree t root tree ∧ (name, dir) ∈ packageDirs t tree ∧
    p = readPackage t l name dir

/-- The catalog holds packages of the survey under their roots and names. -/
structure IsSurvey (c : Catalog) : Prop where
  byRoot : ∀ (d : Path) (p : Package), c.byRoot[d]? = some p →
    p.root.SameAs d ∧ IsEntered t l root p
  byName : ∀ (name : String) (p : Package), c.byName[name]? = some p →
    p.name = name ∧ IsEntered t l root p

variable {t l root}

theorem isSurvey_empty : IsSurvey t l root (empty root) where
  byRoot d p h := by simp [empty] at h
  byName name p h := by simp [empty] at h

theorem IsSurvey.insert {c : Catalog} (h : IsSurvey t l root c) {p : Package}
    (hp : IsEntered t l root p) : IsSurvey t l root (c.insert p) where
  byRoot d q hq := by
    rw [Catalog.insert, PathMap.getElem?_insert] at hq
    split at hq
    · next hsame =>
      obtain rfl := Option.some.inj hq
      exact ⟨hsame, hp⟩
    · exact h.byRoot d q hq
  byName name q hq := by
    rw [Catalog.insert, Std.TreeMap.getElem?_insertIfNew] at hq
    split at hq
    · next hnew =>
      obtain rfl := Option.some.inj hq
      exact ⟨Std.LawfulEqCmp.compare_eq_iff_eq.1 hnew.1, hp⟩
    · exact h.byName name q hq

theorem IsSurvey.enterTree {c : Catalog} (h : IsSurvey t l root c) {tree : Path}
    (htree : IsTree t root tree) : IsSurvey t l root (enterTree t l c tree) :=
  List.foldlRecOn _ _ h fun _ hc x hx => hc.insert ⟨tree, x.1, x.2, htree, hx, rfl⟩

theorem IsTree.of_mem_nestedTrees {tree inner : Path} (htree : IsTree t root tree)
    (h : inner ∈ nestedTrees t tree) : IsTree t root inner := by
  obtain ⟨h, -⟩ := List.mem_filter.1 h
  obtain ⟨package, hpackage, rfl⟩ := List.mem_map.1 h
  exact .nested htree hpackage

theorem IsSurvey.enterLevels {levels : Nat} {trees : List Path} {c : Catalog}
    (h : IsSurvey t l root c) (htrees : ∀ tree ∈ trees, IsTree t root tree) :
    IsSurvey t l root (enterLevels t l levels trees c) := by
  induction levels generalizing trees c with
  | zero => exact h
  | succ levels ih =>
    rw [Catalog.enterLevels]
    split
    · exact h
    · refine ih ?_ fun inner hinner => ?_
      · exact List.foldlRecOn _ _ h fun _ hc tree htree => hc.enterTree (htrees tree htree)
      · obtain ⟨tree, htree, hinner⟩ := List.mem_flatMap.1 hinner
        exact (htrees tree htree).of_mem_nestedTrees hinner

/-- A survey enters nothing but the packages of its trees. -/
theorem isSurvey_survey (t : FileTree) (l : Loader) (root : Path) :
    IsSurvey t l root (survey t l root) := by
  unfold survey
  split
  · refine isSurvey_empty.enterLevels fun tree htree => ?_
    rw [List.mem_singleton.1 htree]
    exact .outermost
  · exact isSurvey_empty

/-! ## Looking up packages -/

variable {c : Catalog} {p : Package} {name : String} {dir file : Path}

theorem IsSurvey.get? (h : IsSurvey t l root c) (hp : c.get? name = some p) :
    p.name = name ∧ IsEntered t l root p :=
  h.byName name p hp

theorem IsSurvey.nearest? (h : IsSurvey t l root c) (hp : c.nearest? name dir = some p) :
    IsEntered t l root p := by
  simp only [Catalog.nearest?] at hp
  rcases Option.or_eq_some_iff.1 hp with hp | ⟨-, hp⟩
  · obtain ⟨d, -, hp⟩ := List.exists_of_findSome?_eq_some hp
    exact (h.byRoot _ p hp).2
  · exact (h.get? hp).2

/-- The owner of a file is a package whose root is on the way to the file. -/
theorem IsSurvey.owner? (h : IsSurvey t l root c) (hp : c.owner? file = some p) :
    IsEntered t l root p ∧ p.root.components <+: file.components := by
  obtain ⟨d, hd, hp⟩ := List.exists_of_findSome?_eq_some hp
  obtain ⟨hsame, hentered⟩ := h.byRoot d p hp
  refine ⟨hentered, ?_⟩
  rw [hsame]
  exact Path.prefix_of_mem_ancestors hd

/-! ## The directories of packages -/

theorem mem_subdirectories {p : Path} {name : String} (h : name ∈ t.subdirectories p) :
    ∃ loc, t.locate p = .ok loc ∧ t.entry? (loc ++ [name]) = some .directory := by
  unfold FileTree.subdirectories at h
  cases hloc : t.locate p with
  | error cause => simp [hloc] at h
  | ok loc =>
    simp only [hloc, List.mem_filterMap, Prod.exists] at h
    obtain ⟨full, e, hmem, hname⟩ := h
    have hfull : t.entry? full = some e := Std.TreeMap.mem_toList_iff_getElem?_eq_some.1 hmem
    split at hname
    · next last hbelow =>
      obtain rfl := Option.some.inj hname
      exact ⟨loc, rfl, FileTree.eq_append_of_locationBelow? hbelow ▸ hfull⟩
    · simp at hname

theorem isName_of_mem_subdirectories {p : Path} {name : String} (h : name ∈ t.subdirectories p) :
    IsName name := by
  obtain ⟨loc, -, hentry⟩ := mem_subdirectories h
  exact FileTree.isName_of_entry? hentry name (by simp)

/-- A listed directory is a directory where its path means it to be. -/
theorem entry?_of_mem_subdirectories {p : Path} {name : String} (h : name ∈ t.subdirectories p) :
    t.entry? (t.locationOf (p / name)) = some .directory := by
  obtain ⟨loc, hloc, hentry⟩ := mem_subdirectories h
  have hcs := (isName_of_mem_subdirectories h).components_div p
  rwa [FileTree.locationOf_append_names [name] hcs, FileTree.locationOf_of_locate hloc]

/-- The directory of a package lies one name below its tree, or two in a scope. -/
theorem mem_packageDirs {tree dir : Path} {name : String} (h : (name, dir) ∈ packageDirs t tree) :
    (IsName name ∧ startsWithChar name '@' = false ∧ dir = tree / name) ∨
      ∃ scope inner, IsName scope ∧ IsName inner ∧ startsWithChar scope '@' = true ∧
        name = scope ++ "/" ++ inner ∧ dir = tree / scope / inner := by
  simp only [packageDirs, mem_sortBy, List.mem_flatMap] at h
  obtain ⟨first, hfirst, h⟩ := h
  have hname := isName_of_mem_subdirectories (List.mem_filter.1 hfirst).1
  split at h
  · next hscope =>
    obtain ⟨inner, hinner, heq⟩ := List.mem_map.1 h
    obtain ⟨rfl, rfl⟩ := Prod.mk.inj heq
    exact .inr ⟨first, inner, hname, isName_of_mem_subdirectories (List.mem_filter.1 hinner).1,
      hscope, rfl, rfl⟩
  · next hscope =>
    obtain ⟨rfl, rfl⟩ := Prod.mk.inj (List.mem_singleton.1 h)
    exact .inl ⟨hname, by simpa using hscope, rfl⟩

theorem entry?_of_mem_packageDirs {tree dir : Path} {name : String}
    (h : (name, dir) ∈ packageDirs t tree) : t.entry? (t.locationOf dir) = some .directory := by
  simp only [packageDirs, mem_sortBy, List.mem_flatMap] at h
  obtain ⟨first, hfirst, h⟩ := h
  split at h
  · obtain ⟨inner, hinner, heq⟩ := List.mem_map.1 h
    obtain ⟨-, rfl⟩ := Prod.mk.inj heq
    exact entry?_of_mem_subdirectories (List.mem_filter.1 hinner).1
  · obtain ⟨-, rfl⟩ := Prod.mk.inj (List.mem_singleton.1 h)
    exact entry?_of_mem_subdirectories (List.mem_filter.1 hfirst).1

/-- The root of a package is a directory, so no package is kept under the path of a file. -/
theorem IsSurvey.byRoot_eq_none (h : IsSurvey t l root c) {contents : ByteArray}
    (hfile : t.entry? (t.locationOf file) = some (.file contents)) : c.byRoot[file]? = none := by
  by_contra hne
  obtain ⟨p, hp⟩ := Option.ne_none_iff_exists'.1 hne
  obtain ⟨hsame, tree, name, dir, -, hdir, rfl⟩ := h.byRoot _ p hp
  rw [← FileTree.locationOf_congr hsame] at hfile
  exact absurd ((entry?_of_mem_packageDirs hdir).symm.trans hfile) (by simp)

end Vendoring.Catalog
