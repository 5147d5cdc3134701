/-
# Where packages are installed

The packages of a survey lie behind its outermost tree, and at absolute paths if
that tree does. Then whatever is looked up in a package is looked up under an absolute
path. If the tree is reached from the root by names, so are the packages, and so is
what stands in for their roots, as long as no manifest declares a step up.
-/

import Vendoring.Proofs.Catalog.Survey
import Vendoring.Resolver

namespace Vendoring

open Catalog Text

variable {t : FileTree} {l : Loader} {root : Path}

theorem isName_packageTreeName : IsName packageTreeName := by decide

namespace Catalog

/-- The packages that are found lie at absolute paths, and only absolute files belong to
one. -/
structure IsAnchored (c : Catalog) : Prop where
  root : ∀ name dir p, c.nearest? name dir = some p → p.root.isAbsolute = true
  contentRoot : ∀ name dir p, c.nearest? name dir = some p → p.contentRoot.isAbsolute = true
  owned : ∀ file p, c.owner? file = some p → file.isAbsolute = true

theorem exists_names_of_mem_packageDirs {tree dir : Path} {name : String}
    (h : (name, dir) ∈ packageDirs t tree) :
    ∃ names : List String, names ≠ [] ∧ dir.components = tree.components ++ names.map .name := by
  rcases mem_packageDirs h with ⟨hname, -, rfl⟩ | ⟨scope, inner, hscope, hinner, -, -, rfl⟩
  · exact ⟨[name], by simp, by simp [hname.components_div]⟩
  · exact ⟨[scope, inner], by simp, by simp [hscope.components_div, hinner.components_div]⟩

/-- Names lead from the outermost tree to every other one. -/
theorem IsTree.exists_names {tree : Path} (h : IsTree t root tree) :
    ∃ names : List String, tree.components = root.components ++ names.map .name := by
  induction h with
  | outermost => exact ⟨[], by simp⟩
  | @nested tree package _ hpackage ih =>
    obtain ⟨names, hnames⟩ := ih
    obtain ⟨more, -, hmore⟩ := exists_names_of_mem_packageDirs hpackage
    exact ⟨names ++ more ++ [packageTreeName], by
      simp [isName_packageTreeName.components_div, hmore, hnames]⟩

theorem IsEntered.exists_names {p : Package} (h : IsEntered t l root p) :
    ∃ names : List String, names ≠ [] ∧ p.root.components = root.components ++ names.map .name := by
  obtain ⟨tree, name, dir, htree, hdir, rfl⟩ := h
  obtain ⟨names, hnames⟩ := htree.exists_names
  obtain ⟨more, hne, hmore⟩ := exists_names_of_mem_packageDirs hdir
  refine ⟨names ++ more, by simp [hne], ?_⟩
  show dir.components = _
  rw [hmore, hnames, List.map_append, List.append_assoc]

/-- The built variant of a package is a directory that its manifest declares. -/
theorem IsEntered.alternateOutput {p : Package} (h : IsEntered t l root p) {dir : Path}
    (hdir : p.alternateOutput = some dir) : t.isDirectory dir = true ∧
      ∃ (m : Manifest) (dirname : String), t.manifest? (p.root / packageManifestName) = some m ∧
        m.alternateDirname? = some dirname ∧ dir = p.root / dirname := by
  obtain ⟨tree, name, root, -, -, rfl⟩ := h
  simp only [readPackage, Option.filter_eq_some_iff, Option.map_eq_some_iff,
    Option.bind_eq_some_iff] at hdir
  obtain ⟨⟨dirname, ⟨m, hm, hdirname⟩, rfl⟩, hisDir⟩ := hdir
  exact ⟨hisDir, m, dirname, hm, hdirname, rfl⟩

/-- The main entry of a package is what a loader finds in its content root. -/
theorem IsEntered.mainEntry {p : Package} (h : IsEntered t l root p) :
    p.mainEntry = (l.resolve? t p.contentRoot p.contentRoot.text).bind
      fun main => main.below? p.contentRoot := by
  obtain ⟨tree, name, dir, -, -, rfl⟩ := h
  simp only [readPackage, Package.contentRoot]

/-- A package lies at an absolute path, and so does what stands in for its root. -/
theorem IsEntered.isAbsolute (habsolute : root.isAbsolute = true) {p : Package}
    (h : IsEntered t l root p) : p.root.isAbsolute = true ∧ p.contentRoot.isAbsolute = true := by
  have hroot : p.root.isAbsolute = true := by
    obtain ⟨names, -, hnames⟩ := h.exists_names
    rw [Path.isAbsolute_iff_head] at habsolute ⊢
    rw [hnames, List.head?_append, habsolute]
    rfl
  refine ⟨hroot, ?_⟩
  unfold Package.contentRoot
  cases hdir : p.alternateOutput with
  | none => exact hroot
  | some dir =>
    obtain ⟨-, m, dirname, -, -, rfl⟩ := h.alternateOutput hdir
    exact Path.isAbsolute_join hroot _

theorem IsSurvey.isAnchored {c : Catalog} (h : IsSurvey t l root c)
    (habsolute : root.isAbsolute = true) : c.IsAnchored where
  root name dir p hp := ((h.nearest? hp).isAbsolute habsolute).1
  contentRoot name dir p hp := ((h.nearest? hp).isAbsolute habsolute).2
  owned file p hp := by
    obtain ⟨hentered, steps, hsteps⟩ := h.owner? hp
    have hroot := (hentered.isAbsolute habsolute).1
    rw [Path.isAbsolute_iff_head] at hroot ⊢
    rw [← hsteps, List.head?_append, hroot]
    rfl

variable (hrooted : root.IsRooted)

include hrooted

theorem IsEntered.isRooted_root {p : Package} (h : IsEntered t l root p) :
    p.root.IsRooted ∧ (root.HasTree → p.root.HasTree) := by
  obtain ⟨names, -, hnames⟩ := h.exists_names
  obtain ⟨above, habove⟩ := hrooted
  exact ⟨⟨above ++ names, by simp [hnames, habove]⟩, fun htree =>
    htree.of_startsWith ⟨_, hnames.symm⟩⟩

theorem IsEntered.isRooted_contentRoot {p : Package} (h : IsEntered t l root p)
    (hdeclared : ∀ (dir : Path) (m : Manifest), t.manifest? (dir / packageManifestName) = some m →
      ∀ dirname, m.alternateDirname? = some dirname → ['.', '.'] ∉ splitOn '/' dirname.toList) :
    p.contentRoot.IsRooted := by
  have hroot := (h.isRooted_root hrooted).1
  unfold Package.contentRoot
  cases hdir : p.alternateOutput with
  | none => exact hroot
  | some dir =>
    obtain ⟨-, m, dirname, hm, hdirname, rfl⟩ := h.alternateOutput hdir
    exact hroot.join (hdeclared _ m hm dirname hdirname)

end Catalog

/-- What belongs to a package lies behind a package tree. -/
theorem Resolver.hasTree_of_packageOf? {r : Resolver} (hsurvey : IsSurvey t l root r.catalog)
    (hrooted : root.IsRooted) (htree : root.HasTree) {file : Path} {name : String}
    (h : r.packageOf? file = some name) : file.HasTree := by
  unfold Resolver.packageOf? at h
  rcases Option.or_eq_some_iff.1 h with h | ⟨-, h⟩
  · obtain ⟨p, hp, -⟩ := Option.map_eq_some_iff.1 h
    obtain ⟨hentered, hprefix⟩ := hsurvey.owner? hp
    exact ((hentered.isRooted_root hrooted).2 htree).of_startsWith hprefix
  · unfold Path.packageName? Path.withinTree? at h
    cases hsplit : Path.splitAtTree file.components with
    | none => simp [hsplit] at h
    | some split =>
      by_contra hnot
      rw [Path.splitAtTree_eq_none_iff.2 hnot] at hsplit
      simp at hsplit

end Vendoring
