/-
# Looking packages up

A catalog answers by path and by name, and the two ways treat a second package differently:
at a root the package that was entered last counts, under a name the one that was entered
first. The owner of a path is looked for from the path outwards, so it is the package at the
longest root that the path begins with.

Beginnings are taken component by component. The empty path is a beginning of every other
one, but it does not lie around an absolute path, where the way outwards ends at the root.
-/

import Mathlib.Data.List.Dedup
import Vendoring.Proofs.Catalog.Insertion
import Vendoring.Proofs.Path.Ancestors

namespace Vendoring

namespace Path

variable {dir dir' p : Path}

/-- The directory is the path itself or lies around it. -/
def Encloses (dir p : Path) : Prop :=
  p.StartsWith dir ∧ (dir.text = "" → p.isAbsolute = false)

instance (dir p : Path) : Decidable (dir.Encloses p) :=
  inferInstanceAs (Decidable (_ ∧ _))

theorem nil_mem_ancestors (hp : p.isAbsolute = false) : [] ∈ p.ancestors.map components := by
  rw [map_components_ancestors]
  cases hcs : p.components with
  | nil => exact List.mem_cons_self
  | cons c steps =>
    have hroot : c ≠ .root := by
      rintro rfl
      rw [← Bool.not_eq_true, isAbsolute_iff_head, hcs] at hp
      exact hp rfl
    rw [enclosing, if_neg hroot]
    simp

/-- The way outwards from a path passes the directories that enclose it. -/
theorem encloses_iff : dir.Encloses p ↔ ∃ d ∈ p.ancestors, d.SameAs dir := by
  constructor
  · rintro ⟨hstart, hempty⟩
    by_cases htext : dir.text = ""
    · obtain ⟨d, hd, hcs⟩ := List.mem_map.1 (nil_mem_ancestors (hempty htext))
      have hdir : dir.components = [] := by
        by_contra hne
        exact components_ne_nil_iff.1 hne htext
      exact ⟨d, hd, hcs.trans hdir.symm⟩
    · exact exists_mem_ancestors hstart (components_ne_nil_iff.2 htext)
  · rintro ⟨d, hd, hsame⟩
    refine ⟨?_, fun htext => ?_⟩
    · have hprefix := prefix_of_mem_ancestors hd
      rwa [show d.components = dir.components from hsame] at hprefix
    · rw [Bool.eq_false_iff]
      intro habs
      have hd := isAbsolute_of_mem_ancestors habs hd
      have hne : dir.components ≠ [] := by
        rw [← show d.components = dir.components from hsame]
        exact components_ne_nil hd
      exact components_ne_nil_iff.1 hne htext

/-- Whether a path is enclosed goes by the components of the directory. -/
theorem SameAs.encloses (h : dir.SameAs dir') (hdir : dir.Encloses p) : dir'.Encloses p := by
  obtain ⟨d, hd, hsame⟩ := encloses_iff.1 hdir
  exact encloses_iff.2 ⟨d, hd, hsame.trans h⟩

end Path

namespace Catalog

variable {c : Catalog} {p : Package} {ps : List Package} {dir q : Path}

/-! ## The owner of a path -/

/-- A path without an owner lies below no root. -/
theorem IsKeyed.owner?_eq_none_iff (h : c.IsKeyed) :
    c.owner? q = none ↔ ∀ p ∈ c.packages, ¬p.root.Encloses q := by
  rw [owner?, List.findSome?_eq_none_iff]
  constructor
  · intro hnone p hp hencloses
    obtain ⟨d, hd, hsame⟩ := Path.encloses_iff.1 hencloses
    have hat := h.mem_packages_iff.1 hp
    rw [← hsame.getElem? c.byRoot, hnone d hd] at hat
    cases hat
  · intro hnone d hd
    rw [Option.eq_none_iff_forall_ne_some]
    intro p hp
    exact hnone p (Catalog.mem_packages_iff.2 ⟨d, hp⟩)
      (Path.encloses_iff.2 ⟨d, hd, (h d p hp).symm⟩)

/-- The owner of a path lies at the innermost root around it. -/
theorem IsKeyed.innermost_of_owner? (h : c.IsKeyed) (howner : c.owner? q = some p) :
    p ∈ c.packages ∧ p.root.Encloses q ∧
      ∀ p' ∈ c.packages, p'.root.Encloses q → p.root.StartsWith p'.root := by
  obtain ⟨before, d, behind, hsplit, hd, hbefore⟩ := List.findSome?_eq_some_iff.1 howner
  have hkey : p.root.SameAs d := h d p hd
  refine ⟨Catalog.mem_packages_iff.2 ⟨d, hd⟩,
    Path.encloses_iff.2 ⟨d, by simp [hsplit], hkey.symm⟩, fun p' hp' hencloses => ?_⟩
  obtain ⟨d', hd', hsame⟩ := Path.encloses_iff.1 hencloses
  have hfound : c.byRoot[d']? = some p' :=
    (hsame.getElem? c.byRoot).trans (h.mem_packages_iff.1 hp')
  have houtward : d.StartsWith d' := by
    have hpairs := hsplit ▸ Path.pairwise_ancestors q
    rw [hsplit, List.mem_append, List.mem_cons] at hd'
    rcases hd' with hd' | rfl | hd'
    · -- the search has passed this directory, so no package lies there
      rw [hbefore d' hd'] at hfound
      cases hfound
    · exact List.prefix_rfl
    · exact (List.pairwise_cons.1 (List.pairwise_append.1 hpairs).2.1).1 d' hd'
  rw [Path.StartsWith, show p.root.components = d.components from hkey,
    show p'.root.components = d'.components from hsame.symm]
  exact houtward

/-- The owner of a path is the package at the longest root around it. -/
theorem IsKeyed.owner?_eq_some_iff (h : c.IsKeyed) :
    c.owner? q = some p ↔ p ∈ c.packages ∧ p.root.Encloses q ∧
      ∀ p' ∈ c.packages, p'.root.Encloses q →
        p'.root.components.length ≤ p.root.components.length := by
  constructor
  · intro howner
    obtain ⟨hp, hencloses, hinnermost⟩ := h.innermost_of_owner? howner
    exact ⟨hp, hencloses, fun p' hp' hencloses' => (hinnermost p' hp' hencloses').length_le⟩
  · rintro ⟨hp, hencloses, hlongest⟩
    cases howner : c.owner? q with
    | none => exact absurd hencloses (h.owner?_eq_none_iff.1 howner p hp)
    | some p' =>
      obtain ⟨hp', hencloses', hinnermost⟩ := h.innermost_of_owner? howner
      -- the longest root is no longer than the innermost, which begins with it
      have hsame : p.root.SameAs p'.root :=
        (hinnermost p hp hencloses).eq_of_length_le (hlongest p' hp' hencloses')
      rw [← h.mem_packages_iff.1 hp', ← hsame.getElem? c.byRoot, h.mem_packages_iff.1 hp]

/-! ## The order of the packages -/

/-- The packages are listed in the order of their roots. -/
theorem IsKeyed.pairwise_compare (h : c.IsKeyed) :
    c.packages.Pairwise fun p p' => compare p.root p'.root = .lt := by
  refine List.pairwise_map.2 (c.byRoot.ordered_keys_toList.imp_of_mem ?_)
  intro m n hm hn hlt
  have hkey {n : Path × Package} (hn : n ∈ c.byRoot.toList) : compare n.2.root n.1 = .eq :=
    Path.compare_eq_iff.2 (h _ _ (c.byRoot.getElem?_of_mem_toList hn))
  rw [Std.TransCmp.congr_left (hkey hm), Std.TransCmp.congr_right (hkey hn)]
  exact hlt

theorem size_eq_length_packages (c : Catalog) : c.size = c.packages.length := by
  rw [size, packages, List.length_map, Std.TreeMap.length_toList]

/-! ## Packages entered one after the other -/

/-- Every root that was entered is the root of a package that stayed. -/
theorem exists_mem_packages_foldl (root : Path) (hp : p ∈ ps) :
    ∃ p' ∈ (ps.foldl insert (empty root)).packages, p'.root.SameAs p.root := by
  obtain ⟨p', hp'⟩ := exists_latest? hp
  refine ⟨p', mem_packages_iff.2 ⟨p.root, ?_⟩, (latest?_eq_some hp').2⟩
  rw [getElem?_byRoot_foldl_insert, hp', Option.some_or]

/-- What is said of all roots by their components may be said of the packages that stayed or
of all that were entered. -/
theorem forall_mem_packages_foldl (root : Path) {P : Path → Prop}
    (hP : ∀ dir dir', dir.SameAs dir' → P dir → P dir') :
    (∀ p ∈ (ps.foldl insert (empty root)).packages, P p.root) ↔ ∀ p ∈ ps, P p.root := by
  constructor
  · intro h p hp
    obtain ⟨p', hp', hsame⟩ := exists_mem_packages_foldl root hp
    exact hP _ _ hsame (h p' hp')
  · exact fun h p hp => h p (Holds.mem (.inl hp))

/-- There are as many packages as different roots. -/
theorem length_packages_foldl (root : Path) (ps : List Package) :
    (ps.foldl insert (empty root)).packages.length =
      (ps.map fun p => p.root.components).dedup.length := by
  have hkeyed := (isKeyed_empty root).foldl_insert ps
  have hnodup : ((ps.foldl insert (empty root)).packages.map fun p => p.root.components).Nodup :=
    List.pairwise_map.2 hkeyed.pairwise_packages
  have hperm : ((ps.foldl insert (empty root)).packages.map fun p => p.root.components).Perm
      (ps.map fun p => p.root.components).dedup := by
    rw [List.perm_ext_iff_of_nodup hnodup (List.nodup_dedup _)]
    intro cs
    rw [List.mem_dedup, List.mem_map, List.mem_map]
    constructor
    · rintro ⟨p, hp, rfl⟩
      exact ⟨p, Holds.mem (.inl hp), rfl⟩
    · rintro ⟨p, hp, rfl⟩
      exact exists_mem_packages_foldl root hp
  rw [← hperm.length_eq, List.length_map]

/-- The look-ups of a catalog, told by the packages that were entered. A path belongs to the
package entered last at the longest root around it, and to none if no root lies around it. A
name stands for the package that was entered first under it. The packages that stay, one for
each root, are listed in the order of their roots. -/
theorem lookups_foldl_insert (root : Path) (ps : List Package) :
    let c := ps.foldl insert (empty root)
    (∀ q p, c.owner? q = some p ↔ latest? ps p.root = some p ∧ p.root.Encloses q ∧
        ∀ p' ∈ ps, p'.root.Encloses q →
          p'.root.components.length ≤ p.root.components.length) ∧
      (∀ q, c.owner? q = none ↔ ∀ p ∈ ps, ¬p.root.Encloses q) ∧
      (∀ name, c.get? name = ps.find? (·.name = name)) ∧
      (∀ p, p ∈ c.packages ↔ latest? ps p.root = some p) ∧
      c.packages.Pairwise (fun p p' => compare p.root p'.root = .lt) ∧
      c.size = c.packages.length ∧
      c.size = (ps.map fun p => p.root.components).dedup.length := by
  intro c
  have hkeyed : c.IsKeyed := (isKeyed_empty root).foldl_insert ps
  refine ⟨fun q p => ?owner, fun q => ?unowned, fun name => ?name,
    fun p => mem_packages_foldl_iff root, hkeyed.pairwise_compare, c.size_eq_length_packages,
    c.size_eq_length_packages.trans (length_packages_foldl root ps)⟩
  case owner =>
    rw [hkeyed.owner?_eq_some_iff, mem_packages_foldl_iff root]
    refine and_congr_right fun _ => and_congr_right fun _ => ?_
    refine forall_mem_packages_foldl root
      (P := fun dir => dir.Encloses q → dir.components.length ≤ p.root.components.length)
      fun dir dir' hsame hdir hencloses => ?_
    rw [← show dir.components = dir'.components from hsame]
    exact hdir (hsame.symm.encloses hencloses)
  case unowned =>
    rw [hkeyed.owner?_eq_none_iff]
    exact forall_mem_packages_foldl root (P := fun dir => ¬dir.Encloses q)
      fun dir dir' hsame hdir hencloses => hdir (hsame.symm.encloses hencloses)
  case name =>
    rw [get?_foldl_insert, show (empty root).get? name = none by simp [empty, get?],
      Option.none_or]

/-- Roots are compared by whole components, however they are spelled. -/
example :
    let outer : Package := { name := "a", root := ⟨"/node_modules/a"⟩ }
    let later : Package := { name := "b", root := ⟨"//node_modules/./a/"⟩ }
    let inner : Package := { name := "a", root := ⟨"/node_modules/a/node_modules/a"⟩ }
    let c := [outer, inner, later].foldl insert (empty ⟨"/node_modules"⟩)
    c.owner? ⟨"/node_modules/a/x.js"⟩ = some later ∧ c.owner? ⟨"/node_modules/ab"⟩ = none ∧
      c.owner? ⟨"/node_modules/a/node_modules/a/x.js"⟩ = some inner ∧
      c.get? "a" = some outer ∧ c.size = 2 := by
  decide +kernel

/-! ## The empty root -/

/-- A path has an owner exactly if it begins with the root of a package. -/
def OwnsBeginnings (ps : List Package) (q : Path) : Prop :=
  (ps.foldl insert (empty ⟨"/node_modules"⟩)).owner? q = none ↔ ∀ p ∈ ps, ¬q.StartsWith p.root

instance (ps : List Package) (q : Path) : Decidable (OwnsBeginnings ps q) :=
  inferInstanceAs (Decidable (_ ↔ _))

/-- The empty path begins an absolute one, which has no owner for that. -/
theorem exists_not_ownsBeginnings : ¬OwnsBeginnings [{ name := "p", root := ⟨""⟩ }] ⟨"/a"⟩ := by
  decide +kernel

end Catalog

end Vendoring
