/-
# Entering packages one after the other

A catalog is filled by entering a list of packages. Under a name it then holds the first of
them that is called so, since a name keeps its package, and under a root the last one that
lies there, since a root takes the new one. If no two packages of the list share a root,
each of them stays.
-/

import Vendoring.Catalog.Basic
import Vendoring.Proofs.Path.Keys

namespace Vendoring.Catalog

variable {c : Catalog} {p q : Package} {ps : List Package} {name : String} {dir : Path}

theorem get?_insert : (c.insert p).get? name =
    (c.get? name).or (if p.name = name then some p else none) := by
  simp only [get?, insert, Std.TreeMap.getElem?_insertIfNew, Std.LawfulEqCmp.compare_eq_iff_eq,
    Std.TreeMap.mem_iff_isSome_getElem?]
  by_cases hname : p.name = name
  · cases hget : c.byName[name]? <;> simp [hname, hget]
  · simp [hname]

theorem getElem?_byRoot_insert :
    (c.insert p).byRoot[dir]? = if p.root.SameAs dir then some p else c.byRoot[dir]? :=
  c.byRoot.getElem?_insert p.root dir p

/-- A name stands for the first package that was entered under it. -/
theorem get?_foldl_insert (ps : List Package) (c : Catalog) :
    (ps.foldl insert c).get? name = (c.get? name).or (ps.find? (·.name = name)) := by
  induction ps generalizing c with
  | nil => simp
  | cons p ps ih =>
    rw [List.foldl_cons, ih, get?_insert, Option.or_assoc, List.find?_cons]
    by_cases hname : p.name = name <;> simp [hname]

/-- The package of the list that is entered last at the root. -/
def latest? (ps : List Package) (dir : Path) : Option Package :=
  ps.reverse.find? fun p => p.root.SameAs dir

theorem latest?_eq_some (h : latest? ps dir = some p) : p ∈ ps ∧ p.root.SameAs dir :=
  ⟨List.mem_reverse.1 (List.mem_of_find?_eq_some h), by simpa using List.find?_some h⟩

theorem exists_latest? (hp : p ∈ ps) : ∃ p', latest? ps p.root = some p' := by
  rw [← Option.isSome_iff_exists, latest?, List.find?_isSome]
  exact ⟨p, List.mem_reverse.2 hp, by simp [Path.SameAs.refl]⟩

/-- Of packages at different roots, each is the last one at its own. -/
theorem latest?_of_pairwise (hdistinct : ps.Pairwise fun p q => ¬p.root.SameAs q.root)
    (hp : p ∈ ps) : latest? ps p.root = some p := by
  obtain ⟨p', hp'⟩ := exists_latest? hp
  obtain ⟨hmem, hsame⟩ := latest?_eq_some hp'
  have : Std.Symm fun p q : Package => ¬p.root.SameAs q.root :=
    ⟨fun _ _ hne hsame => hne hsame.symm⟩
  have heq : p' = p := by
    by_contra hne
    exact hdistinct.forall hmem hp hne hsame
  rwa [heq] at hp'

/-- A root holds the last package that was entered there. -/
theorem getElem?_byRoot_foldl_insert (ps : List Package) (c : Catalog) :
    (ps.foldl insert c).byRoot[dir]? = (latest? ps dir).or c.byRoot[dir]? := by
  induction ps generalizing c with
  | nil => rfl
  | cons p ps ih =>
    rw [List.foldl_cons, ih, getElem?_byRoot_insert, latest?, latest?, List.reverse_cons,
      List.find?_append, Option.or_assoc]
    by_cases hsame : p.root.SameAs dir <;> simp [hsame]

theorem mem_packages_iff : p ∈ c.packages ↔ ∃ dir : Path, c.byRoot[dir]? = some p := by
  rw [packages, List.mem_map]
  constructor
  · rintro ⟨n, hn, rfl⟩
    exact ⟨n.1, c.byRoot.getElem?_of_mem_toList hn⟩
  · rintro ⟨dir, hdir⟩
    obtain ⟨key, -, hkey⟩ := c.byRoot.exists_mem_toList hdir
    exact ⟨(key, p), hkey, rfl⟩

/-- Every package is kept under its own root. -/
def IsKeyed (c : Catalog) : Prop :=
  ∀ (dir : Path) (p : Package), c.byRoot[dir]? = some p → p.root.SameAs dir

theorem isKeyed_empty (root : Path) : (empty root).IsKeyed := by
  intro dir p h
  simp [empty] at h

theorem IsKeyed.foldl_insert (h : c.IsKeyed) (ps : List Package) :
    (ps.foldl insert c).IsKeyed := by
  intro dir p hp
  rw [getElem?_byRoot_foldl_insert] at hp
  rcases Option.or_eq_some_iff.1 hp with hlatest | ⟨-, hp⟩
  · exact (latest?_eq_some hlatest).2
  · exact h dir p hp

theorem IsKeyed.mem_packages_iff (h : c.IsKeyed) :
    p ∈ c.packages ↔ c.byRoot[p.root]? = some p := by
  rw [Catalog.mem_packages_iff]
  constructor
  · rintro ⟨dir, hdir⟩
    rwa [(h dir p hdir).getElem? c.byRoot]
  · exact fun hp => ⟨p.root, hp⟩

/-- No root is listed twice. -/
theorem IsKeyed.pairwise_packages (h : c.IsKeyed) :
    c.packages.Pairwise fun p q => ¬p.root.SameAs q.root := by
  refine List.pairwise_map.2 (c.byRoot.nodup_toList.imp_of_mem ?_)
  intro m n hm hn hne hsame
  have hm := h _ _ (c.byRoot.getElem?_of_mem_toList hm)
  have hn := h _ _ (c.byRoot.getElem?_of_mem_toList hn)
  exact hne (hm.symm.trans (hsame.trans hn))

/-- A catalog lists the packages that were entered last at their roots. -/
theorem mem_packages_foldl_iff (root : Path) :
    p ∈ (ps.foldl insert (empty root)).packages ↔ latest? ps p.root = some p := by
  rw [((isKeyed_empty root).foldl_insert ps).mem_packages_iff, getElem?_byRoot_foldl_insert,
    show (empty root).byRoot[p.root]? = none by simp [empty], Option.or_none]

/-- A catalog that is filled with packages at different roots lists just these. -/
theorem mem_packages_foldl (hdistinct : ps.Pairwise fun p q => ¬p.root.SameAs q.root)
    (root : Path) : p ∈ (ps.foldl insert (empty root)).packages ↔ p ∈ ps := by
  rw [mem_packages_foldl_iff]
  exact ⟨fun h => (latest?_eq_some h).1, latest?_of_pairwise hdistinct⟩

/-- The package is in the catalog, under a root or under a name. -/
def Holds (c : Catalog) (p : Package) : Prop :=
  p ∈ c.packages ∨ ∃ name, c.get? name = some p

/-- A catalog holds no packages but those that were entered. -/
theorem Holds.mem {root : Path} (h : (ps.foldl insert (empty root)).Holds p) : p ∈ ps := by
  rcases h with h | ⟨name, h⟩
  · exact (latest?_eq_some ((mem_packages_foldl_iff root).1 h)).1
  · rw [get?_foldl_insert] at h
    exact List.mem_of_find?_eq_some (by simpa [empty, get?] using h)

end Vendoring.Catalog
