/-
# Paths side by side

The files of a component lie in one directory and have one name up to their
extensions. Both are read off the components: paths that end in a name lie side by
side if they agree in front of it, and then the same directories are around them
and the same package tree is innermost.
-/

import Vendoring.Proofs.Path.Rooted

namespace Vendoring.Path

variable {p q o : Path} {cs ds : List Component} {a b : String}

/-- The two paths lie in one directory. -/
def Neighbours (p q : Path) : Prop :=
  p.parent?.map components = q.parent?.map components

/-- The two paths lie in one directory and have the same file stem. -/
structure Accompanies (p q : Path) : Prop where
  neighbours : p.Neighbours q
  stem_eq : p.stem? = q.stem?

instance (p q : Path) : Decidable (p.Accompanies q) :=
  decidable_of_iff (p.parent?.map components = q.parent?.map components ∧ p.stem? = q.stem?)
    ⟨fun ⟨hneighbours, hstem⟩ => ⟨hneighbours, hstem⟩, fun h => ⟨h.neighbours, h.stem_eq⟩⟩

theorem Accompanies.refl (p : Path) : p.Accompanies p := ⟨rfl, rfl⟩

theorem Accompanies.symm (h : p.Accompanies q) : q.Accompanies p :=
  ⟨Eq.symm h.neighbours, h.stem_eq.symm⟩

theorem Accompanies.trans (h : p.Accompanies q) (h' : q.Accompanies o) : p.Accompanies o :=
  ⟨Eq.trans h.neighbours h'.neighbours, h.stem_eq.trans h'.stem_eq⟩

/-! ## Directories around a name -/

/-- The innermost directory around a name is everything in front of it. -/
theorem enclosing_append_name (cs : List Component) (a : String) :
    enclosing (cs ++ [.name a]) = cs :: enclosing cs := by
  cases cs with
  | nil => simp [enclosing, beginnings]
  | cons c steps => simp [enclosing, beginnings]

theorem map_components_parents_of_name (h : p.components = cs ++ [.name a]) :
    p.parents.map components = cs :: enclosing cs := by
  rw [map_components_parents, h, enclosing_append_name]

theorem map_components_parent?_of_name (h : p.components = cs ++ [.name a]) :
    p.parent?.map components = some cs := by
  rw [parent?, ← List.head?_map, map_components_parents_of_name h, List.head?_cons]

theorem stem?_of_name (h : p.components = cs ++ [.name a]) : p.stem? = some (splitName a).1 := by
  simp [stem?, fileName?, h]

theorem neighbours_iff (hp : p.components = cs ++ [.name a]) (hq : q.components = ds ++ [.name b]) :
    p.Neighbours q ↔ cs = ds := by
  rw [Neighbours, map_components_parent?_of_name hp, map_components_parent?_of_name hq,
    Option.some.injEq]

theorem accompanies_iff (hp : p.components = cs ++ [.name a])
    (hq : q.components = ds ++ [.name b]) :
    p.Accompanies q ↔ cs = ds ∧ (splitName a).1 = (splitName b).1 := by
  constructor
  · rintro ⟨hneighbours, hstem⟩
    rw [stem?_of_name hp, stem?_of_name hq, Option.some.injEq] at hstem
    exact ⟨(neighbours_iff hp hq).1 hneighbours, hstem⟩
  · rintro ⟨hcs, hstem⟩
    exact ⟨(neighbours_iff hp hq).2 hcs, by rw [stem?_of_name hp, stem?_of_name hq, hstem]⟩

/-- A search around a path that finds nothing at the path itself finds the same for all paths
of its directory. -/
theorem findSome?_ancestors_of_name {α : Type} {f : Path → Option α}
    (hf : ∀ d d' : Path, d.SameAs d' → f d = f d') (hp : p.components = cs ++ [.name a])
    (hq : q.components = cs ++ [.name b]) (hfp : f p = none) (hfq : f q = none) :
    p.ancestors.findSome? f = q.ancestors.findSome? f := by
  have hparents : p.parents.map components = q.parents.map components := by
    rw [map_components_parents_of_name hp, map_components_parents_of_name hq]
  rw [ancestors, ancestors, List.findSome?_cons, List.findSome?_cons, hfp, hfq]
  exact findSome?_congr hparents fun d _ d' => hf d d'

/-! ## The package tree around a name -/

theorem splitAtTree_append_name (hb : b ≠ packageTreeName) :
    splitAtTree (cs ++ [.name b]) =
      (splitAtTree cs).map fun split => (split.1, split.2 ++ [.name b]) := by
  induction cs with
  | nil => simp [splitAtTree, hb]
  | cons c cs ih =>
    rw [List.cons_append, splitAtTree, ih, splitAtTree]
    cases splitAtTree cs with
    | some split => rfl
    | none =>
      by_cases hc : c = .name packageTreeName <;> simp [hc]

/-- A name with something behind the innermost tree is not itself a tree. -/
theorem exists_of_splitAtTree_append_name {tree within : List Component}
    (h : splitAtTree (cs ++ [.name a]) = some (tree, within)) (hne : within ≠ []) :
    a ≠ packageTreeName ∧ ∃ front, splitAtTree cs = some (tree, front) ∧
      within = front ++ [.name a] := by
  have ha : a ≠ packageTreeName := by
    rintro rfl
    obtain ⟨hcs, -, hwithin⟩ := splitAtTree_eq_some h
    obtain ⟨front, last, rfl⟩ := List.eq_nil_or_concat within |>.resolve_left hne
    rw [List.concat_eq_append, ← List.append_assoc] at hcs
    obtain ⟨-, hlast⟩ := List.append_inj' hcs rfl
    exact hwithin (by simp [List.singleton_inj.1 hlast])
  rw [splitAtTree_append_name ha] at h
  obtain ⟨⟨tree', front⟩, hsplit, heq⟩ := Option.map_eq_some_iff.1 h
  obtain ⟨rfl, rfl⟩ := Prod.mk.inj heq
  exact ⟨ha, front, hsplit, rfl⟩

end Vendoring.Path
