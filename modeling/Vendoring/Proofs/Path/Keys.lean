/-
# Maps whose keys are paths

A map from paths answers for every spelling of a key alike. The laws of finite
maps are stated here with `Path.SameAs` in the place of the comparison, and a map
is bounded in size if each of its keys has a spelling that can lead somewhere.
-/

import Vendoring.Proofs.FileTree.Lookup

namespace Vendoring

namespace Path

theorem SameAs.refl (p : Path) : p.SameAs p := Eq.refl p.components

theorem SameAs.symm {p q : Path} (h : p.SameAs q) : q.SameAs p := Eq.symm h

theorem SameAs.trans {p q r : Path} (h : p.SameAs q) (h' : q.SameAs r) : p.SameAs r := Eq.trans h h'

end Path

namespace PathMap

variable {α : Type} (m : PathMap α) {p q : Path}

theorem mem_congr (h : p.SameAs q) : p ∈ m ↔ q ∈ m :=
  Std.TreeMap.mem_congr (Path.compare_eq_iff.2 h)

theorem getElem?_insert (p q : Path) (a : α) :
    (m.insert p a)[q]? = if p.SameAs q then some a else m[q]? := by
  rw [Std.TreeMap.getElem?_insert]
  simp only [Path.compare_eq_iff]

theorem mem_insert (p q : Path) (a : α) : q ∈ m.insert p a ↔ p.SameAs q ∨ q ∈ m := by
  rw [Std.TreeMap.mem_insert, Path.compare_eq_iff]

theorem size_insert_of_not_mem {a : α} (h : p ∉ m) : (m.insert p a).size = m.size + 1 := by
  rw [Std.TreeMap.mem_iff_contains] at h
  rw [Std.TreeMap.size_insert, if_neg h]

theorem getElem?_modify (p q : Path) (f : α → α) :
    (m.modify p f)[q]? = if p.SameAs q then m[p]?.map f else m[q]? := by
  rw [Std.TreeMap.getElem?_modify]
  simp only [Path.compare_eq_iff]

theorem mem_modify (p q : Path) (f : α → α) : q ∈ m.modify p f ↔ q ∈ m :=
  Std.TreeMap.mem_modify

theorem exists_getElem?_of_mem (h : p ∈ m) : ∃ a, m[p]? = some a :=
  Option.isSome_iff_exists.1 (Std.TreeMap.mem_iff_isSome_getElem?.1 h)

theorem mem_of_getElem? {a : α} (h : m[p]? = some a) : p ∈ m := by
  rw [Std.TreeMap.mem_iff_isSome_getElem?, h]
  rfl

theorem getElem?_eq_none_iff : m[p]? = none ↔ p ∉ m := by
  rw [Std.TreeMap.mem_iff_isSome_getElem?]
  simp

theorem getElem?_of_mem_toList {n : Path × α} (h : n ∈ m.toList) : m[n.1]? = some n.2 :=
  (Std.TreeMap.mem_toList_iff_getKey?_eq_some_and_getElem?_eq_some.1 h).2

theorem exists_mem_toList {a : α} (h : m[p]? = some a) : ∃ q, p.SameAs q ∧ (q, a) ∈ m.toList := by
  obtain ⟨q, hpq, hq⟩ :=
    Std.TreeMap.getElem?_eq_some_iff_exists_compare_eq_eq_and_mem_toList.1 h
  exact ⟨q, Path.compare_eq_iff.1 hpq, hq⟩

theorem exists_mem_toList_of_mem (h : p ∈ m) : ∃ n ∈ m.toList, p.SameAs n.1 := by
  obtain ⟨a, ha⟩ := m.exists_getElem?_of_mem h
  obtain ⟨q, hpq, hq⟩ := m.exists_mem_toList ha
  exact ⟨(q, a), hq, hpq⟩

theorem nodup_toList : m.toList.Pairwise fun n n' => ¬n.1.SameAs n'.1 :=
  Std.TreeMap.distinct_keys_toList.imp fun hne hsame => hne (Path.compare_eq_iff.2 hsame)

/-- A map has no more keys than there are paths that can lead anywhere, if each
key has a spelling that can. -/
theorem size_le_pathCount (h : ∀ p ∈ m, ∃ q, p.SameAs q ∧ FileTree.IsShort q) :
    m.size ≤ FileTree.pathCount := by
  have hkeys : ∀ p ∈ m.keys, ∃ q, p.SameAs q ∧ FileTree.IsShort q :=
    fun p hp => h p (Std.TreeMap.mem_of_mem_keys hp)
  choose! short hsame hshort using hkeys
  have hdistinct : (m.keys.map short).Pairwise fun p q => ¬p.SameAs q := by
    refine List.pairwise_map.2 (Std.TreeMap.distinct_keys.imp_of_mem ?_)
    intro p q hp hq hne hshorts
    exact hne (Path.compare_eq_iff.2 ((hsame p hp).trans (hshorts.trans (hsame q hq).symm)))
  have hle := FileTree.length_le_pathCount hdistinct fun q hq => by
    obtain ⟨p, hp, rfl⟩ := List.mem_map.1 hq
    exact hshort p hp
  rwa [List.length_map, Std.TreeMap.length_keys] at hle

end PathMap

end Vendoring
