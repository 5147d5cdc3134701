/-
# Paths that go down behind their package tree

A step up behind a package tree can lead out of it again. In a normal path there is none:
a step up behind a name or the root has been resolved. And names behind a path in which
nothing but names follows the innermost tree leave it such a path, also where they
name a tree of their own.
-/

import Vendoring.Proofs.Path.Companions

namespace Vendoring.Path

variable {p q base : Path} {cs ds : List Component} {c : Component}

/-- Nothing but names stands behind the innermost package tree, if there is one. -/
def Descends (cs : List Component) : Prop :=
  ∀ tree within, splitAtTree cs = some (tree, within) →
    ∃ names : List String, within = names.map .name

/-- Where nothing is left to be resolved, nothing but names follows the root or a name. -/
theorem IsSettled.exists_names (h : IsSettled (cs ++ c :: ds)) (hc : c = .root ∨ ∃ s, c = .name s)
    (hds : ∀ d ∈ ds, d.IsStep) : ∃ names : List String, ds = names.map .name := by
  induction ds generalizing cs c with
  | nil => exact ⟨[], rfl⟩
  | cons d ds ih =>
    have hd := hds d (by simp)
    cases d with
    | root => exact absurd rfl hd.ne_root
    | here => exact absurd rfl hd.ne_here
    | name s =>
      have hrest : IsSettled ((cs ++ [c]) ++ .name s :: ds) := by simpa using h
      obtain ⟨names, rfl⟩ := ih hrest (.inr ⟨s, rfl⟩) fun e he =>
        hds e (List.mem_cons_of_mem _ he)
      exact ⟨s :: names, rfl⟩
    | up =>
      -- the step up would take the name back, or be lost behind the root
      have hall : IsSettled ((c :: cs.reverse).reverse ++ [.up] ++ ds) := by simpa using h
      have hup := hall.of_append
      have hlength := congrArg List.length hup
      rw [collapse, List.foldl_append, hup.of_append.foldl_advance] at hlength
      rcases hc with rfl | ⟨s, rfl⟩ <;> simp [advance] at hlength

theorem IsSettled.descends (h : IsSettled cs) (hspelled : IsSpelled cs) : Descends cs := by
  intro tree within hsplit
  obtain ⟨rfl, hlast, -⟩ := splitAtTree_eq_some hsplit
  obtain ⟨before, rfl⟩ := List.getLast?_eq_some_iff.1 hlast
  rw [List.append_assoc, List.singleton_append] at h
  exact h.exists_names (.inr ⟨_, rfl⟩) fun d hd => hspelled.isStep_of_mem (by simp) hd

theorem isSettled_normalize (p : Path) (hne : p.normalize ≠ ⟨"."⟩) :
    IsSettled p.normalize.components := by
  have hcs : collapse p.components ≠ [] := by
    intro hnil
    exact hne (by rw [normalize, hnil])
  rw [components_normalize hcs]
  exact isSettled_collapse _

theorem descends_normalize (p : Path) : Descends p.normalize.components := by
  by_cases hne : p.normalize = ⟨"."⟩
  · intro tree within hsplit
    rw [hne, show (⟨"."⟩ : Path).components = [.here] by decide] at hsplit
    simp [splitAtTree] at hsplit
  · exact (p.isSettled_normalize hne).descends p.normalize.isSpelled_components

theorem Descends.append_names (h : Descends cs) (names : List String) :
    Descends (cs ++ names.map .name) := by
  induction names using List.reverseRecOn with
  | nil => simpa using h
  | append_singleton names s ih =>
    intro tree within hsplit
    rw [List.map_append, ← List.append_assoc] at hsplit
    by_cases hwithin : within = []
    · exact ⟨[], hwithin⟩
    · obtain ⟨-, front, hfront, rfl⟩ := exists_of_splitAtTree_append_name hsplit hwithin
      obtain ⟨names', rfl⟩ := ih tree front hfront
      exact ⟨names' ++ [s], by simp⟩

/-- A package tree itself has nothing behind it. -/
theorem descends_concat_packageTreeName (cs : List Component) :
    Descends (cs ++ [.name packageTreeName]) := by
  intro tree within hsplit
  refine ⟨[], ?_⟩
  by_contra hwithin
  exact (exists_of_splitAtTree_append_name hsplit hwithin).1 rfl

/-- Behind a directory that a name or the root leads to, a normal path goes down. -/
theorem exists_names_below (h : p.normalize.below? base = some q)
    (hbase : ∃ c ∈ base.components, c = .root ∨ ∃ s, c = .name s) :
    ∃ names : List String,
      p.normalize.components.drop base.components.length = names.map .name := by
  obtain ⟨c, hmem, hc⟩ := hbase
  obtain ⟨⟨rest, hrest⟩, -⟩ := below?_eq_some h (List.ne_nil_of_mem hmem)
  have hne : p.normalize ≠ ⟨"."⟩ := by
    intro hdot
    have hhere : c ∈ (⟨"."⟩ : Path).components := by
      rw [← hdot, ← hrest]
      exact List.mem_append_left _ hmem
    rw [show (⟨"."⟩ : Path).components = [.here] by decide, List.mem_singleton] at hhere
    simp [hhere] at hc
  obtain ⟨before, after, hsplit⟩ := List.append_of_mem hmem
  have hcs : p.normalize.components = before ++ c :: (after ++ rest) := by
    rw [← hrest, hsplit]
    simp
  have hsettled := p.isSettled_normalize hne
  have hspelled := p.normalize.isSpelled_components
  rw [hcs] at hsettled
  rw [hcs, ← List.singleton_append, ← List.append_assoc] at hspelled
  obtain ⟨names, hnames⟩ := hsettled.exists_names hc fun d hd =>
    hspelled.isStep_of_mem (by simp) hd
  obtain ⟨-, back, -, -, hback⟩ := List.append_eq_map_iff.1 hnames
  exact ⟨back, by rw [← hrest, List.drop_left, ← hback]⟩

theorem stepsOf_segments_join (hq : q.isAbsolute = false) (hp : p.text ≠ "") :
    stepsOf (p.join q).segments = stepsOf p.segments ++ stepsOf q.segments := by
  obtain ⟨first, rest, kept, hsegments, hjoined, hkept⟩ := segments_join hq hp
  rw [hjoined, hsegments, ← List.cons_append, stepsOf_append, stepsOf_cons, stepsOf_cons, hkept]

/-! ## Names alone -/

variable {name : String} {names : List String}

/-- Names alone are left as they are. -/
theorem components_normalize_of_names (h : p.components = (name :: names).map .name) :
    p.normalize.components = p.components := by
  have hsettled : IsSettled p.components := by
    rw [h]
    exact IsSettled.append_names (show IsSettled [] from rfl) (by simp)
  rw [components_normalize, hsettled]
  rw [hsettled, h]
  simp

/-- Names alone lead below any directory. -/
theorem components_join_of_names (p : Path) (h : q.components = (name :: names).map .name) :
    (p.join q).components = p.components ++ q.components := by
  have hrelative : q.isAbsolute = false := by
    rw [Bool.eq_false_iff, Ne, isAbsolute_iff_head, h]
    simp
  by_cases hp : p.text = ""
  · rw [join_of_empty hp, components_eq_nil hp, List.nil_append]
  · obtain ⟨first, rest, hsegments⟩ := q.exists_segments
    have hne : q.text ≠ "" := by
      rw [← components_ne_nil_iff, h]
      simp
    have hlead : leadOf first = .name name := by
      rw [components_of_text_ne hsegments hne] at h
      exact (List.cons.inj h).1
    have hfirst : isPadding first = false := by
      rw [Bool.eq_false_iff]
      intro hpadding
      rcases (by simpa [isPadding] using hpadding : first = [] ∨ first = ['.']) with rfl | rfl
      · exact absurd hlead (by simp [leadOf])
      · exact absurd hlead (by simp [leadOf, Component.ofSegment])
    rw [components_join hrelative hp, (components_of_head hsegments hfirst).2]

end Vendoring.Path
