/-
# A graph is what can be reached

The walk keeps one account of the references it has gone through and of those
that still wait: together they are the references of the starting file and of the
places found so far, and every flag of a place is the disjunction over the
references gone through. When none waits, the graph holds exactly the places that
can be reached, and its flags and children are those of the references between
them.
-/

import Vendoring.Proofs.Graph.Walk

namespace Vendoring

variable {ρ : Type}

/-- The reference leads to the place, which is not left out. -/
def Links.LeadsTo (links : Links ρ) (ref : ρ) (p : Path) : Prop :=
  links.omits (links.key ref) = false ∧ (links.key ref).SameAs p

instance (links : Links ρ) (ref : ρ) (p : Path) : Decidable (links.LeadsTo ref p) :=
  inferInstanceAs (Decidable (_ ∧ _))

/-- The references met on the way from some references onwards. What is left out
is not passed through. -/
inductive Links.Reached (links : Links ρ) (edges : Path → List ρ) (refs : List ρ) : ρ → Prop
  | start {ref : ρ} : ref ∈ refs → Reached links edges refs ref
  | onward {ref next : ρ} : Reached links edges refs ref →
      links.omits (links.key ref) = false → next ∈ edges (links.source ref) →
      Reached links edges refs next

namespace Graph

variable (links : Links ρ) (edges : Path → List ρ) (refs : List ρ)

/-- The references that a graph has to account for: those of the starting file,
and those of its places. -/
def Asks (g : Graph ρ) (x : ρ × Bool) : Prop :=
  if x.2 then x.1 ∈ refs
  else ∃ (p : Path) (n : Node ρ), g.nodes[p]? = some n ∧ x.1 ∈ edges (links.source n.first)

/-- The place is described by the references that have been gone through. -/
structure Describes (done : List (ρ × Bool)) (p : Path) (n : Node ρ) : Prop where
  /-- The place is known by a reference that leads there. -/
  leads : links.LeadsTo n.first p
  /-- That reference can be reached. -/
  reached : links.Reached edges refs n.first
  children : n.children = targets links (edges (links.source n.first))
  isRootLevel : n.isRootLevel = true ↔ ∃ x ∈ done, links.LeadsTo x.1 p ∧ x.2 = true
  isMain : n.isMain = true ↔ ∃ x ∈ done, links.LeadsTo x.1 p ∧ links.isMain x.1 = true

/-- The account of a walk under way. -/
structure Explored (done todo : List (ρ × Bool)) (g : Graph ρ) : Prop where
  roots : g.roots = targets links refs
  mem_nodes : ∀ p, p ∈ g.nodes ↔ ∃ x ∈ done, links.LeadsTo x.1 p
  describes : ∀ p n, g.nodes[p]? = some n → Describes links edges refs done p n
  asks : ∀ x, x ∈ done ∨ x ∈ todo ↔ g.Asks links edges refs x

variable {links edges refs} {done todo : List (ρ × Bool)} {g g' : Graph ρ}
variable {ref : ρ} {atRoot : Bool}

theorem mem_targets {refs : List ρ} {p : Path} :
    p ∈ targets links refs ↔ ∃ ref ∈ refs, links.LeadsTo ref p := by
  have hfold (keys : List Path) (s : PathSet) :
      p ∈ keys.foldl (fun s p => s.insert p ()) s ↔ (∃ q ∈ keys, q.SameAs p) ∨ p ∈ s := by
    induction keys generalizing s with
    | nil => simp
    | cons q keys ih =>
      rw [List.foldl_cons, ih, PathMap.mem_insert]
      simp only [List.mem_cons, exists_eq_or_imp]
      rw [or_assoc, or_left_comm]
  rw [targets, hfold]
  simp [Links.LeadsTo, and_assoc, and_left_comm]

theorem explored_nil : Explored links edges refs [] (refs.map (·, true))
    { roots := targets links refs } where
  roots := rfl
  mem_nodes p := by simp
  describes p n h := by simp at h
  asks x := by
    obtain ⟨ref, atRoot⟩ := x
    cases atRoot <;> simp [Asks]

theorem Explored.reached (h : Explored links edges refs done todo g) {x : ρ × Bool}
    (hx : x ∈ done ∨ x ∈ todo) : links.Reached edges refs x.1 := by
  have hasks := (h.asks x).1 hx
  unfold Asks at hasks
  split at hasks
  · exact .start hasks
  · obtain ⟨p, n, hn, hmem⟩ := hasks
    have hdescribes := h.describes p n hn
    exact .onward hdescribes.reached hdescribes.leads.1 hmem

/-- A reference to a place that is left out is only ticked off. -/
theorem Explored.omit (h : Explored links edges refs done ((ref, atRoot) :: todo) g)
    (homits : links.omits (links.key ref) = true) :
    Explored links edges refs ((ref, atRoot) :: done) todo g := by
  have hleads (p : Path) : ¬links.LeadsTo ref p := fun hlead => by simp [hlead.1] at homits
  refine ⟨h.roots, ?_, ?_, ?_⟩
  · intro p
    simp [h.mem_nodes, hleads]
  · intro p n hn
    obtain ⟨hlead, hreached, hchildren, hroot, hmain⟩ := h.describes p n hn
    refine ⟨hlead, hreached, hchildren, ?_, ?_⟩
    · simp [hroot, hleads]
    · simp [hmain, hleads]
  · intro x
    rw [← h.asks]
    simp only [List.mem_cons]
    tauto

theorem getElem?_relink (p : Path) : (g.relink links ref atRoot).nodes[p]? =
    g.nodes[p]?.map fun n =>
      if (links.key ref).SameAs p then
        { n with isRootLevel := n.isRootLevel || atRoot, isMain := n.isMain || links.isMain ref }
      else n := by
  rw [relink, PathMap.getElem?_modify]
  by_cases hp : (links.key ref).SameAs p
  · simp [hp, hp.getElem?]
  · simp [hp]

theorem asks_relink {x : ρ × Bool} :
    (g.relink links ref atRoot).Asks links edges refs x ↔ g.Asks links edges refs x := by
  have hfirst (p : Path) (n : Node ρ) (hn : (g.relink links ref atRoot).nodes[p]? = some n) :
      ∃ old, g.nodes[p]? = some old ∧ n.first = old.first := by
    rw [getElem?_relink] at hn
    obtain ⟨old, hold, rfl⟩ := Option.map_eq_some_iff.1 hn
    refine ⟨old, hold, ?_⟩
    split <;> rfl
  unfold Asks
  split
  · rfl
  · constructor
    · rintro ⟨p, n, hn, hmem⟩
      obtain ⟨old, hold, heq⟩ := hfirst p n hn
      exact ⟨p, old, hold, heq ▸ hmem⟩
    · rintro ⟨p, old, hold, hmem⟩
      obtain ⟨n, hn⟩ : ∃ n, (g.relink links ref atRoot).nodes[p]? = some n := by
        rw [getElem?_relink, hold]
        exact ⟨_, rfl⟩
      obtain ⟨old', hold', heq⟩ := hfirst p n hn
      obtain rfl : old = old' := Option.some.inj (hold.symm.trans hold')
      exact ⟨p, n, hn, heq ▸ hmem⟩

/-- What a reference tells of a known place is added to the flags of that place. -/
theorem Describes.relink {p : Path} {n : Node ρ} (h : Describes links edges refs done p n)
    (homits : links.omits (links.key ref) = false) :
    Describes links edges refs ((ref, atRoot) :: done) p
      (if (links.key ref).SameAs p then
        { n with isRootLevel := n.isRootLevel || atRoot, isMain := n.isMain || links.isMain ref }
      else n) := by
  obtain ⟨hlead, hreached, hchildren, hroot, hmain⟩ := h
  by_cases hp : (links.key ref).SameAs p
  · have hleads : links.LeadsTo ref p := ⟨homits, hp⟩
    rw [if_pos hp]
    refine ⟨hlead, hreached, hchildren, ?_, ?_⟩
    · simp [hroot, hleads, or_comm]
    · simp [hmain, hleads, or_comm]
  · have hleads : ¬links.LeadsTo ref p := fun hlead => hp hlead.2
    rw [if_neg hp]
    refine ⟨hlead, hreached, hchildren, ?_, ?_⟩
    · simp [hroot, hleads]
    · simp [hmain, hleads]

theorem Explored.relink (h : Explored links edges refs done ((ref, atRoot) :: todo) g)
    (homits : links.omits (links.key ref) = false) (hknown : links.key ref ∈ g.nodes) :
    Explored links edges refs ((ref, atRoot) :: done) todo (g.relink links ref atRoot) := by
  refine ⟨h.roots, ?_, ?_, ?_⟩
  · intro p
    rw [nodes_relink_mem, h.mem_nodes]
    simp only [List.mem_cons, exists_eq_or_imp]
    refine ⟨.inr, fun hlead => hlead.elim (fun hlead => ?_) id⟩
    rw [← h.mem_nodes]
    exact (PathMap.mem_congr _ hlead.2).1 hknown
  · intro p n hn
    rw [getElem?_relink] at hn
    obtain ⟨old, hold, rfl⟩ := Option.map_eq_some_iff.1 hn
    exact (h.describes p old hold).relink homits
  · intro x
    rw [asks_relink, ← h.asks]
    simp only [List.mem_cons]
    tauto

theorem getElem?_addNode (next : List ρ) (p : Path) :
    (g.addNode links ref atRoot next).nodes[p]? =
      if (links.key ref).SameAs p then
        some ⟨ref, atRoot, links.isMain ref, targets links next⟩
      else g.nodes[p]? :=
  PathMap.getElem?_insert _ _ _ _

theorem asks_addNode (hnew : links.key ref ∉ g.nodes) {x : ρ × Bool} :
    (g.addNode links ref atRoot (edges (links.source ref))).Asks links edges refs x ↔
      g.Asks links edges refs x ∨ x ∈ (edges (links.source ref)).map (·, false) := by
  obtain ⟨next, fromRoot⟩ := x
  cases fromRoot with
  | true => simp [Asks]
  | false =>
    simp only [Asks, Bool.false_eq_true, if_false, List.mem_map, Prod.mk.injEq, and_true,
      exists_eq_right]
    constructor
    · rintro ⟨p, n, hn, hmem⟩
      rw [getElem?_addNode] at hn
      split at hn
      · obtain rfl := Option.some.inj hn
        exact .inr hmem
      · exact .inl ⟨p, n, hn, hmem⟩
    · rintro (⟨p, n, hn, hmem⟩ | hmem)
      · refine ⟨p, n, ?_, hmem⟩
        rw [getElem?_addNode, if_neg fun hp => hnew ?_, hn]
        exact (PathMap.mem_congr _ hp).2 (PathMap.mem_of_getElem? _ hn)
      · exact ⟨links.key ref, _, by rw [getElem?_addNode, if_pos (Path.SameAs.refl _)], hmem⟩

/-- A new place is described by the reference that leads there, since none that has been gone
through does. -/
theorem describes_addNode {p : Path} (hlead : links.LeadsTo ref p)
    (hreached : links.Reached edges refs ref) (hnone : ∀ x ∈ done, ¬links.LeadsTo x.1 p) :
    Describes links edges refs ((ref, atRoot) :: done) p
      ⟨ref, atRoot, links.isMain ref, targets links (edges (links.source ref))⟩ := by
  have honly (flag : ρ × Bool → Prop) :
      flag (ref, atRoot) ↔ ∃ x ∈ (ref, atRoot) :: done, links.LeadsTo x.1 p ∧ flag x := by
    constructor
    · exact fun hflag => ⟨_, List.mem_cons_self, hlead, hflag⟩
    · rintro ⟨x, hx, hleads, hflag⟩
      rcases List.mem_cons.1 hx with rfl | hx
      · exact hflag
      · exact absurd hleads (hnone x hx)
  exact ⟨hlead, hreached, rfl, honly (·.2 = true), honly fun x => links.isMain x.1 = true⟩

/-- A place that a reference leads to first brings its own references along. -/
theorem Explored.addNode (h : Explored links edges refs done ((ref, atRoot) :: todo) g)
    (homits : links.omits (links.key ref) = false) (hnew : links.key ref ∉ g.nodes) :
    Explored links edges refs ((ref, atRoot) :: done)
      ((edges (links.source ref)).map (·, false) ++ todo)
      (g.addNode links ref atRoot (edges (links.source ref))) := by
  refine ⟨h.roots, ?_, ?_, ?_⟩
  · intro p
    rw [Graph.addNode, PathMap.mem_insert, h.mem_nodes]
    simp [Links.LeadsTo, homits]
  · intro p n hn
    rw [getElem?_addNode] at hn
    split at hn
    · next hp =>
      obtain rfl := Option.some.inj hn
      refine describes_addNode ⟨homits, hp⟩ (h.reached (x := (ref, atRoot)) (.inr (by simp))) ?_
      intro x hx hlead
      exact hnew ((h.mem_nodes _).2 ⟨x, hx, hlead.1, hlead.2.trans hp.symm⟩)
    · next hp =>
      have hold : Describes links edges refs ((ref, atRoot) :: done) p _ :=
        (h.describes p n hn).relink homits
      rwa [if_neg hp] at hold
  · intro x
    rw [asks_addNode hnew, ← h.asks]
    simp only [List.mem_cons, List.mem_append]
    tauto

/-- Going through references up to the next new place keeps the account. -/
theorem Explored.followKnown {next : Option (ρ × Bool × List (ρ × Bool))}
    (h : Explored links edges refs done todo g) (heq : g.followKnown links todo = (g', next)) :
    ∃ done', Explored links edges refs done'
      (next.elim [] fun (ref, atRoot, rest) => (ref, atRoot) :: rest) g' := by
  induction todo generalizing g done with
  | nil =>
    obtain ⟨rfl, rfl⟩ : g = g' ∧ none = next := by simpa [Graph.followKnown] using heq
    exact ⟨done, h⟩
  | cons x todo ih =>
    obtain ⟨ref, atRoot⟩ := x
    rw [Graph.followKnown] at heq
    split at heq
    · next homits => exact ih (h.omit homits) heq
    · next homits =>
      split at heq
      · next hknown =>
        exact ih (h.relink (by simpa using homits) (Std.TreeMap.contains_iff_mem.1 hknown)) heq
      · obtain ⟨rfl, rfl⟩ := Prod.mk.inj heq
        exact ⟨done, h⟩

/-- A walk that comes to an end has gone through everything it accounts for. -/
theorem Explored.walk? {bound : Nat} (h : Explored links edges refs done todo g)
    (heq : walk? links edges bound todo g = some g') :
    ∃ done', Explored links edges refs done' [] g' := by
  induction bound generalizing done todo g with
  | zero =>
    match hfollow : g.followKnown links todo with
    | (known, none) =>
      rw [walk?_of_none hfollow] at heq
      obtain rfl := Option.some.inj heq
      exact h.followKnown hfollow
    | (known, some (ref, atRoot, rest)) => simp [walk?_zero hfollow] at heq
  | succ bound ih =>
    match hfollow : g.followKnown links todo with
    | (known, none) =>
      rw [walk?_of_none hfollow] at heq
      obtain rfl := Option.some.inj heq
      exact h.followKnown hfollow
    | (known, some (ref, atRoot, rest)) =>
      obtain ⟨done', hknown⟩ := h.followKnown hfollow
      obtain ⟨-, homits, hnew⟩ := followKnown_eq_some hfollow
      rw [walk?_succ hfollow] at heq
      exact ih (hknown.addNode homits hnew) heq

/-- Building a graph with a memory is a walk that comes to an end, and changes no answer about
a plain path. -/
theorem exists_walk?_build {m : Memo ρ} {P : ρ → Prop}
    (hP : ∀ ref, P ref → (links.source ref).IsPlain ∧ FileTree.IsShort (links.key ref))
    (hlook : ∀ p, ∀ ref ∈ links.lookUp p, P ref) (hm : m.All P) (hrefs : ∀ ref ∈ refs, P ref) :
    (∃ bound, walk? links (m.answer links.lookUp) bound (refs.map (·, true))
      { roots := targets links refs } = some (build links refs m).1) ∧
      ∀ q, q.IsPlain → (build links refs m).2.answer links.lookUp q = m.answer links.lookUp q := by
  have hedges (p : Path) : ∀ ref ∈ m.answer links.lookUp p, P ref := hm.answer (hlook p)
  have htodo : ∀ x ∈ refs.map (·, true), P x.1 := by
    intro x hx
    obtain ⟨ref, hmem, rfl⟩ := List.mem_map.1 hx
    exact hrefs ref hmem
  obtain ⟨g, hwalk⟩ : ∃ g, walk? links (m.answer links.lookUp) (FileTree.pathCount + m.total)
      (refs.map (·, true)) { roots := targets links refs } = some g :=
    exists_walk? (fun p ref hmem => (hP ref (hedges p ref hmem)).2)
      (fun x hx => (hP x.1 (htodo x hx)).2) (fun p hp => by simp at hp) (by omega)
  obtain ⟨hgraph, hmemo⟩ := follow_of_walk? (m := m) (fun q _ => rfl)
    (fun p ref hmem => (hP ref (hedges p ref hmem)).1) (fun x hx => (hP x.1 (htodo x hx)).1) hwalk
  rw [build, hgraph]
  exact ⟨⟨_, hwalk⟩, hmemo⟩

/-- The graph that is built accounts for everything, also where something is
remembered, and building it changes no answer about a plain path. -/
theorem explored_build {m : Memo ρ} {P : ρ → Prop}
    (hP : ∀ ref, P ref → (links.source ref).IsPlain ∧ FileTree.IsShort (links.key ref))
    (hlook : ∀ p, ∀ ref ∈ links.lookUp p, P ref) (hm : m.All P) (hrefs : ∀ ref ∈ refs, P ref) :
    (∃ done, Explored links (m.answer links.lookUp) refs done [] (build links refs m).1) ∧
      ∀ q, q.IsPlain → (build links refs m).2.answer links.lookUp q = m.answer links.lookUp q := by
  obtain ⟨⟨bound, hwalk⟩, hmemo⟩ := exists_walk?_build hP hlook hm hrefs
  exact ⟨explored_nil.walk? hwalk, hmemo⟩

/-! ## When nothing waits -/

/-- Every reference that is reached has been gone through, if one place is always followed
from one file. -/
theorem Explored.exists_mem_done_of_reached (h : Explored links edges refs done [] g)
    (hsource : ∀ ref ref', links.Reached edges refs ref → links.Reached edges refs ref' →
      (links.key ref).SameAs (links.key ref') → links.source ref = links.source ref')
    (hreached : links.Reached edges refs ref) : ∃ x ∈ done, x.1 = ref := by
  induction hreached with
  | start hmem =>
    have hasks := (h.asks (_, true)).2 (by simpa [Asks] using hmem)
    exact ⟨_, hasks.resolve_right (by simp), rfl⟩
  | @onward ref next hreached homits hmem ih =>
    obtain ⟨x, hx, rfl⟩ := ih
    have hplace : links.key x.1 ∈ g.nodes := (h.mem_nodes _).2 ⟨x, hx, homits, Path.SameAs.refl _⟩
    obtain ⟨n, hn⟩ := PathMap.exists_getElem?_of_mem _ hplace
    have hdescribes := h.describes _ n hn
    rw [← hsource _ _ hdescribes.reached hreached hdescribes.leads.2] at hmem
    have hasks := (h.asks (next, false)).2 (by
      simp only [Asks, Bool.false_eq_true, if_false]
      exact ⟨_, n, hn, hmem⟩)
    exact ⟨_, hasks.resolve_right (by simp), rfl⟩

theorem Explored.mem_nodes_iff (h : Explored links edges refs done [] g)
    (hsource : ∀ ref ref', links.Reached edges refs ref → links.Reached edges refs ref' →
      (links.key ref).SameAs (links.key ref') → links.source ref = links.source ref') (p : Path) :
    p ∈ g.nodes ↔ ∃ ref, links.Reached edges refs ref ∧ links.LeadsTo ref p := by
  rw [h.mem_nodes]
  constructor
  · rintro ⟨x, hx, hlead⟩
    exact ⟨x.1, h.reached (.inl hx), hlead⟩
  · rintro ⟨ref, hreached, hlead⟩
    obtain ⟨x, hx, rfl⟩ := h.exists_mem_done_of_reached hsource hreached
    exact ⟨x, hx, hlead⟩

/-- The references gone through in the end. -/
theorem Explored.mem_done_iff (h : Explored links edges refs done [] g) (x : ρ × Bool) :
    x ∈ done ↔ g.Asks links edges refs x := by
  simpa using h.asks x

theorem Explored.isRootLevel_iff (h : Explored links edges refs done [] g) {p : Path} {n : Node ρ}
    (hn : g.nodes[p]? = some n) :
    n.isRootLevel = true ↔ ∃ ref ∈ refs, links.LeadsTo ref p := by
  rw [(h.describes p n hn).isRootLevel]
  constructor
  · rintro ⟨⟨ref, atRoot⟩, hx, hlead, rfl⟩
    rw [h.mem_done_iff] at hx
    exact ⟨ref, hx, hlead⟩
  · rintro ⟨ref, hmem, hlead⟩
    refine ⟨(ref, true), ?_, hlead, rfl⟩
    rw [h.mem_done_iff]
    exact hmem

theorem Explored.isMain_iff (h : Explored links edges refs done [] g) {p : Path} {n : Node ρ}
    (hn : g.nodes[p]? = some n) :
    n.isMain = true ↔ ∃ ref, (ref ∈ refs ∨ ∃ (q : Path) (m : Node ρ), g.nodes[q]? = some m ∧
      ref ∈ edges (links.source m.first)) ∧ links.LeadsTo ref p ∧ links.isMain ref = true := by
  rw [(h.describes p n hn).isMain]
  constructor
  · rintro ⟨⟨ref, atRoot⟩, hx, hlead, hmain⟩
    rw [h.mem_done_iff] at hx
    cases atRoot with
    | true => exact ⟨ref, .inl hx, hlead, hmain⟩
    | false => exact ⟨ref, .inr hx, hlead, hmain⟩
  · rintro ⟨ref, hasks, hlead, hmain⟩
    rcases hasks with hmem | hmem
    · exact ⟨(ref, true), (h.mem_done_iff _).2 hmem, hlead, hmain⟩
    · exact ⟨(ref, false), (h.mem_done_iff _).2 hmem, hlead, hmain⟩

end Graph

end Vendoring
