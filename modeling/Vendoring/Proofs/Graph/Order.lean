/-
# The order of a walk

A place is known by the reference that leads there first, and only the file of
that reference is followed from the place. Which reference is the first follows
from the order of a walk in depth: a reference is followed with everything behind
it before the next one of the same file. The relation below says this without a
list of what waits, and the walk keeps to it.
-/

import Vendoring.Proofs.Graph.Closure

namespace Vendoring

variable {ρ : Type}

namespace Links

variable (links : Links ρ) (edges : Path → List ρ)

/-- A reference is passed over if its place is left out, or if a reference to that
place has been followed. -/
def Passes (followed : List ρ) (ref : ρ) : Prop :=
  links.omits (links.key ref) = true ∨ ∃ c ∈ followed, (links.key c).SameAs (links.key ref)

/-- Going through references in depth, where those of the first list have been
followed before, and those of the last list have been followed in the end. -/
inductive InDepth : List ρ → List ρ → List ρ → Prop
  | nil (followed : List ρ) : InDepth followed [] followed
  | pass {followed rest last : List ρ} {ref : ρ} : links.Passes followed ref →
      InDepth followed rest last → InDepth followed (ref :: rest) last
  | follow {followed rest between last : List ρ} {ref : ρ} : ¬links.Passes followed ref →
      InDepth (followed ++ [ref]) (edges (links.source ref)) between →
      InDepth between rest last → InDepth followed (ref :: rest) last

variable {links edges} {followed between last refs refs' : List ρ}

/-- The order decides which references are followed. -/
theorem InDepth.unique (h : links.InDepth edges followed refs last)
    (h' : links.InDepth edges followed refs between) : last = between := by
  induction h generalizing between with
  | nil => cases h' with | nil => rfl
  | pass hpass _ ih =>
    cases h' with
    | pass _ hrest => exact ih hrest
    | follow hnew => exact absurd hpass hnew
  | follow hnew _ _ ihinner ihrest =>
    cases h' with
    | pass hpass => exact absurd hpass hnew
    | follow _ hinner hrest =>
      obtain rfl := ihinner hinner
      exact ihrest hrest

theorem InDepth.of_append (h : links.InDepth edges followed (refs ++ refs') last) :
    ∃ between, links.InDepth edges followed refs between ∧
      links.InDepth edges between refs' last := by
  induction refs generalizing followed with
  | nil => exact ⟨followed, .nil followed, h⟩
  | cons ref refs ih =>
    cases h with
    | pass hpass hrest =>
      obtain ⟨between, hfirst, hsecond⟩ := ih hrest
      exact ⟨between, .pass hpass hfirst, hsecond⟩
    | follow hnew hinner hrest =>
      obtain ⟨between, hfirst, hsecond⟩ := ih hrest
      exact ⟨between, .follow hnew hinner hfirst, hsecond⟩

/-- What holds of the references at hand, and of those behind a reference of which
it holds, holds of everything that is followed. -/
theorem InDepth.forall_mem {P : ρ → Prop} (h : links.InDepth edges followed refs last)
    (honward : ∀ ref, P ref → links.omits (links.key ref) = false →
      ∀ next ∈ edges (links.source ref), P next)
    (hfollowed : ∀ ref ∈ followed, P ref) (hrefs : ∀ ref ∈ refs, P ref) :
    ∀ ref ∈ last, P ref := by
  induction h with
  | nil => exact hfollowed
  | pass _ _ ih => exact ih hfollowed fun c hc => hrefs c (List.mem_cons_of_mem _ hc)
  | @follow followed rest between last ref hnew _ _ ihinner ihrest =>
    have href : P ref := hrefs ref List.mem_cons_self
    have homits : links.omits (links.key ref) = false := by
      by_contra hleft
      exact hnew (.inl (by simpa using hleft))
    refine ihrest (ihinner ?_ (honward ref href homits))
      fun c hc => hrefs c (List.mem_cons_of_mem _ hc)
    intro c hc
    rcases List.mem_append.1 hc with hc | hc
    · exact hfollowed c hc
    · obtain rfl := List.mem_singleton.1 hc
      exact href

/-- No two references to one place are followed. -/
theorem InDepth.pairwise (h : links.InDepth edges followed refs last)
    (hfollowed : followed.Pairwise fun c c' => ¬(links.key c).SameAs (links.key c')) :
    last.Pairwise fun c c' => ¬(links.key c).SameAs (links.key c') := by
  induction h with
  | nil => exact hfollowed
  | pass _ _ ih => exact ih hfollowed
  | follow hnew _ _ ihinner ihrest =>
    refine ihrest (ihinner (List.pairwise_append.2 ⟨hfollowed, List.pairwise_singleton _ _, ?_⟩))
    intro c hc c' hc' hsame
    obtain rfl := List.mem_singleton.1 hc'
    exact hnew (.inr ⟨c, hc, hsame⟩)

/-- No reference is followed to a place that is left out. -/
theorem InDepth.omits_eq_false (h : links.InDepth edges followed refs last)
    (hfollowed : ∀ c ∈ followed, links.omits (links.key c) = false) :
    ∀ c ∈ last, links.omits (links.key c) = false := by
  induction h with
  | nil => exact hfollowed
  | pass _ _ ih => exact ih hfollowed
  | @follow followed rest between last ref hnew _ _ ihinner ihrest =>
    refine ihrest (ihinner fun c hc => ?_)
    rcases List.mem_append.1 hc with hc | hc
    · exact hfollowed c hc
    · rw [List.mem_singleton.1 hc]
      by_contra hleft
      exact hnew (.inl (by simpa using hleft))

end Links

namespace Graph

variable {links : Links ρ} {edges : Path → List ρ} {g g' : Graph ρ} {followed : List ρ}
variable {todo rest : List (ρ × Bool)} {ref : ρ} {atRoot : Bool}

/-- The places of the graph are known by the given references, the first of them
that leads to each. -/
def KnownBy (links : Links ρ) (followed : List ρ) (g : Graph ρ) : Prop :=
  ∀ p, g.nodes[p]?.map (·.first) = followed.find? fun c => (links.key c).SameAs p

theorem KnownBy.mem_nodes_iff (h : g.KnownBy links followed) {p : Path} :
    p ∈ g.nodes ↔ ∃ c ∈ followed, (links.key c).SameAs p := by
  rw [Std.TreeMap.mem_iff_isSome_getElem?, ← Option.isSome_map, h p, List.find?_isSome]
  simp

theorem KnownBy.first_mem (h : g.KnownBy links followed) {p : Path} {n : Node ρ}
    (hn : g.nodes[p]? = some n) : n.first ∈ followed ∧ (links.key n.first).SameAs p := by
  have hfind := h p
  rw [hn] at hfind
  exact ⟨List.mem_of_find?_eq_some hfind.symm, by simpa using List.find?_some hfind.symm⟩

/-- Each place is known by the only reference that has been followed there. -/
theorem KnownBy.eq_first (h : g.KnownBy links followed)
    (hdistinct : followed.Pairwise fun c c' => ¬(links.key c).SameAs (links.key c')) {p : Path}
    {n : Node ρ} (hn : g.nodes[p]? = some n) {c : ρ} (hc : c ∈ followed)
    (hsame : (links.key c).SameAs p) : c = n.first := by
  obtain ⟨hfirst, hleads⟩ := h.first_mem hn
  by_contra hne
  have : Std.Symm fun c c' => ¬(links.key c).SameAs (links.key c') :=
    ⟨fun a b hab hba => hab hba.symm⟩
  exact hdistinct.forall hc hfirst hne (hsame.trans hleads.symm)

theorem KnownBy.relink (h : g.KnownBy links followed) :
    (g.relink links ref atRoot).KnownBy links followed := by
  intro p
  rw [getElem?_relink, Option.map_map, ← h p]
  congr 1
  funext n
  simp only [Function.comp_apply]
  split <;> rfl

theorem KnownBy.addNode (h : g.KnownBy links followed) (hnew : links.key ref ∉ g.nodes)
    (onward : List ρ) :
    (g.addNode links ref atRoot onward).KnownBy links (followed ++ [ref]) := by
  intro p
  rw [List.find?_append, ← h p, Graph.addNode, PathMap.getElem?_insert]
  by_cases hp : (links.key ref).SameAs p
  · have hnone : g.nodes[p]? = none := by
      rw [PathMap.getElem?_eq_none_iff, ← PathMap.mem_congr _ hp]
      exact hnew
    simp [hp, hnone]
  · simp [hp]

/-- What is passed over up to the next new place is passed over in depth too. -/
theorem KnownBy.followKnown {next : Option (ρ × Bool × List (ρ × Bool))}
    (h : g.KnownBy links followed) (heq : g.followKnown links todo = (g', next)) :
    g'.KnownBy links followed ∧ ∀ last,
      links.InDepth edges followed
        ((next.elim [] fun (ref, atRoot, rest) => (ref, atRoot) :: rest).map Prod.fst) last →
      links.InDepth edges followed (todo.map Prod.fst) last := by
  induction todo generalizing g with
  | nil =>
    obtain ⟨rfl, rfl⟩ : g = g' ∧ none = next := by simpa [Graph.followKnown] using heq
    exact ⟨h, fun last hlast => hlast⟩
  | cons x todo ih =>
    obtain ⟨ref, atRoot⟩ := x
    rw [Graph.followKnown] at heq
    split at heq
    · next homits =>
      obtain ⟨hknown, hrest⟩ := ih h heq
      exact ⟨hknown, fun last hlast => .pass (.inl homits) (hrest last hlast)⟩
    · split at heq
      · next hcontains =>
        obtain ⟨hknown, hrest⟩ := ih h.relink heq
        have hpass := h.mem_nodes_iff.1 (Std.TreeMap.contains_iff_mem.1 hcontains)
        exact ⟨hknown, fun last hlast => .pass (.inr hpass) (hrest last hlast)⟩
      · obtain ⟨rfl, rfl⟩ := Prod.mk.inj heq
        exact ⟨h, fun last hlast => hlast⟩

/-- A walk that comes to an end has followed references in depth, and its graph
knows every place by the one that was followed. -/
theorem KnownBy.walk? {bound : Nat} (h : g.KnownBy links followed)
    (heq : walk? links edges bound todo g = some g') :
    ∃ last, links.InDepth edges followed (todo.map Prod.fst) last ∧ g'.KnownBy links last := by
  induction bound generalizing followed todo g with
  | zero =>
    match hfollow : g.followKnown links todo with
    | (known, none) =>
      rw [walk?_of_none hfollow] at heq
      obtain rfl := Option.some.inj heq
      obtain ⟨hknown, hpass⟩ := h.followKnown hfollow
      exact ⟨followed, hpass followed (.nil followed), hknown⟩
    | (known, some (ref, atRoot, rest)) => simp [walk?_zero hfollow] at heq
  | succ bound ih =>
    match hfollow : g.followKnown links todo with
    | (known, none) =>
      rw [walk?_of_none hfollow] at heq
      obtain rfl := Option.some.inj heq
      obtain ⟨hknown, hpass⟩ := h.followKnown hfollow
      exact ⟨followed, hpass followed (.nil followed), hknown⟩
    | (known, some (ref, atRoot, rest)) =>
      obtain ⟨hknown, hpass⟩ := h.followKnown hfollow
      obtain ⟨-, homits, hnew⟩ := followKnown_eq_some hfollow
      rw [walk?_succ hfollow] at heq
      obtain ⟨last, hlast, hlists⟩ := ih (hknown.addNode hnew _) heq
      rw [List.map_append, List.map_map, show Prod.fst ∘ (fun r : ρ => (r, false)) = id from rfl,
        List.map_id] at hlast
      obtain ⟨between, hinner, hrest⟩ := hlast.of_append
      refine ⟨last, hpass last (.follow ?_ hinner hrest), hlists⟩
      rintro (hleft | hseen)
      · simp [homits] at hleft
      · exact hnew (hknown.mem_nodes_iff.2 hseen)

/-- Building a graph follows references in depth, and the graph knows every place by the one
that was followed. -/
theorem exists_inDepth_build {refs : List ρ} {m : Memo ρ} {P : ρ → Prop}
    (hP : ∀ ref, P ref → (links.source ref).IsPlain ∧ FileTree.IsShort (links.key ref))
    (hlook : ∀ p, ∀ ref ∈ links.lookUp p, P ref) (hm : m.All P) (hrefs : ∀ ref ∈ refs, P ref) :
    ∃ followed, links.InDepth (m.answer links.lookUp) [] refs followed ∧
      (build links refs m).1.KnownBy links followed ∧ ∀ ref ∈ followed, P ref := by
  obtain ⟨⟨bound, hwalk⟩, -⟩ := exists_walk?_build hP hlook hm hrefs
  have hstart : KnownBy links [] { roots := targets links refs } := by
    intro p
    simp
  obtain ⟨followed, hdepth, hknown⟩ := hstart.walk? hwalk
  rw [List.map_map, show Prod.fst ∘ (fun ref : ρ => (ref, true)) = id from rfl,
    List.map_id] at hdepth
  refine ⟨followed, hdepth, hknown, ?_⟩
  exact hdepth.forall_mem (fun ref _ _ => hm.answer (hlook _)) (by simp) hrefs

end Graph

end Vendoring
