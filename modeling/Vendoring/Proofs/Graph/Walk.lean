/-
# The walk behind a graph

What is remembered about files only saves looking them up again. The graph that
is built with a memory is the one of a walk that asks one fixed function for the
references of a file, as long as that function is asked about plain paths, which
no other spelling answers for. The walk comes to an end because each new place
has a spelling that leads somewhere, so a larger bound on it changes nothing.
-/

import Vendoring.Graph.Basic
import Vendoring.Proofs.Path.Keys

namespace Vendoring

variable {ρ : Type}

namespace Memo

variable (m : Memo ρ) (lookUp : Path → List ρ) {p q : Path}

/-- What is remembered about a file, or what is looked up about it. -/
def answer (file : Path) : List ρ := (m.fetch file lookUp).1

theorem answer_of_getElem?_eq_none (h : m[p]? = none) : m.answer lookUp p = lookUp p := by
  rw [answer, fetch, h]

theorem answer_empty (p : Path) : (∅ : Memo ρ).answer lookUp p = lookUp p :=
  answer_of_getElem?_eq_none _ lookUp (by simp)

theorem getElem?_fetch : (m.fetch p lookUp).2[q]? =
    if p.SameAs q then some (m.answer lookUp p) else m[q]? := by
  unfold answer fetch
  split
  · next known hp =>
    by_cases hpq : p.SameAs q
    · rw [if_pos hpq, ← hpq.getElem?, hp]
    · rw [if_neg hpq]
  · exact PathMap.getElem?_insert m p q _

theorem answer_congr {m' : Memo ρ} (h : m[p]? = m'[p]?) :
    m.answer lookUp p = m'.answer lookUp p := by
  unfold answer fetch
  rw [h]
  cases m'[p]? <;> rfl

/-- What is remembered about a file is given for every spelling of it. -/
theorem answer_of_sameAs {refs : List ρ} (hsame : p.SameAs q) (h : m[p]? = some refs) :
    m.answer lookUp p = m.answer lookUp q := by
  have hq : m[q]? = some refs := (hsame.getElem? m).symm.trans h
  rw [answer, answer, fetch, fetch, h, hq]

/-- Looking up one file changes no answer about another. -/
theorem answer_fetch_of_not_sameAs (hpq : ¬p.SameAs q) :
    (m.fetch p lookUp).2.answer lookUp q = m.answer lookUp q := by
  have hkept : (m.fetch p lookUp).2[q]? = m[q]? := by
    rw [getElem?_fetch, if_neg hpq]
  exact answer_congr _ lookUp hkept

/-- Looking up one plain path changes no answer about a plain path. -/
theorem answer_fetch (hp : p.IsPlain) (hq : q.IsPlain) :
    (m.fetch p lookUp).2.answer lookUp q = m.answer lookUp q := by
  by_cases hpq : p.SameAs q
  · obtain rfl : p = q := hpq.eq_of_isPlain hp hq
    have hfound : (m.fetch p lookUp).2[p]? = some (m.answer lookUp p) := by
      rw [getElem?_fetch, if_pos hpq]
    rw [answer, fetch, hfound]
  · exact answer_fetch_of_not_sameAs m lookUp hpq

/-- Something holds of every reference that is remembered. -/
def All (P : ρ → Prop) (m : Memo ρ) : Prop :=
  ∀ (p : Path) (refs : List ρ), m[p]? = some refs → ∀ ref ∈ refs, P ref

variable {m lookUp} {P : ρ → Prop}

theorem all_empty : (∅ : Memo ρ).All P := by
  intro p refs hp
  simp at hp

theorem All.answer (hm : m.All P) (hlook : ∀ ref ∈ lookUp p, P ref) :
    ∀ ref ∈ m.answer lookUp p, P ref := by
  cases hp : m[p]? with
  | none =>
    rw [answer_of_getElem?_eq_none m lookUp hp]
    exact hlook
  | some refs =>
    rw [Memo.answer, Memo.fetch, hp]
    exact hm p refs hp

theorem All.fetch (hm : m.All P) (hlook : ∀ ref ∈ lookUp p, P ref) :
    (m.fetch p lookUp).2.All P := by
  intro q refs hq
  rw [getElem?_fetch] at hq
  split at hq
  · obtain rfl := Option.some.inj hq
    exact hm.answer hlook
  · exact hm q refs hq

end Memo

namespace Graph

variable (links : Links ρ) (edges : Path → List ρ)

/-- The walk with a fixed function for the references of a file. It gives nothing
if the bound is too small for it to come to an end. -/
def walk? (bound : Nat) (todo : List (ρ × Bool)) (g : Graph ρ) : Option (Graph ρ) :=
  match bound, g.followKnown links todo with
  | _, (g, none) => some g
  | 0, (_, some _) => none
  | bound + 1, (g, some (ref, atRoot, rest)) =>
    let onward := edges (links.source ref)
    walk? bound (onward.map (·, false) ++ rest) (g.addNode links ref atRoot onward)

variable {links edges} {g g' : Graph ρ} {todo rest : List (ρ × Bool)} {ref : ρ} {atRoot : Bool}
variable {bound : Nat}

theorem walk?_of_none (h : g.followKnown links todo = (g', none)) :
    walk? links edges bound todo g = some g' := by
  cases bound <;> (unfold walk?; rw [h])

theorem follow_of_none {m : Memo ρ} (h : g.followKnown links todo = (g', none)) :
    follow links bound todo g m = (g', m) := by
  cases bound <;> (unfold follow; rw [h])

theorem build_nil (m : Memo ρ) : build links [] m = ({ roots := targets links [] }, m) :=
  follow_of_none rfl

theorem walk?_zero (h : g.followKnown links todo = (g', some (ref, atRoot, rest))) :
    walk? links edges 0 todo g = none := by
  unfold walk?
  rw [h]

theorem walk?_succ (h : g.followKnown links todo = (g', some (ref, atRoot, rest))) :
    walk? links edges (bound + 1) todo g =
      walk? links edges bound ((edges (links.source ref)).map (·, false) ++ rest)
        (g'.addNode links ref atRoot (edges (links.source ref))) := by
  rw [walk?.eq_def, h]

/-- The references that are passed over come before the one that leads to a new
place, which is not left out. -/
theorem followKnown_eq_some (h : g.followKnown links todo = (g', some (ref, atRoot, rest))) :
    (∃ done, todo = done ++ (ref, atRoot) :: rest) ∧ links.omits (links.key ref) = false ∧
      links.key ref ∉ g'.nodes := by
  induction todo generalizing g with
  | nil => simp [followKnown] at h
  | cons x todo ih =>
    obtain ⟨next, atRoot'⟩ := x
    rw [followKnown] at h
    split at h
    · obtain ⟨⟨done, rfl⟩, hnew⟩ := ih h
      exact ⟨⟨(next, atRoot') :: done, rfl⟩, hnew⟩
    · next homits =>
      split at h
      · obtain ⟨⟨done, rfl⟩, hnew⟩ := ih h
        exact ⟨⟨(next, atRoot') :: done, rfl⟩, hnew⟩
      · next hcontains =>
        obtain ⟨rfl, hnext⟩ := Prod.mk.inj h
        obtain ⟨rfl, hrest⟩ := Prod.mk.inj (Option.some.inj hnext)
        obtain ⟨rfl, rfl⟩ := Prod.mk.inj hrest
        exact ⟨⟨[], rfl⟩, by simpa using homits,
          fun hmem => hcontains (Std.TreeMap.contains_iff_mem.2 hmem)⟩

theorem nodes_relink_mem {p : Path} : p ∈ (g.relink links ref atRoot).nodes ↔ p ∈ g.nodes :=
  PathMap.mem_modify _ _ _ _

/-- Passing over references adds no place. -/
theorem mem_followKnown {p : Path} {next : Option (ρ × Bool × List (ρ × Bool))}
    (h : g.followKnown links todo = (g', next)) : p ∈ g'.nodes ↔ p ∈ g.nodes := by
  induction todo generalizing g with
  | nil =>
    obtain ⟨rfl, -⟩ : g = g' ∧ none = next := by simpa [followKnown] using h
    rfl
  | cons x todo ih =>
    obtain ⟨ref, atRoot⟩ := x
    rw [followKnown] at h
    split at h
    · exact ih h
    · split at h
      · exact (ih h).trans nodes_relink_mem
      · obtain ⟨rfl, -⟩ := Prod.mk.inj h
        rfl

theorem size_followKnown {next : Option (ρ × Bool × List (ρ × Bool))}
    (h : g.followKnown links todo = (g', next)) : g'.nodes.size = g.nodes.size := by
  induction todo generalizing g with
  | nil =>
    obtain ⟨rfl, -⟩ : g = g' ∧ none = next := by simpa [followKnown] using h
    rfl
  | cons x todo ih =>
    obtain ⟨ref, atRoot⟩ := x
    rw [followKnown] at h
    split at h
    · exact ih h
    · split at h
      · exact (ih h).trans Std.TreeMap.size_modify
      · obtain ⟨rfl, -⟩ := Prod.mk.inj h
        rfl

theorem size_addNode {onward : List ρ} (h : links.key ref ∉ g.nodes) :
    (g.addNode links ref atRoot onward).nodes.size = g.nodes.size + 1 := by
  rw [addNode]
  exact PathMap.size_insert_of_not_mem _ h

/-- A walk that has come to an end is the same under a larger bound. -/
theorem walk?_mono {bound' : Nat} (hle : bound ≤ bound')
    (h : walk? links edges bound todo g = some g') :
    walk? links edges bound' todo g = some g' := by
  induction bound generalizing bound' todo g with
  | zero =>
    match hfollow : g.followKnown links todo with
    | (known, none) =>
      rw [walk?_of_none hfollow] at h ⊢
      exact h
    | (known, some (ref, atRoot, rest)) => simp [walk?_zero hfollow] at h
  | succ bound ih =>
    match hfollow : g.followKnown links todo with
    | (known, none) =>
      rw [walk?_of_none hfollow] at h ⊢
      exact h
    | (known, some (ref, atRoot, rest)) =>
      obtain ⟨larger, rfl⟩ : ∃ larger, bound' = larger + 1 := ⟨bound' - 1, by omega⟩
      rw [walk?_succ hfollow] at h ⊢
      exact ih (by omega) h

/-! ## The end of the walk -/

/-- Every place of the graph has a spelling that is short enough to lead
somewhere. -/
def AllShort (g : Graph ρ) : Prop := ∀ p ∈ g.nodes, ∃ q, p.SameAs q ∧ FileTree.IsShort q

theorem AllShort.addNode {onward : List ρ} (h : g.AllShort)
    (hshort : FileTree.IsShort (links.key ref)) :
    (g.addNode links ref atRoot onward).AllShort := by
  intro p hp
  rcases (PathMap.mem_insert _ _ _ _).1 hp with hsame | hp
  · exact ⟨links.key ref, hsame.symm, hshort⟩
  · exact h p hp

/-- A walk along references to short paths comes to an end. -/
theorem exists_walk? (hedges : ∀ p, ∀ ref ∈ edges p, FileTree.IsShort (links.key ref))
    (htodo : ∀ x ∈ todo, FileTree.IsShort (links.key x.1)) (hg : g.AllShort)
    (hbound : FileTree.pathCount ≤ g.nodes.size + bound) :
    ∃ g', walk? links edges bound todo g = some g' := by
  induction bound generalizing todo g with
  | zero =>
    match hfollow : g.followKnown links todo with
    | (known, none) => exact ⟨known, walk?_of_none hfollow⟩
    | (known, some (ref, atRoot, rest)) =>
      -- one more place would be one more than there are
      obtain ⟨⟨done, rfl⟩, -, hnew⟩ := followKnown_eq_some hfollow
      have hknown : known.AllShort := fun p hp => hg p ((mem_followKnown hfollow).1 hp)
      have hlonger : (known.addNode links ref atRoot []).AllShort :=
        hknown.addNode (htodo (ref, atRoot) (by simp))
      have hmore := PathMap.size_le_pathCount _ hlonger
      have hsize := size_followKnown hfollow
      rw [size_addNode hnew] at hmore
      omega
  | succ bound ih =>
    match hfollow : g.followKnown links todo with
    | (known, none) => exact ⟨known, walk?_of_none hfollow⟩
    | (known, some (ref, atRoot, rest)) =>
      obtain ⟨⟨done, rfl⟩, -, hnew⟩ := followKnown_eq_some hfollow
      have hknown : known.AllShort := fun p hp => hg p ((mem_followKnown hfollow).1 hp)
      have hsize := size_followKnown hfollow
      rw [walk?_succ hfollow]
      refine ih ?_ (hknown.addNode (htodo (ref, atRoot) (by simp))) ?_
      · intro x hx
        rcases List.mem_append.1 hx with hx | hx
        · obtain ⟨onward, honward, rfl⟩ := List.mem_map.1 hx
          exact hedges _ onward honward
        · exact htodo x (by simp [hx])
      · rw [size_addNode hnew]
        omega

/-! ## The memory of the walk -/

/-- With a memory that answers as `edges` does, following references comes to the
graph of the walk, and the memory answers as before. -/
theorem follow_of_walk? {m : Memo ρ}
    (hm : ∀ q, q.IsPlain → m.answer links.lookUp q = edges q)
    (hedges : ∀ q, ∀ ref ∈ edges q, (links.source ref).IsPlain)
    (htodo : ∀ x ∈ todo, (links.source x.1).IsPlain)
    (h : walk? links edges bound todo g = some g') :
    (follow links bound todo g m).1 = g' ∧
      ∀ q, q.IsPlain → (follow links bound todo g m).2.answer links.lookUp q = edges q := by
  induction bound generalizing todo g m with
  | zero =>
    match hfollow : g.followKnown links todo with
    | (known, none) =>
      rw [walk?_of_none hfollow, Option.some.injEq] at h
      simpa [follow, hfollow, h] using hm
    | (known, some (ref, atRoot, rest)) => simp [walk?_zero hfollow] at h
  | succ bound ih =>
    match hfollow : g.followKnown links todo with
    | (known, none) =>
      rw [walk?_of_none hfollow, Option.some.injEq] at h
      simpa [follow, hfollow, h] using hm
    | (known, some (ref, atRoot, rest)) =>
      obtain ⟨⟨done, rfl⟩, -, -⟩ := followKnown_eq_some hfollow
      have hsource : (links.source ref).IsPlain := htodo (ref, atRoot) (by simp)
      have honward : (m.fetch (links.source ref) links.lookUp).1 = edges (links.source ref) :=
        hm _ hsource
      rw [walk?_succ hfollow] at h
      have hstep : follow links (bound + 1) (done ++ (ref, atRoot) :: rest) g m =
          follow links bound ((edges (links.source ref)).map (·, false) ++ rest)
            (known.addNode links ref atRoot (edges (links.source ref)))
            (m.fetch (links.source ref) links.lookUp).2 := by
        rw [follow.eq_def, hfollow]
        simp only [honward]
      rw [hstep]
      refine ih ?_ ?_ h
      · intro q hq
        rw [Memo.answer_fetch m links.lookUp hsource hq, hm q hq]
      · intro x hx
        rcases List.mem_append.1 hx with hx | hx
        · obtain ⟨onward, hmem, rfl⟩ := List.mem_map.1 hx
          exact hedges _ onward hmem
        · exact htodo x (by simp [hx])

/-! ## What a walk comes across -/

/-- Something holds of every reference by which a place of the graph is known. -/
def All (P : ρ → Prop) (g : Graph ρ) : Prop :=
  ∀ (p : Path) (n : Node ρ), g.nodes[p]? = some n → P n.first

variable {P : ρ → Prop}

theorem All.relink (hg : g.All P) : (g.relink links ref atRoot).All P := by
  intro p n hn
  rw [Graph.relink, PathMap.getElem?_modify] at hn
  split at hn
  · obtain ⟨old, hold, rfl⟩ := Option.map_eq_some_iff.1 hn
    exact hg _ old hold
  · exact hg p n hn

theorem All.addNode {onward : List ρ} (hg : g.All P) (href : P ref) :
    (g.addNode links ref atRoot onward).All P := by
  intro p n hn
  rw [Graph.addNode, PathMap.getElem?_insert] at hn
  split at hn
  · obtain rfl := Option.some.inj hn
    exact href
  · exact hg p n hn

theorem All.followKnown {next : Option (ρ × Bool × List (ρ × Bool))} (hg : g.All P)
    (h : g.followKnown links todo = (g', next)) : g'.All P := by
  induction todo generalizing g with
  | nil =>
    obtain ⟨rfl, -⟩ : g = g' ∧ none = next := by simpa [Graph.followKnown] using h
    exact hg
  | cons x todo ih =>
    obtain ⟨ref, atRoot⟩ := x
    rw [Graph.followKnown] at h
    split at h
    · exact ih hg h
    · split at h
      · exact ih hg.relink h
      · obtain ⟨rfl, -⟩ := Prod.mk.inj h
        exact hg

/-- What holds of the references at hand, and of those looked up from a place of
which it holds, holds of everything that the walk comes across. -/
theorem all_follow {m : Memo ρ}
    (hlook : ∀ ref, P ref → ∀ next ∈ links.lookUp (links.source ref), P next)
    (hm : m.All P) (htodo : ∀ x ∈ todo, P x.1) (hg : g.All P) :
    (follow links bound todo g m).1.All P ∧ (follow links bound todo g m).2.All P := by
  induction bound generalizing todo g m with
  | zero =>
    match hfollow : g.followKnown links todo with
    | (known, none) =>
      rw [follow.eq_def, hfollow]
      exact ⟨hg.followKnown hfollow, hm⟩
    | (known, some (ref, atRoot, rest)) =>
      rw [follow.eq_def, hfollow]
      exact ⟨hg.followKnown hfollow, hm⟩
  | succ bound ih =>
    match hfollow : g.followKnown links todo with
    | (known, none) =>
      rw [follow.eq_def, hfollow]
      exact ⟨hg.followKnown hfollow, hm⟩
    | (known, some (ref, atRoot, rest)) =>
      obtain ⟨⟨done, rfl⟩, -, -⟩ := followKnown_eq_some hfollow
      have href : P ref := htodo (ref, atRoot) (by simp)
      rw [follow.eq_def, hfollow]
      refine ih (hm.fetch (hlook ref href)) ?_ ((hg.followKnown hfollow).addNode href)
      intro x hx
      rcases List.mem_append.1 hx with hx | hx
      · obtain ⟨onward, hmem, rfl⟩ := List.mem_map.1 hx
        exact hm.answer (hlook ref href) onward hmem
      · exact htodo x (by simp [hx])

theorem all_build {refs : List ρ} {m : Memo ρ}
    (hlook : ∀ ref, P ref → ∀ next ∈ links.lookUp (links.source ref), P next)
    (hm : m.All P) (hrefs : ∀ ref ∈ refs, P ref) :
    (build links refs m).1.All P ∧ (build links refs m).2.All P := by
  refine all_follow hlook hm ?_ ?_
  · intro x hx
    obtain ⟨ref, hmem, rfl⟩ := List.mem_map.1 hx
    exact hrefs ref hmem
  · intro p n hn
    simp at hn

end Graph

end Vendoring
