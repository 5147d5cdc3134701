/-
# Memories that agree with the tree

A memory is of no account as long as it gives for every plain path what would be
looked up. Such a memory is kept by everything that is fetched under a plain
path, and under another spelling too if the look-up does not depend on it. A
graph that is built with it is the one of the walk that always looks up.
-/

import Vendoring.Proofs.Graph.Walk

namespace Vendoring

variable {ρ : Type}

namespace Memo

/-- What is remembered about plain paths is what would be looked up. -/
def Agrees (m : Memo ρ) (lookUp : Path → List ρ) : Prop :=
  ∀ q, q.IsPlain → m.answer lookUp q = lookUp q

variable {m : Memo ρ} {lookUp : Path → List ρ} {p q : Path}

theorem agrees_empty (lookUp : Path → List ρ) : (∅ : Memo ρ).Agrees lookUp :=
  fun q _ => answer_empty lookUp q

/-- What is remembered under a plain path is given for its other spellings. -/
theorem Agrees.answer (h : m.Agrees lookUp) (hq : q.IsPlain) (hsame : p.SameAs q)
    (hlook : lookUp p = lookUp q) : m.answer lookUp p = lookUp p := by
  have hget : m[p]? = m[q]? := hsame.getElem? m
  cases hknown : m[q]? with
  | none => exact answer_of_getElem?_eq_none m lookUp (hget.trans hknown)
  | some refs => rw [answer_of_sameAs m lookUp hsame (hget.trans hknown), h q hq, hlook]

theorem Agrees.fetch (h : m.Agrees lookUp) (hq : q.IsPlain) (hsame : p.SameAs q)
    (hlook : lookUp p = lookUp q) : (m.fetch p lookUp).2.Agrees lookUp := by
  intro q' hq'
  by_cases hpq' : p.SameAs q'
  · have hfound : (m.fetch p lookUp).2[q']? = some (m.answer lookUp p) := by
      rw [getElem?_fetch, if_pos hpq']
    obtain rfl : q = q' := (hsame.symm.trans hpq').eq_of_isPlain hq hq'
    rw [Memo.answer, Memo.fetch, hfound, h.answer hq hsame hlook, hlook]
  · rw [answer_fetch_of_not_sameAs m lookUp hpq', h q' hq']

/-- What holds of everything that would be looked up holds of what is remembered. -/
theorem Agrees.all {P : ρ → Prop} (h : m.Agrees lookUp) (hlook : ∀ q, ∀ ref ∈ lookUp q, P ref) :
    m.All P := by
  intro p refs hp ref hmem
  obtain ⟨q, hq, hsame⟩ := p.exists_isPlain
  have hknown : m[q]? = some refs := by rw [← hsame.getElem? m, hp]
  have hanswer : m.answer lookUp q = refs := by simp [Memo.answer, Memo.fetch, hknown]
  rw [h q hq] at hanswer
  exact hlook q ref (hanswer ▸ hmem)

end Memo

namespace Graph

variable {links : Links ρ} {edges : Path → List ρ} {refs : List ρ} {m : Memo ρ}

/-- The bound does not decide where a walk ends. -/
theorem walk?_unique {bound bound' : Nat} {todo : List (ρ × Bool)} {g g' start : Graph ρ}
    (h : walk? links edges bound todo start = some g)
    (h' : walk? links edges bound' todo start = some g') : g = g' := by
  rcases Nat.le_total bound bound' with hle | hle
  · exact Option.some.inj ((walk?_mono hle h).symm.trans h')
  · exact Option.some.inj (h.symm.trans (walk?_mono hle h'))

/-- A graph is built as without a memory if the memory agrees with what is looked
up, and the memory goes on to agree. -/
theorem build_of_agrees (hm : m.Agrees links.lookUp)
    (hlook : ∀ p, ∀ ref ∈ links.lookUp p,
      (links.source ref).IsPlain ∧ FileTree.IsShort (links.key ref))
    (hrefs : ∀ ref ∈ refs, (links.source ref).IsPlain ∧ FileTree.IsShort (links.key ref)) :
    (∃ bound, walk? links links.lookUp bound (refs.map (·, true))
      { roots := targets links refs } = some (build links refs m).1) ∧
    (build links refs m).2.Agrees links.lookUp := by
  have htodo : ∀ x ∈ refs.map (·, true),
      (links.source x.1).IsPlain ∧ FileTree.IsShort (links.key x.1) := by
    intro x hx
    obtain ⟨ref, hmem, rfl⟩ := List.mem_map.1 hx
    exact hrefs ref hmem
  obtain ⟨g, hwalk⟩ : ∃ g, walk? links links.lookUp (FileTree.pathCount + m.total)
      (refs.map (·, true)) { roots := targets links refs } = some g :=
    exists_walk? (fun p ref hmem => (hlook p ref hmem).2) (fun x hx => (htodo x hx).2)
      (fun p hp => by simp at hp) (by omega)
  obtain ⟨hgraph, hmemo⟩ := follow_of_walk? hm (fun q ref hmem => (hlook q ref hmem).1)
    (fun x hx => (htodo x hx).1) hwalk
  rw [build, hgraph]
  exact ⟨⟨_, hwalk⟩, hmemo⟩

end Graph

end Vendoring
