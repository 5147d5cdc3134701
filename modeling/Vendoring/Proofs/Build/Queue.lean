/-
# The queue of a discovery

A file is queued when it is claimed and read. So no file is queued twice, and
each has a normal form that can lead somewhere, which bounds the files that a
queue ever holds.
-/

import Vendoring.Proofs.Build.Steps

namespace Vendoring

/-- Paths whose normal forms are their own and can lead somewhere are bounded in number. -/
theorem FileTree.length_le_of_normal {paths : List Path}
    (hdistinct : paths.Pairwise fun p q => ¬p.SameAs q)
    (hnormal : ∀ p ∈ paths, p.normalize.SameAs p ∧ IsShort p.normalize) :
    paths.length ≤ pathCount := by
  have hforms : (paths.map Path.normalize).Pairwise fun p q => ¬p.SameAs q := by
    refine List.pairwise_map.2 (hdistinct.imp_of_mem ?_)
    intro p q hp hq hne hsame
    exact hne (((hnormal p hp).1.symm.trans hsame).trans (hnormal q hq).1)
  have hle := length_le_pathCount hforms fun p hp => by
    obtain ⟨q, hq, rfl⟩ := List.mem_map.1 hp
    exact (hnormal q hq).2
  simpa using hle

/-- The files that have been walked and those that wait, all of them claimed and
readable. -/
structure Discovery.IsQueued (walked : List Path) (d : Discovery) : Prop where
  claimed : ∀ p ∈ walked ++ d.pending, p ∈ d.session.claimedFiles
  distinct : (walked ++ d.pending).Pairwise fun p q => ¬p.SameAs q
  /-- The normal form is another spelling of the file, and leads somewhere. -/
  normal : ∀ p ∈ walked ++ d.pending, p.normalize.SameAs p ∧ FileTree.IsShort p.normalize

namespace Discovery.IsQueued

variable {t : FileTree} {d d' : Discovery} {walked rest : List Path} {path : Path} {c : Candidate}

theorem length_le (h : IsQueued walked d) :
    walked.length + d.pending.length ≤ FileTree.pathCount := by
  rw [← List.length_append]
  exact FileTree.length_le_of_normal h.distinct h.normal

theorem start (s : Session) : IsQueued [] ({ session := s } : Discovery) where
  claimed := by simp
  distinct := by simp
  normal := by simp

/-- A file that is taken out of the queue counts as walked. -/
theorem pop (h : IsQueued walked d) (hpending : d.pending = path :: rest) :
    IsQueued (walked ++ [path]) { d with pending := rest } := by
  have hlist : (walked ++ [path]) ++ rest = walked ++ d.pending := by simp [hpending]
  constructor
  · intro p hp
    exact h.claimed p (hlist ▸ hp)
  · exact hlist ▸ h.distinct
  · intro p hp
    exact h.normal p (hlist ▸ hp)

/-- Claiming more in a session leaves the queue alone. -/
theorem of_session (h : IsQueued walked d) {s : Session} {events : List Event}
    (hs : s.claimedFiles = d.session.claimedFiles) :
    IsQueued walked { d with session := s, events := events } where
  claimed p hp := by
    rw [hs]
    exact h.claimed p hp
  distinct := h.distinct
  normal := h.normal

theorem taken (h : IsQueued walked d) (htaken : Taken t c d d')
    (hnormal : c.queued = true → c.file.normalize.SameAs c.file) : IsQueued walked d' := by
  rcases htaken.pending_eq with hpending | ⟨hqueued, hnew, ⟨f, hyields⟩, hpending⟩
  · constructor
    · rw [hpending]
      exact fun p hp => htaken.claimed (h.claimed p hp)
    · exact hpending ▸ h.distinct
    · exact hpending ▸ h.normal
  · have hlist : walked ++ d'.pending = (walked ++ d.pending) ++ [c.file] := by
      rw [hpending, List.append_assoc]
    constructor
    · rw [hlist]
      intro p hp
      rcases List.mem_append.1 hp with hp | hp
      · exact htaken.claimed (h.claimed p hp)
      · rw [List.mem_singleton.1 hp]
        exact htaken.mem_claimedFiles_self
    · rw [hlist]
      refine List.pairwise_append.2 ⟨h.distinct, by simp, ?_⟩
      intro p hp q hq hsame
      rw [List.mem_singleton.1 hq] at hsame
      exact hnew ((PathMap.mem_congr _ hsame).1 (h.claimed p hp))
    · rw [hlist]
      intro p hp
      rcases List.mem_append.1 hp with hp | hp
      · exact h.normal p hp
      · rw [List.mem_singleton.1 hp]
        exact ⟨hnormal hqueued, hyields.isShort⟩

end Discovery.IsQueued

end Vendoring
