/-
# The steps of a discovery

Whatever a discovery finds, it takes files one by one: a file that has been
claimed is passed over, one without a place is only claimed, and one with a place
is claimed, read and collected, and queued if it was found by listing a
directory. The walks are told apart only by the files that they offer.

What holds at the start of a walk and is kept by every such step holds at its
end, so a property of builds is shown for one step.
-/

import Vendoring.Build.Discovery
import Vendoring.Proofs.Graph.Walk
import Vendoring.Proofs.Placement.Places

namespace Vendoring

/-- The session with one more file claimed. -/
def Session.claim (s : Session) (p : Path) : Session :=
  { s with claimedFiles := s.claimedFiles.insert p () }

/-- The session with one more bundle claimed. -/
def Session.claimDirectory (s : Session) (p : Path) : Session :=
  { s with claimedBundles := s.claimedBundles.insert p () }

theorem Session.dependencyGraph_eq (s : Session) (t : FileTree) (entry : Path)
    (content : Option String) : s.dependencyGraph t entry content =
      (((s.resolver t).dependencyGraph entry content s.references).1,
        { s with references := ((s.resolver t).dependencyGraph entry content s.references).2 }) := by
  rw [Session.dependencyGraph]

theorem Session.componentGraph_eq (s : Session) (t : FileTree) (manifest : Path)
    (content : Option String) : s.componentGraph t manifest content =
      (((s.resolver t).componentGraph manifest content s.components).1,
        { s with components := ((s.resolver t).componentGraph manifest content s.components).2 }) := by
  rw [Session.componentGraph]

/-- A file that is offered to a discovery. -/
structure Candidate where
  file : Path
  /-- The package that it is reached as a part of. -/
  package : String
  /-- Whether it is placed as the main entry of that package. -/
  isMain : Bool
  origin : Placement → Origin
  /-- Whether its own references have to be followed later. -/
  queued : Bool

namespace Candidate

/-- The file that is collected for a candidate at its place. -/
def output (c : Candidate) (p : Placement) (contents : ByteArray) : OutputFile where
  source := p.source
  relative := p.relative
  contents := some contents
  origin := c.origin p

/-- A file that the walk of an import has found. -/
def imported (r : Planner) (n : Path × Node Reference) : Candidate where
  file := n.1
  package := n.2.first.package
  isMain := n.2.isMain || r.isMainFile n.1 n.2.first.package
  origin := .dependency
  queued := false

/-- A file that was found by listing a directory. -/
def listed (r : Planner) (package : String) (detectMain : Bool) (origin : Placement → Origin)
    (file : Path) : Candidate where
  file := file
  package := package
  isMain := detectMain && r.isMainFile file package
  origin := origin
  queued := (FileKind.ofPath file).isRewritable

/-- The files of a bundle. -/
def ofBundle (t : FileTree) (r : Planner) (n : Path × Node ComponentRef) : List Candidate :=
  (t.filesBelow n.2.first.directory).map (.listed r n.2.first.package true .component)

/-- The file that a candidate leaves a discovery as, if it has a place and can be
read there. -/
def Yields (t : FileTree) (r : Planner) (c : Candidate) (f : OutputFile) : Prop :=
  ∃ place contents, r.place? c.file c.package c.isMain = some place ∧
    t.read place.source = .ok contents ∧ f = c.output place contents

section Yields

variable {t : FileTree} {r : Planner} {c : Candidate} {f : OutputFile}

/-- A file is collected under its normal form. -/
theorem Yields.source_eq (h : c.Yields t r f) : f.source = c.file.normalize := by
  obtain ⟨place, contents, hplace, -, rfl⟩ := h
  exact Planner.source_of_place? hplace

theorem Yields.read (h : c.Yields t r f) : ∃ contents, t.read f.source = .ok contents := by
  obtain ⟨place, contents, -, hread, rfl⟩ := h
  exact ⟨contents, hread⟩

theorem Yields.sameAs (h : c.Yields t r f) (hnormal : c.file.normalize.SameAs c.file) :
    f.source.SameAs c.file := by
  rw [h.source_eq]
  exact hnormal

theorem Yields.isShort (h : c.Yields t r f) : FileTree.IsShort c.file.normalize := by
  obtain ⟨contents, hread⟩ := h.read
  rw [h.source_eq] at hread
  exact FileTree.isShort_of_read hread

end Yields

end Candidate

section Calls

variable {α β ε : Type} {x : Except ε α} {f : α → Except ε β}

/-- A sequence of two calls succeeds if both do. -/
theorem exists_of_bind_eq_ok {b : β} (h : x >>= f = .ok b) : ∃ a, x = .ok a ∧ f a = .ok b := by
  cases x with
  | error cause => simp [bind, Except.bind] at h
  | ok a => exact ⟨a, rfl, h⟩

theorem bind_of_eq_ok {a : α} (h : x = .ok a) : x >>= f = f a := by
  rw [h]
  rfl

/-- A call of whose result something can be seen succeeds. -/
theorem exists_of_toOption_map {view : α → β} {b : β} (h : x.toOption.map view = some b) :
    ∃ a, x = .ok a ∧ view a = b := by
  cases x with
  | error cause => simp [Except.toOption] at h
  | ok a => exact ⟨a, rfl, Option.some.inj h⟩

end Calls

/-- One step after the other, for the members of a list. -/
inductive Steps {α σ : Type} (R : α → σ → σ → Prop) : List α → σ → σ → Prop
  | nil (s : σ) : Steps R [] s s
  | cons {a : α} {l : List α} {s s' s'' : σ} : R a s s' → Steps R l s' s'' →
      Steps R (a :: l) s s''

namespace Steps

variable {α β σ ε : Type} {R : α → σ → σ → Prop} {l : List α} {s s' : σ}

/-- What every step keeps is kept by all of them. -/
theorem invariant {P : σ → Prop} (h : Steps R l s s')
    (hstep : ∀ a ∈ l, ∀ s s', R a s s' → P s → P s') (hs : P s) : P s' := by
  induction h with
  | nil => exact hs
  | cons hfirst _ ih =>
    exact ih (fun a ha => hstep a (List.mem_cons_of_mem _ ha)) (hstep _ (by simp) _ _ hfirst hs)

/-- What a step brings about and later steps keep holds of every member. -/
theorem forall_mem {Q : α → σ → Prop} (h : Steps R l s s')
    (hstep : ∀ a s s', R a s s' → Q a s')
    (hkeep : ∀ a b s s', R a s s' → Q b s → Q b s') : ∀ a ∈ l, Q a s' := by
  induction h with
  | nil => simp
  | @cons a l s s' s'' hfirst hrest ih =>
    intro b hb
    rcases List.mem_cons.1 hb with rfl | hb
    · exact hrest.invariant (fun a _ s s' hstep => hkeep a b s s' hstep) (hstep b _ _ hfirst)
    · exact ih b hb

/-- Steps may be described less precisely. -/
theorem imp {R' : α → σ → σ → Prop} (hR : ∀ a s s', R a s s' → R' a s s')
    (h : Steps R l s s') : Steps R' l s s' := by
  induction h with
  | nil => exact .nil _
  | cons hfirst _ ih => exact .cons (hR _ _ _ hfirst) ih

theorem map {f : β → α} {l : List β} (h : Steps (fun b => R (f b)) l s s') :
    Steps R (l.map f) s s' := by
  induction h with
  | nil => exact .nil _
  | cons hfirst _ ih => exact .cons hfirst ih

/-- A fold that succeeds goes through steps, if each of its calls is one. -/
theorem of_foldlM {f : σ → α → Except ε σ} {I : σ → Prop}
    (hstep : ∀ a s s', I s → f s a = .ok s' → R a s s' ∧ I s') (hs : I s)
    (h : l.foldlM f s = .ok s') : Steps R l s s' := by
  induction l generalizing s with
  | nil =>
    obtain rfl := Except.ok.inj h
    exact .nil s
  | cons a l ih =>
    rw [List.foldlM_cons] at h
    obtain ⟨next, hfirst, hrest⟩ := exists_of_bind_eq_ok h
    obtain ⟨hR, hI⟩ := hstep a s next hs hfirst
    exact .cons hR (ih hI hrest)

end Steps

/-- What becomes of a discovery that is offered a file. -/
inductive Taken (t : FileTree) (c : Candidate) (d : Discovery) : Discovery → Prop
  | known : c.file ∈ d.session.claimedFiles → Taken t c d d
  | unplaced : c.file ∉ d.session.claimedFiles →
      d.session.planner.place? c.file c.package c.isMain = none →
      Taken t c d { d with session := d.session.claim c.file }
  | placed {p : Placement} {contents : ByteArray} (events : List Event) :
      c.file ∉ d.session.claimedFiles →
      d.session.planner.place? c.file c.package c.isMain = some p →
      t.read p.source = .ok contents →
      Taken t c d
        { session := d.session.claim c.file
          events := events
          pending := if c.queued then d.pending ++ [c.file] else d.pending
          outputs := d.outputs ++ [c.output p contents] }

/-- What becomes of a discovery that is offered the files of a bundle. -/
inductive TakenBundle (t : FileTree) (r : Planner) (n : Path × Node ComponentRef)
    (d : Discovery) : Discovery → Prop
  | known : n.1 ∈ d.session.claimedBundles → TakenBundle t r n d d
  | new {d' : Discovery} (events : List Event) : n.1 ∉ d.session.claimedBundles →
      Steps (Taken t) (Candidate.ofBundle t r n)
        { d with session := d.session.claimDirectory n.1, events := events } d' →
      TakenBundle t r n d d'

/-- What becomes of a discovery that is offered a file, with what is reported if the file is
collected. -/
inductive TakenWith (t : FileTree) (c : Candidate) (report : List Event) (d : Discovery) :
    Discovery → Prop
  | known : c.file ∈ d.session.claimedFiles → TakenWith t c report d d
  | unplaced : c.file ∉ d.session.claimedFiles →
      d.session.planner.place? c.file c.package c.isMain = none →
      TakenWith t c report d { d with session := d.session.claim c.file }
  | placed {p : Placement} {contents : ByteArray} :
      c.file ∉ d.session.claimedFiles →
      d.session.planner.place? c.file c.package c.isMain = some p →
      t.read p.source = .ok contents →
      TakenWith t c report d
        { session := d.session.claim c.file
          events := d.events ++ report
          pending := if c.queued then d.pending ++ [c.file] else d.pending
          outputs := d.outputs ++ [c.output p contents] }

/-- What becomes of a discovery that is offered the files of a bundle, with what is reported
if the bundle is claimed. -/
inductive TakenBundleWith (t : FileTree) (r : Planner) (n : Path × Node ComponentRef)
    (report : List Event) (d : Discovery) : Discovery → Prop
  | known : n.1 ∈ d.session.claimedBundles → TakenBundleWith t r n report d d
  | new {d' : Discovery} : n.1 ∉ d.session.claimedBundles →
      Steps (fun c => TakenWith t c []) (Candidate.ofBundle t r n)
        { d with session := d.session.claimDirectory n.1, events := d.events ++ report } d' →
      TakenBundleWith t r n report d d'

theorem TakenWith.taken {t : FileTree} {c : Candidate} {report : List Event} {d d' : Discovery}
    (h : TakenWith t c report d d') : Taken t c d d' := by
  cases h with
  | known hfile => exact .known hfile
  | unplaced hnew hplace => exact .unplaced hnew hplace
  | placed hnew hplace hread => exact .placed _ hnew hplace hread

theorem TakenBundleWith.taken {t : FileTree} {r : Planner} {n : Path × Node ComponentRef}
    {report : List Event} {d d' : Discovery} (h : TakenBundleWith t r n report d d') :
    TakenBundle t r n d d' := by
  cases h with
  | known hdir => exact .known hdir
  | new hdir hsteps => exact .new _ hdir (hsteps.imp fun _ _ _ htaken => htaken.taken)

namespace Taken

variable {t : FileTree} {c : Candidate} {d d' : Discovery}

theorem session (h : Taken t c d d') :
    d'.session = { d.session with claimedFiles := d'.session.claimedFiles } := by
  cases h <;> rfl

theorem catalog_eq (h : Taken t c d d') : d'.session.catalog = d.session.catalog := by
  rw [h.session]

theorem settings_eq (h : Taken t c d d') : d'.session.settings = d.session.settings := by
  rw [h.session]

theorem references_eq (h : Taken t c d d') : d'.session.references = d.session.references := by
  rw [h.session]

theorem components_eq (h : Taken t c d d') : d'.session.components = d.session.components := by
  rw [h.session]

theorem claimedBundles_eq (h : Taken t c d d') :
    d'.session.claimedBundles = d.session.claimedBundles := by
  rw [h.session]

/-- The candidate is claimed, and nothing else is. -/
theorem mem_claimedFiles (h : Taken t c d d') (p : Path) :
    p ∈ d'.session.claimedFiles ↔ c.file.SameAs p ∨ p ∈ d.session.claimedFiles := by
  cases h with
  | known hfile =>
    refine ⟨.inr, fun hp => hp.elim (fun hsame => ?_) id⟩
    exact (PathMap.mem_congr _ hsame).1 hfile
  | unplaced => exact PathMap.mem_insert _ _ _ _
  | placed => exact PathMap.mem_insert _ _ _ _

theorem mem_claimedFiles_self (h : Taken t c d d') : c.file ∈ d'.session.claimedFiles :=
  (h.mem_claimedFiles c.file).2 (.inl (Path.SameAs.refl _))

/-- What was claimed stays claimed. -/
theorem claimed (h : Taken t c d d') {p : Path} (hp : p ∈ d.session.claimedFiles) :
    p ∈ d'.session.claimedFiles :=
  (h.mem_claimedFiles p).2 (.inr hp)

/-- Only a candidate that is new and has been read enters the queue. -/
theorem pending_eq (h : Taken t c d d') : d'.pending = d.pending ∨
    c.queued = true ∧ c.file ∉ d.session.claimedFiles ∧
      (∃ f, c.Yields t d.session.planner f) ∧ d'.pending = d.pending ++ [c.file] := by
  cases h with
  | known => exact .inl rfl
  | unplaced => exact .inl rfl
  | placed events hnew hplace hread =>
    cases hqueued : c.queued with
    | false => exact .inl rfl
    | true => exact .inr ⟨rfl, hnew, ⟨_, _, _, hplace, hread, rfl⟩, rfl⟩

/-- Only a candidate that is new and has been read is collected. -/
theorem outputs_eq (h : Taken t c d d') : d'.outputs = d.outputs ∨
    ∃ f, c.file ∉ d.session.claimedFiles ∧ c.Yields t d.session.planner f ∧
      d'.outputs = d.outputs ++ [f] := by
  cases h with
  | known => exact .inl rfl
  | unplaced => exact .inl rfl
  | placed events hnew hplace hread => exact .inr ⟨_, hnew, ⟨_, _, hplace, hread, rfl⟩, rfl⟩

theorem mem_pending (h : Taken t c d d') {p : Path} (hp : p ∈ d'.pending) :
    p ∈ d.pending ∨ p = c.file ∧ c.queued = true ∧ c.file ∉ d.session.claimedFiles ∧
      ∃ f, c.Yields t d.session.planner f := by
  rcases h.pending_eq with heq | ⟨hqueued, hnew, hyields, heq⟩ <;> rw [heq] at hp
  · exact .inl hp
  · exact (List.mem_append.1 hp).imp_right fun hp =>
      ⟨List.mem_singleton.1 hp, hqueued, hnew, hyields⟩

/-- What waits goes on waiting. -/
theorem waits (h : Taken t c d d') {p : Path} (hp : p ∈ d.pending) : p ∈ d'.pending := by
  rcases h.pending_eq with heq | ⟨-, -, -, heq⟩ <;> rw [heq]
  · exact hp
  · exact List.mem_append_left _ hp

/-- A candidate with references that is collected waits. -/
theorem waits_self (h : Taken t c d d') (hnew : c.file ∉ d.session.claimedFiles)
    (hqueued : c.queued = true) {f : OutputFile} (hf : c.Yields t d.session.planner f) :
    c.file ∈ d'.pending := by
  obtain ⟨_, _, hplace, -, -⟩ := hf
  cases h with
  | known hfile => exact absurd hfile hnew
  | unplaced _ hnone => simp [hnone] at hplace
  | placed => simp [hqueued]

theorem mem_outputs (h : Taken t c d d') {f : OutputFile} (hf : f ∈ d'.outputs) :
    f ∈ d.outputs ∨ c.file ∉ d.session.claimedFiles ∧ c.Yields t d.session.planner f := by
  rcases h.outputs_eq with heq | ⟨g, hnew, hyields, heq⟩ <;> rw [heq] at hf
  · exact .inl hf
  · refine (List.mem_append.1 hf).imp_right fun hf => ⟨hnew, ?_⟩
    rwa [List.mem_singleton.1 hf]

theorem mem_collected (h : Taken t c d d') {past : List OutputFile} {f : OutputFile}
    (hf : f ∈ past ++ d'.outputs) : f ∈ past ++ d.outputs ∨
      c.file ∉ d.session.claimedFiles ∧ c.Yields t d.session.planner f := by
  rcases List.mem_append.1 hf with hf | hf
  · exact .inl (List.mem_append_left _ hf)
  · exact (h.mem_outputs hf).imp_left (List.mem_append_right _)

/-- What has been collected stays so. -/
theorem collected (h : Taken t c d d') {past : List OutputFile} {f : OutputFile}
    (hf : f ∈ past ++ d.outputs) : f ∈ past ++ d'.outputs := by
  rcases h.outputs_eq with heq | ⟨g, -, -, heq⟩ <;> rw [heq]
  · exact hf
  · rw [← List.append_assoc]
    exact List.mem_append_left _ hf

/-- A candidate that is new and has a place is collected there. -/
theorem exists_collected (h : Taken t c d d') (hnew : c.file ∉ d.session.claimedFiles)
    {p : Placement} (hplace : d.session.planner.place? c.file c.package c.isMain = some p) :
    ∃ f ∈ d'.outputs, f.source = p.source := by
  cases h with
  | known hfile => exact absurd hfile hnew
  | unplaced _ hnone => simp [hnone] at hplace
  | placed _ _ hplace' =>
    obtain rfl := Option.some.inj (hplace.symm.trans hplace')
    exact ⟨_, List.mem_append_right _ (List.mem_singleton_self _), rfl⟩

/-- A path that is unclaimed or waits was unclaimed or waited before. -/
theorem unclaimed_or_waits (h : Taken t c d d') {q : Path}
    (hq : q ∉ d'.session.claimedFiles ∨ ∃ p ∈ d'.pending, p.SameAs q) :
    q ∉ d.session.claimedFiles ∨ ∃ p ∈ d.pending, p.SameAs q := by
  rcases hq with hnot | ⟨p, hp, hpq⟩
  · exact .inl fun hold => hnot (h.claimed hold)
  · rcases h.mem_pending hp with hp | ⟨rfl, -, hnew, -⟩
    · exact .inr ⟨p, hp, hpq⟩
    · exact .inl fun hold => hnew ((PathMap.mem_congr _ hpq).2 hold)

end Taken

/-- What was claimed stays claimed. -/
theorem Steps.claimed {t : FileTree} {cs : List Candidate} {d d' : Discovery}
    (hsteps : Steps (Taken t) cs d d') {p : Path} (hp : p ∈ d.session.claimedFiles) :
    p ∈ d'.session.claimedFiles :=
  hsteps.invariant (P := fun e => p ∈ e.session.claimedFiles)
    (fun _ _ _ _ htaken he => htaken.claimed he) hp

/-- Every file that is offered is claimed in the end. -/
theorem Steps.claimed_of_mem {t : FileTree} {cs : List Candidate} {d d' : Discovery}
    (hsteps : Steps (Taken t) cs d d') {c : Candidate} (hc : c ∈ cs) :
    c.file ∈ d'.session.claimedFiles :=
  hsteps.forall_mem (Q := fun c e => c.file ∈ e.session.claimedFiles)
    (fun _ _ _ htaken => htaken.mem_claimedFiles_self)
    (fun _ _ _ _ htaken hb => htaken.claimed hb) c hc

namespace TakenBundle

variable {t : FileTree} {r : Planner} {n : Path × Node ComponentRef} {d d' : Discovery}

theorem planner (h : TakenBundle t r n d d') : d'.session.planner = d.session.planner := by
  cases h with
  | known => rfl
  | new _ _ hsteps =>
    refine hsteps.invariant (P := fun d' => d'.session.planner = d.session.planner) ?_ rfl
    intro c _ d d' htaken hd
    rw [htaken.session]
    exact hd

theorem mem_claimedFiles (h : TakenBundle t r n d d') {p : Path}
    (hp : p ∈ d.session.claimedFiles) : p ∈ d'.session.claimedFiles := by
  cases h with
  | known => exact hp
  | new _ _ hsteps =>
    exact hsteps.claimed hp

/-- The bundle is claimed, and no other is. -/
theorem mem_claimedBundles (h : TakenBundle t r n d d') (p : Path) :
    p ∈ d'.session.claimedBundles ↔ n.1.SameAs p ∨ p ∈ d.session.claimedBundles := by
  cases h with
  | known hclaimed =>
    refine ⟨.inr, fun hp => hp.elim (fun hsame => ?_) id⟩
    exact (PathMap.mem_congr _ hsame).1 hclaimed
  | new events _ hsteps =>
    refine hsteps.invariant (P := fun e => p ∈ e.session.claimedBundles ↔
      n.1.SameAs p ∨ p ∈ d.session.claimedBundles) ?_ (PathMap.mem_insert _ _ _ _)
    intro c _ e e' htaken he
    rw [htaken.session]
    exact he

end TakenBundle

namespace Discovery

variable {t : FileTree} {d d' : Discovery}

theorem claimFile?_eq (s : Session) (p : Path) :
    s.claimFile? p = if p ∈ s.claimedFiles then none else some (s.claim p) := by
  by_cases hp : p ∈ s.claimedFiles
  · simp [Session.claimFile?, hp]
  · simp [Session.claimFile?, hp, Session.claim]

theorem push_eq_ok {origin : Placement → Origin} {p : Placement}
    (h : d.push t origin p = .ok d') : ∃ contents, t.read p.source = .ok contents ∧
      d' = { d with outputs := d.outputs ++
        [{ source := p.source
           relative := p.relative
           contents := some contents
           origin := origin p }] } := by
  unfold push at h
  split at h
  · simp at h
  · next contents hread => exact ⟨contents, hread, (Except.ok.inj h).symm⟩

/-- Collecting a file fails only if it cannot be read. -/
theorem exists_push (origin : Placement → Origin) {p : Placement}
    (h : ∃ contents, t.read p.source = .ok contents) : ∃ d', d.push t origin p = .ok d' := by
  obtain ⟨contents, hread⟩ := h
  rw [push, hread]
  exact ⟨_, rfl⟩

theorem exists_takeImport {n : Path × Node Reference}
    (h : ∀ p, d.session.planner.place? n.1 n.2.first.package
      (Candidate.imported d.session.planner n).isMain = some p →
        ∃ contents, t.read p.source = .ok contents) : ∃ d', d.takeImport t n = .ok d' := by
  obtain ⟨file, node⟩ := n
  simp only [takeImport, claimFile?_eq]
  by_cases hfile : file ∈ d.session.claimedFiles
  · simp [hfile]
  · simp only [hfile, if_false]
    split
    · exact ⟨_, rfl⟩
    · next p hplace =>
      have hread := h p hplace
      split
      · exact exists_push _ hread
      · exact exists_push _ hread

theorem exists_inject {package : String} {detectMain : Bool} {origin : Placement → Origin}
    {file : Path} (h : ∀ p, d.session.planner.place? file package
      (Candidate.listed d.session.planner package detectMain origin file).isMain = some p →
        ∃ contents, t.read p.source = .ok contents) :
    ∃ d', inject t package detectMain origin d file = .ok d' := by
  simp only [inject, claimFile?_eq]
  by_cases hfile : file ∈ d.session.claimedFiles
  · simp [hfile]
  · simp only [hfile, if_false]
    split
    · exact ⟨_, rfl⟩
    · next p hplace =>
      obtain ⟨pushed, hpushed⟩ :=
        exists_push (d := { d with session := d.session.claim file }) origin (h p hplace)
      rw [hpushed]
      exact ⟨_, rfl⟩

/-- What is reported of a file that the walk of an import has found. -/
def importReport (n : Path × Node Reference) : List Event :=
  if n.2.isRootLevel then [.dependencyExtracted n.2.first.specifier n.2.first.package] else []

/-- What is reported of a bundle. -/
def bundleReport (n : Path × Node ComponentRef) : List Event :=
  if n.2.isRootLevel then [.componentExtracted n.2.first.specifier n.2.first.package] else []

theorem takeImport_eq_ok {n : Path × Node Reference} (h : d.takeImport t n = .ok d') :
    TakenWith t (.imported d.session.planner n) (importReport n) d d' := by
  obtain ⟨file, node⟩ := n
  simp only [takeImport, claimFile?_eq] at h
  by_cases hfile : file ∈ d.session.claimedFiles
  · simp only [hfile, if_true] at h
    obtain rfl := Except.ok.inj h
    exact .known hfile
  · simp only [hfile, if_false] at h
    split at h
    · next hplace =>
      obtain rfl := Except.ok.inj h
      exact .unplaced hfile hplace
    · next p hplace =>
      obtain ⟨contents, hread, rfl⟩ := push_eq_ok h
      have htaken : TakenWith t (.imported d.session.planner (file, node))
        (importReport (file, node)) d _ := .placed hfile hplace hread
      cases hroot : node.isRootLevel <;>
        simpa [importReport, hroot, emit, Candidate.imported, Candidate.output] using htaken

theorem inject_eq_ok {package : String} {detectMain : Bool} {origin : Placement → Origin}
    {file : Path} (h : inject t package detectMain origin d file = .ok d') :
    TakenWith t (.listed d.session.planner package detectMain origin file) [] d d' := by
  simp only [inject, claimFile?_eq] at h
  by_cases hfile : file ∈ d.session.claimedFiles
  · simp only [hfile, if_true] at h
    obtain rfl := Except.ok.inj h
    exact .known hfile
  · simp only [hfile, if_false] at h
    split at h
    · next hplace =>
      obtain rfl := Except.ok.inj h
      exact .unplaced hfile hplace
    · next p hplace =>
      obtain ⟨pushed, hpush, h⟩ := exists_of_bind_eq_ok h
      obtain ⟨contents, hread, rfl⟩ := push_eq_ok hpush
      obtain rfl := Except.ok.inj h
      have htaken : TakenWith t (.listed d.session.planner package detectMain origin file) [] d _ :=
        .placed hfile hplace hread
      cases hkind : (FileKind.ofPath file).isRewritable <;>
        simpa [Candidate.listed, Candidate.output, hkind] using htaken

theorem injectAll_eq_ok {package : String} {detectMain : Bool} {origin : Placement → Origin}
    {files : List Path} (h : files.foldlM (inject t package detectMain origin) d = .ok d') :
    Steps (fun c => TakenWith t c [])
      (files.map (.listed d.session.planner package detectMain origin)) d d' := by
  refine Steps.map (Steps.of_foldlM (I := fun e => e.session.planner = d.session.planner) ?_ rfl h)
  intro file e e' he heq
  have htaken := inject_eq_ok heq
  rw [he] at htaken
  refine ⟨htaken, ?_⟩
  rw [htaken.taken.session]
  exact he

/-- What becomes of a discovery that is offered a bundle. -/
theorem takeBundle_eq (n : Path × Node ComponentRef) : d.takeBundle t n =
    if n.1 ∈ d.session.claimedBundles then .ok d
    else (t.filesBelow n.2.first.directory).foldlM (inject t n.2.first.package true .component)
      { d with session := d.session.claimDirectory n.1, events := d.events ++ bundleReport n } := by
  obtain ⟨directory, node⟩ := n
  by_cases hdir : directory ∈ d.session.claimedBundles
  · simp [takeBundle, Session.claimBundle?, hdir]
  · simp only [takeBundle, Session.claimBundle?, Std.TreeMap.contains_iff_mem, hdir, if_false]
    cases hroot : node.isRootLevel
    · simp [bundleReport, hroot, Session.claimDirectory]
    · simp [bundleReport, hroot, Session.claimDirectory, emit]

theorem takeBundle_eq_ok {n : Path × Node ComponentRef} (h : d.takeBundle t n = .ok d') :
    TakenBundleWith t d.session.planner n (bundleReport n) d d' := by
  obtain ⟨directory, node⟩ := n
  by_cases hdir : directory ∈ d.session.claimedBundles
  · simp only [takeBundle, Session.claimBundle?, Std.TreeMap.contains_iff_mem, hdir, if_true] at h
    obtain rfl := Except.ok.inj h
    exact .known hdir
  · simp only [takeBundle, Session.claimBundle?, Std.TreeMap.contains_iff_mem, hdir, if_false] at h
    refine .new hdir ?_
    cases hroot : node.isRootLevel with
    | false =>
      simp only [hroot, Bool.false_eq_true, if_false] at h
      rw [show bundleReport (directory, node) = [] by simp [bundleReport, hroot], List.append_nil]
      exact injectAll_eq_ok h
    | true =>
      simp only [hroot, if_true] at h
      rw [show bundleReport (directory, node) = [.componentExtracted node.first.specifier
        node.first.package] by simp [bundleReport, hroot]]
      exact injectAll_eq_ok h

/-- A walk of imports offers the files of the graph, and reports those that its file refers
to itself. -/
theorem extractImports_reports {path : Path} {content : Option String}
    (h : d.extractImports t path content = .ok d') :
    Steps (fun n => TakenWith t (.imported d.session.planner n) (importReport n))
      (d.session.dependencyGraph t path content).1.toList
      { d with session := (d.session.dependencyGraph t path content).2 } d' := by
  refine Steps.of_foldlM (I := fun e => e.session.planner = d.session.planner) ?_ rfl h
  intro n e e' he heq
  have htaken := takeImport_eq_ok heq
  rw [he] at htaken
  refine ⟨htaken, ?_⟩
  rw [htaken.taken.session]
  exact he

/-- A walk of imports offers the files of the graph. -/
theorem extractImports_eq_ok {path : Path} {content : Option String}
    (h : d.extractImports t path content = .ok d') :
    Steps (Taken t)
      ((d.session.dependencyGraph t path content).1.toList.map (.imported d.session.planner))
      { d with session := (d.session.dependencyGraph t path content).2 } d' :=
  Steps.map ((extractImports_reports h).imp fun _ _ _ htaken => htaken.taken)

/-- A walk of components offers the files of the bundles of the graph, and reports those that
its manifest declares itself. -/
theorem extractComponents_reports {path : Path} {content : Option String}
    (h : d.extractComponents t path content = .ok d') :
    Steps (fun n => TakenBundleWith t d.session.planner n (bundleReport n))
      (d.session.componentGraph t path content).1.toList
      { d with session := (d.session.componentGraph t path content).2 } d' := by
  refine Steps.of_foldlM (I := fun e => e.session.planner = d.session.planner) ?_ rfl h
  intro n e e' he heq
  have htaken := takeBundle_eq_ok heq
  rw [he] at htaken
  exact ⟨htaken, htaken.taken.planner.trans he⟩

/-- A walk of components offers the files of the bundles of the graph. -/
theorem extractComponents_eq_ok {path : Path} {content : Option String}
    (h : d.extractComponents t path content = .ok d') :
    Steps (TakenBundle t d.session.planner)
      (d.session.componentGraph t path content).1.toList
      { d with session := (d.session.componentGraph t path content).2 } d' :=
  (extractComponents_reports h).imp fun _ _ _ htaken => htaken.taken

/-! ## Claims stay -/

theorem mem_claimedFiles_walk {path p : Path} {content : Option String}
    (h : d.walk t path content = .ok d') (hp : p ∈ d.session.claimedFiles) :
    p ∈ d'.session.claimedFiles := by
  have himports (h : d.extractImports t path content = .ok d') : p ∈ d'.session.claimedFiles := by
    refine (extractImports_eq_ok h).claimed ?_
    rw [Session.dependencyGraph_eq]
    exact hp
  unfold walk at h
  split at h
  · exact himports h
  · exact himports h
  · refine (extractComponents_eq_ok h).invariant (P := fun e => p ∈ e.session.claimedFiles) ?_ hp
    exact fun n _ e e' htaken he => htaken.mem_claimedFiles he
  · obtain rfl := Except.ok.inj h
    exact hp

/-- What every walk of a queued file keeps holds when the queue has been worked on. -/
theorem drainUpTo_invariant {P : Discovery → Prop}
    (hstep : ∀ d path rest d', P d → d.pending = path :: rest →
      ({ d with pending := rest } : Discovery).walk t path none = .ok d' → P d')
    {bound : Nat} (hd : P d) (h : drainUpTo t bound d = .ok d') : P d' := by
  induction bound generalizing d with
  | zero =>
    obtain rfl := Except.ok.inj h
    exact hd
  | succ bound ih =>
    rw [drainUpTo] at h
    cases hpending : d.pending with
    | nil =>
      simp only [hpending] at h
      obtain rfl := Except.ok.inj h
      exact hd
    | cons path rest =>
      simp only [hpending] at h
      obtain ⟨next, hwalk, h⟩ := exists_of_bind_eq_ok h
      exact ih (hstep d path rest next hd hpending hwalk) h

theorem mem_claimedFiles_drain {p : Path} (h : d.drain t = .ok d')
    (hp : p ∈ d.session.claimedFiles) : p ∈ d'.session.claimedFiles := by
  rw [drain] at h
  exact drainUpTo_invariant (P := fun e => p ∈ e.session.claimedFiles)
    (fun _ _ _ _ hd _ hwalk => mem_claimedFiles_walk hwalk hd) hp h

theorem mem_claimedBundles_walk {path p : Path} {content : Option String}
    (h : d.walk t path content = .ok d') (hp : p ∈ d.session.claimedBundles) :
    p ∈ d'.session.claimedBundles := by
  have himports (h : d.extractImports t path content = .ok d') :
      p ∈ d'.session.claimedBundles := by
    refine (extractImports_eq_ok h).invariant (P := fun e => p ∈ e.session.claimedBundles) ?_ hp
    intro c _ e e' htaken he
    rw [htaken.session]
    exact he
  unfold walk at h
  split at h
  · exact himports h
  · exact himports h
  · refine (extractComponents_eq_ok h).invariant (P := fun e => p ∈ e.session.claimedBundles) ?_ hp
    exact fun n _ e e' htaken he => (htaken.mem_claimedBundles p).2 (.inr he)
  · obtain rfl := Except.ok.inj h
    exact hp

theorem mem_claimedBundles_drain {p : Path} (h : d.drain t = .ok d')
    (hp : p ∈ d.session.claimedBundles) : p ∈ d'.session.claimedBundles := by
  rw [drain] at h
  exact drainUpTo_invariant (P := fun e => p ∈ e.session.claimedBundles)
    (fun _ _ _ _ hd _ hwalk => mem_claimedBundles_walk hwalk hd) hp h

/-! ## The queue -/

theorem drainUpTo_of_nil {bound : Nat} (h : d.pending = []) : drainUpTo t bound d = .ok d := by
  cases bound with
  | zero => rfl
  | succ bound => rw [drainUpTo, h]

theorem drainUpTo_of_cons {bound : Nat} {path : Path} {rest : List Path}
    (h : d.pending = path :: rest) : drainUpTo t (bound + 1) d =
      ({ d with pending := rest } : Discovery).walk t path none >>= drainUpTo t bound := by
  rw [drainUpTo, h]

/-- A file without references is walked to no effect. -/
theorem extractImports_of_nil {path : Path} (hmemo : d.session.references[path]? = none)
    (h : (d.session.resolver t).referencesOf path = []) :
    ∃ d', d.extractImports t path none = .ok d' ∧ d'.pending = d.pending ∧
      d'.outputs = d.outputs := by
  have hgraph : (d.session.dependencyGraph t path none).1.toList = [] := by
    simp only [Session.dependencyGraph, Resolver.dependencyGraph, Memo.fetch, hmemo, h,
      Graph.build_nil]
    rfl
  simp only [extractImports, hgraph]
  exact ⟨_, rfl, rfl, rfl⟩

/-- A manifest without components is walked to no effect. -/
theorem extractComponents_of_nil {path : Path} (hmemo : d.session.components[path]? = none)
    (h : (d.session.resolver t).componentsOf path = []) :
    ∃ d', d.extractComponents t path none = .ok d' ∧ d'.pending = d.pending ∧
      d'.outputs = d.outputs := by
  have hgraph : (d.session.componentGraph t path none).1.toList = [] := by
    simp only [Session.componentGraph, Resolver.componentGraph, Memo.fetch, hmemo, h,
      Graph.build_nil]
    rfl
  simp only [extractComponents, hgraph]
  exact ⟨_, rfl, rfl, rfl⟩

theorem drain_of_walk {path : Path} (h : d.pending = [path])
    (hwalk : ({ d with pending := [] } : Discovery).walk t path none = .ok d')
    (hpending : d'.pending = []) : d.drain t = .ok d' := by
  rw [drain, h, List.length_singleton, Nat.add_comm, drainUpTo_of_cons h, bind_of_eq_ok hwalk]
  exact drainUpTo_of_nil hpending

/-- The queue is worked off as far as the bound goes, and what every walk from the
queue keeps holds in the end. -/
theorem drainUpTo_eq_ok {P : List Path → Discovery → Prop}
    (hstep : ∀ walked d path rest d', P walked d → d.pending = path :: rest →
      ({ d with pending := rest } : Discovery).walk t path none = .ok d' →
      P (walked ++ [path]) d')
    (hlength : ∀ walked d, P walked d → walked.length + d.pending.length ≤ FileTree.pathCount)
    {walked : List Path} {bound : Nat} (hd : P walked d)
    (hbound : FileTree.pathCount ≤ walked.length + bound)
    (h : drainUpTo t bound d = .ok d') : d'.pending = [] ∧ ∃ walked', P walked' d' := by
  induction bound generalizing walked d with
  | zero =>
    obtain rfl := Except.ok.inj h
    have hle := hlength walked d hd
    exact ⟨List.eq_nil_of_length_eq_zero (by omega), walked, hd⟩
  | succ bound ih =>
    rw [drainUpTo] at h
    cases hpending : d.pending with
    | nil =>
      simp only [hpending] at h
      obtain rfl := Except.ok.inj h
      exact ⟨hpending, walked, hd⟩
    | cons path rest =>
      simp only [hpending] at h
      obtain ⟨next, hwalk, h⟩ := exists_of_bind_eq_ok h
      refine ih (hstep walked d path rest next hd hpending hwalk) ?_ h
      simp only [List.length_append, List.length_singleton]
      omega

/-! ## Whole discoveries -/

theorem extractedDir?_congr {s s' : Session} (h : s.catalog = s'.catalog) (entry : String) :
    extractedDir? t s entry = extractedDir? t s' entry := by
  simp only [extractedDir?, h]

theorem ofEntry_reports {s : Session} {entry : String} {package : Package} {dir : Path}
    (hdir : extractedDir? t s entry = some (package, dir)) (h : ofEntry t s entry = .ok d') :
    ∃ injected drained,
      Steps (fun c => TakenWith t c []) ((t.filesBelow dir).map
        (.listed s.planner package.name false .fullExtract)) { session := s } injected ∧
      injected.drain t = .ok drained ∧
      d' = drained.emit (.fullExtractFinished entry injected.outputs.length) := by
  rw [ofEntry, hdir] at h
  obtain ⟨injected, hinjected, h⟩ := exists_of_bind_eq_ok h
  obtain ⟨drained, hdrained, h⟩ := exists_of_bind_eq_ok h
  obtain rfl := Except.ok.inj h
  exact ⟨injected, drained, injectAll_eq_ok hinjected, hdrained, rfl⟩

theorem ofEntry_eq_ok {s : Session} {entry : String} {package : Package} {dir : Path}
    (hdir : extractedDir? t s entry = some (package, dir)) (h : ofEntry t s entry = .ok d') :
    ∃ injected drained,
      Steps (Taken t) ((t.filesBelow dir).map
        (.listed s.planner package.name false .fullExtract)) { session := s } injected ∧
      injected.drain t = .ok drained ∧ d'.session = drained.session ∧
      d'.outputs = drained.outputs := by
  obtain ⟨injected, drained, hsteps, hdrained, rfl⟩ := ofEntry_reports hdir h
  exact ⟨injected, drained, hsteps.imp fun _ _ _ htaken => htaken.taken, hdrained, rfl, rfl⟩

theorem ofEntry_of_drain {s : Session} {injected drained : Discovery} {entry : String}
    {package : Package} {dir : Path} (hdir : extractedDir? t s entry = some (package, dir))
    (hinjected : (t.filesBelow dir).foldlM (inject t package.name false .fullExtract)
      ({ session := s } : Discovery) = .ok injected)
    (hdrained : injected.drain t = .ok drained) :
    ∃ d, ofEntry t s entry = .ok d ∧ d.outputs = drained.outputs := by
  simp only [ofEntry, hdir]
  rw [bind_of_eq_ok hinjected, bind_of_eq_ok hdrained]
  exact ⟨_, rfl, rfl⟩

theorem ofInput_eq_ok {s : Session} {input : SourceFile} {bytes : ByteArray}
    (hbytes : input.contents = some bytes) (h : ofInput t s input = .ok d') :
    ∃ walked, ({ session := s } : Discovery).walk t input.path
        (some (Text.decodeLossy bytes)) = .ok walked ∧ walked.drain t = .ok d' := by
  rw [ofInput, hbytes] at h
  exact exists_of_bind_eq_ok h

end Discovery

end Vendoring
