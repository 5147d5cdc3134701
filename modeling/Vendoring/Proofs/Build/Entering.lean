/-
# What enters the queues of a session

Every discovery has a queue of its own, and all that is asked of a session takes part in
its claims. The functions below go through a discovery once more and note the paths that
enter its queue, also if the discovery is stopped. A session changes by what it remembers
and by what is claimed, and a path enters a queue only when it is claimed by that, so
nothing ever enters twice.
-/

import Vendoring.Build.Run
import Vendoring.Proofs.Build.Steps

namespace Vendoring

/-! ## What is noted -/

/-- What is noted of a result, if there is one. -/
def notedOf {σ ε β : Type} (x : Except ε σ) (note : σ → List β) : List β :=
  match x with
  | .ok s => note s
  | .error _ => []

@[simp]
theorem notedOf_ok {σ ε β : Type} (s : σ) (note : σ → List β) :
    notedOf (.ok s : Except ε σ) note = note s := rfl

/-- What is noted of some steps, one after the other, up to the first that fails. -/
def noted {σ α ε β : Type} (step : σ → α → Except ε σ) (note : σ → α → List β) :
    List α → σ → List β
  | [], _ => []
  | a :: l, s => note s a ++ notedOf (step s a) (noted step note l)

theorem noted_nothing {σ α ε β : Type} (step : σ → α → Except ε σ) (l : List α) (s : σ) :
    noted step (fun _ _ => ([] : List β)) l s = [] := by
  induction l generalizing s with
  | nil => rfl
  | cons a l ih =>
    rw [noted]
    cases step s a with
    | error cause => rfl
    | ok s' => exact ih s'

/-- The session that a discovery leaves, also if it was stopped. -/
def Discovered.session : Discovered → Session
  | .ok d => d.session
  | .error h => h.session

namespace Discovery

variable (t : FileTree)

/-- The path that enters the queue when a file is taken from a listing, if one does. -/
def enteredByFile (package : String) (detectMain : Bool) (origin : Placement → Origin)
    (d : Discovery) (file : Path) : List Path :=
  notedOf (inject t package detectMain origin d file) fun d' =>
    d'.pending.drop d.pending.length

/-- The paths that enter the queue when the files of a listing are taken. -/
def enteredByFiles (package : String) (detectMain : Bool) (origin : Placement → Origin)
    (files : List Path) (d : Discovery) : List Path :=
  noted (inject t package detectMain origin) (enteredByFile t package detectMain origin) files d

/-- The paths that enter the queue when a bundle is taken. -/
def enteredByBundle (d : Discovery) (n : Path × Node ComponentRef) : List Path :=
  if n.1 ∈ d.session.claimedBundles then []
  else enteredByFiles t n.2.first.package true .component (t.filesBelow n.2.first.directory)
    { d with session := d.session.claimDirectory n.1, events := d.events ++ bundleReport n }

/-- The paths that enter the queue when the references of a file are followed. -/
def enteredByWalk (path : Path) (content : Option String) (d : Discovery) : List Path :=
  match FileKind.ofPath path with
  | .manifest =>
    let (g, session) := d.session.componentGraph t path content
    noted (takeBundle t) (enteredByBundle t) g.toList { d with session := session }
  | _ => []

/-- The paths that enter the queue while at most `bound` queued files are walked. -/
def enteredByDrain : Nat → Discovery → List Path
  | 0, _ => []
  | bound + 1, d =>
    match d.pending with
    | [] => []
    | path :: rest =>
      enteredByWalk t path none { d with pending := rest } ++
        notedOf (({ d with pending := rest } : Discovery).walk t path none) (enteredByDrain bound)

/-- The paths that enter the queue while all queued files are walked. -/
def enteredByQueue (d : Discovery) : List Path :=
  enteredByDrain t (d.pending.length + FileTree.pathCount) d

/-- The paths that enter the queue of an input. -/
def enteredByInput (s : Session) (input : SourceFile) : List Path :=
  match input.contents with
  | none => []
  | some bytes =>
    let text := some (Text.decodeLossy bytes)
    enteredByWalk t input.path text { session := s } ++
      notedOf (({ session := s } : Discovery).walk t input.path text) (enteredByQueue t)

/-- The paths that enter the queue of an entry of the full extraction. -/
def enteredByEntry (s : Session) (entry : String) : List Path :=
  match extractedDir? t s entry with
  | none => []
  | some (p, dir) =>
    enteredByFiles t p.name false .fullExtract (t.filesBelow dir) { session := s } ++
      notedOf ((t.filesBelow dir).foldlM (inject t p.name false .fullExtract) { session := s })
        (enteredByQueue t)

end Discovery

/-! ## What is asked of a session -/

/-- Something that is asked of a session: a graph, or the discovery for an input or for an
entry of the full extraction. -/
inductive Request
  | dependencies (entry : Path) (content : Option String)
  | components (manifest : Path) (content : Option String)
  | input (file : SourceFile)
  | entry (name : String)

namespace Request

variable (t : FileTree) (s : Session)

/-- The session afterwards, also if a discovery was stopped. -/
def answered : Request → Session
  | dependencies path content => (s.dependencyGraph t path content).2
  | components path content => (s.componentGraph t path content).2
  | input file => (Discovery.ofInput t s file).session
  | entry name => (Discovery.ofEntry t s name).session

/-- The paths that enter a queue. -/
def entered : Request → List Path
  | dependencies _ _ | components _ _ => []
  | input file => Discovery.enteredByInput t s file
  | entry name => Discovery.enteredByEntry t s name

end Request

namespace Session

variable (t : FileTree)

/-- The session after some requests. -/
def answering (s : Session) : List Request → Session
  | [] => s
  | request :: requests => (request.answered t s).answering requests

/-- All paths that enter a queue during some requests. -/
def entered (s : Session) : List Request → List Path
  | [] => []
  | request :: requests => request.entered t s ++ (request.answered t s).entered requests

theorem answering_append (s : Session) (requests later : List Request) :
    s.answering t (requests ++ later) = (s.answering t requests).answering t later := by
  induction requests generalizing s with
  | nil => rfl
  | cons request requests ih => exact ih _

end Session

/-! ## The course of a session -/

/-- The session becomes another one while some paths enter queues. A path may enter when it
is claimed. -/
inductive Session.Becomes (t : FileTree) : Session → List Path → Session → Prop
  | refl (s : Session) : Becomes t s [] s
  | trans {s s' s'' : Session} {paths later : List Path} : Becomes t s paths s' →
      Becomes t s' later s'' → Becomes t s (paths ++ later) s''
  | dependencies (s : Session) (entry : Path) (content : Option String) :
      Becomes t s [] (s.dependencyGraph t entry content).2
  | components (s : Session) (manifest : Path) (content : Option String) :
      Becomes t s [] (s.componentGraph t manifest content).2
  | claim (s : Session) (file : Path) : Becomes t s [] (s.claim file)
  | enter {s : Session} {file : Path} : file ∉ s.claimedFiles → Becomes t s [file] (s.claim file)
  | claimDirectory (s : Session) (directory : Path) : Becomes t s [] (s.claimDirectory directory)

namespace Discovery

variable {t : FileTree} {d d' : Discovery} {package : String} {detectMain : Bool}
  {origin : Placement → Origin} {file path : Path} {content : Option String} {s : Session}

open Session

theorem Becomes.bind {paths : List Path} {x : Discovered} {note : Discovery → List Path}
    {f : Discovery → Discovered} (h : s.Becomes t paths (Discovered.session x))
    (hf : ∀ d : Discovery, d.session.Becomes t (note d) (Discovered.session (f d))) :
    s.Becomes t (paths ++ notedOf x note) (Discovered.session (x >>= f)) := by
  cases x with
  | error halted => exact h.trans (.refl halted.session)
  | ok d => exact h.trans (hf d)

theorem becomes_foldlM {α : Type} {step : Discovery → α → Discovered}
    {note : Discovery → α → List Path}
    (h : ∀ (d : Discovery) a,
      d.session.Becomes t (note d a) (Discovered.session (step d a))) (l : List α) (d : Discovery) :
    d.session.Becomes t (noted step note l d) (Discovered.session (l.foldlM step d)) := by
  induction l generalizing d with
  | nil => exact .refl d.session
  | cons a l ih =>
    rw [List.foldlM_cons, noted]
    exact Becomes.bind (h d a) ih

theorem session_push (origin : Placement → Origin) (p : Placement) :
    Discovered.session (d.push t origin p) = d.session := by
  unfold push
  split <;> rfl

theorem becomes_takeImport (d : Discovery) (n : Path × Node Reference) :
    d.session.Becomes t [] (Discovered.session (d.takeImport t n)) := by
  obtain ⟨file, node⟩ := n
  simp only [takeImport, claimFile?_eq]
  by_cases hfile : file ∈ d.session.claimedFiles
  · simp only [hfile, if_true]
    exact .refl d.session
  · simp only [hfile, if_false]
    split
    · exact .claim d.session file
    · rw [session_push]
      split <;> exact .claim d.session file

/-- What becomes of a discovery that is offered a listed file. -/
theorem inject_eq (file : Path) : inject t package detectMain origin d file =
    if file ∈ d.session.claimedFiles then .ok d
    else
      match d.session.planner.place? file package
        (detectMain && d.session.planner.isMainFile file package) with
      | none => .ok { d with session := d.session.claim file }
      | some p => do
        let d' ← ({ d with session := d.session.claim file } : Discovery).push t origin p
        return if (FileKind.ofPath file).isRewritable then
          { d' with pending := d'.pending ++ [file] } else d' := by
  simp only [inject, claimFile?_eq]
  by_cases hfile : file ∈ d.session.claimedFiles
  · simp [hfile]
  · simp only [hfile, if_false]
    rfl

theorem becomes_inject (d : Discovery) (file : Path) :
    d.session.Becomes t (enteredByFile t package detectMain origin d file)
      (Discovered.session (inject t package detectMain origin d file)) := by
  rw [enteredByFile, inject_eq]
  by_cases hfile : file ∈ d.session.claimedFiles
  · simp only [hfile, if_true, notedOf_ok, List.drop_length]
    exact .refl d.session
  · simp only [hfile, if_false]
    cases d.session.planner.place? file package
      (detectMain && d.session.planner.isMainFile file package) with
    | none =>
      simp only [notedOf_ok, List.drop_length]
      exact .claim d.session file
    | some p =>
      cases hpush : push t { d with session := d.session.claim file } origin p with
      | error halted =>
        have hsession : halted.session = d.session.claim file := by
          have hkept := @session_push t { d with session := d.session.claim file } origin p
          rwa [hpush] at hkept
        have hclaim := Becomes.claim (t := t) d.session file
        rw [← hsession] at hclaim
        simp only [hpush, bind, Except.bind]
        exact hclaim
      | ok pushed =>
        obtain ⟨contents, -, rfl⟩ := push_eq_ok hpush
        cases hkind : (FileKind.ofPath file).isRewritable
        · simp only [hpush, bind, Except.bind, pure, Except.pure, Bool.false_eq_true, if_false,
            notedOf_ok, List.drop_length]
          exact .claim d.session file
        · simp only [hpush, bind, Except.bind, pure, Except.pure, if_true, notedOf_ok,
            List.drop_left]
          exact .enter hfile

theorem becomes_takeBundle (d : Discovery) (n : Path × Node ComponentRef) :
    d.session.Becomes t (enteredByBundle t d n) (Discovered.session (d.takeBundle t n)) := by
  rw [takeBundle_eq, enteredByBundle]
  split
  · exact .refl d.session
  · have hfiles := becomes_foldlM (@becomes_inject t n.2.first.package true .component)
      (t.filesBelow n.2.first.directory)
      { d with session := d.session.claimDirectory n.1, events := d.events ++ bundleReport n }
    exact (Becomes.claimDirectory d.session n.1).trans hfiles

theorem becomes_walk (d : Discovery) (path : Path) (content : Option String) :
    d.session.Becomes t (enteredByWalk t path content d)
      (Discovered.session (d.walk t path content)) := by
  have himports : d.session.Becomes t [] (Discovered.session (d.extractImports t path content)) := by
    have hsteps := becomes_foldlM (becomes_takeImport (t := t))
      (d.session.dependencyGraph t path content).1.toList
      { d with session := (d.session.dependencyGraph t path content).2 }
    rw [noted_nothing] at hsteps
    exact (Becomes.dependencies d.session path content).trans hsteps
  unfold walk enteredByWalk
  cases FileKind.ofPath path with
  | script => exact himports
  | stylesheet => exact himports
  | manifest =>
    have hbundles := becomes_foldlM (becomes_takeBundle (t := t))
      (d.session.componentGraph t path content).1.toList
      { d with session := (d.session.componentGraph t path content).2 }
    exact (Becomes.components d.session path content).trans hbundles
  | other => exact .refl d.session

theorem becomes_drainUpTo (bound : Nat) (d : Discovery) :
    d.session.Becomes t (enteredByDrain t bound d) (Discovered.session (drainUpTo t bound d)) := by
  induction bound generalizing d with
  | zero => exact .refl d.session
  | succ bound ih =>
    rw [drainUpTo, enteredByDrain]
    cases d.pending with
    | nil => exact .refl d.session
    | cons path rest => exact Becomes.bind (becomes_walk { d with pending := rest } path none) ih

theorem becomes_drain (d : Discovery) :
    d.session.Becomes t (enteredByQueue t d) (Discovered.session (d.drain t)) :=
  becomes_drainUpTo _ d

theorem becomes_ofInput (s : Session) (input : SourceFile) :
    s.Becomes t (enteredByInput t s input) (Discovered.session (ofInput t s input)) := by
  unfold ofInput enteredByInput
  cases input.contents with
  | none => exact .refl s
  | some bytes =>
    exact Becomes.bind (becomes_walk { session := s } input.path (some (Text.decodeLossy bytes)))
      becomes_drain

theorem becomes_ofEntry (s : Session) (entry : String) :
    s.Becomes t (enteredByEntry t s entry) (Discovered.session (ofEntry t s entry)) := by
  unfold ofEntry enteredByEntry
  cases extractedDir? t s entry with
  | none => exact .refl s
  | some found =>
    obtain ⟨p, dir⟩ := found
    refine Becomes.bind (becomes_foldlM becomes_inject (t.filesBelow dir) { session := s }) fun d => ?_
    have hdrain := becomes_drain (t := t) d
    show d.session.Becomes t _ (Discovered.session (d.drain t >>= fun last =>
      pure (last.emit (.fullExtractFinished entry d.outputs.length))))
    cases hlast : d.drain t with
    | error halted =>
      rw [hlast] at hdrain
      exact hdrain
    | ok last =>
      rw [hlast] at hdrain
      exact hdrain

end Discovery

namespace Session

variable {t : FileTree}

theorem becomes_answered (s : Session) (request : Request) :
    s.Becomes t (request.entered t s) (request.answered t s) := by
  cases request with
  | dependencies path content => exact .dependencies s path content
  | components path content => exact .components s path content
  | input file => exact Discovery.becomes_ofInput s file
  | entry name => exact Discovery.becomes_ofEntry s name

theorem becomes_answering (s : Session) (requests : List Request) :
    s.Becomes t (s.entered t requests) (s.answering t requests) := by
  induction requests generalizing s with
  | nil => exact .refl s
  | cons request requests ih => exact (becomes_answered s request).trans (ih _)

/-! ## Builds as requests -/

theorem session_finish (b : Progress) (x : Discovered) :
    (b.finish x).2.session = Discovered.session x := by
  cases x <;> rfl

theorem exists_session_extractFull (entries : List String) (b : Progress) :
    ∃ done, done <+: entries ∧
      (Progress.extractFull t entries b).2.session = b.session.answering t (done.map .entry) := by
  induction entries generalizing b with
  | nil => exact ⟨[], List.nil_prefix, rfl⟩
  | cons entry rest ih =>
    have hsession := session_finish b (Discovery.ofEntry t b.session entry)
    rw [Progress.extractFull]
    split
    · next hfinish =>
      rw [hfinish] at hsession
      exact ⟨[entry], List.cons_prefix_cons.2 ⟨rfl, List.nil_prefix⟩, hsession⟩
    · next b' hfinish =>
      rw [hfinish] at hsession
      obtain ⟨done, hdone, heq⟩ := ih b'
      refine ⟨entry :: done, List.cons_prefix_cons.2 ⟨rfl, hdone⟩, ?_⟩
      rw [List.map_cons, answering, Request.answered, ← hsession]
      exact heq

theorem session_discoverAll (inputs : List (Nat × SourceFile)) (b : Progress) :
    (Progress.discoverAll t inputs b).2.session = b.session.answering t
      (((inputs.map Prod.snd).filter fun f => !f.isNull).map .input) := by
  induction inputs generalizing b with
  | nil => rfl
  | cons x rest ih =>
    obtain ⟨index, input⟩ := x
    rw [Progress.discoverAll]
    by_cases hnull : input.isNull = true
    · rw [if_pos hnull, ih, List.map_cons, List.filter_cons_of_neg (by simp [hnull])]
    · have hsession : (b.discover t input).2.session =
          Discovered.session (Discovery.ofInput t b.session input) := by
        have hfinish := session_finish b (Discovery.ofInput t b.session input)
        unfold Progress.discover
        split <;> (rename_i hresult; rw [hresult] at hfinish; exact hfinish)
      rw [if_neg hnull, List.map_cons, List.filter_cons_of_pos (by simp [hnull]), List.map_cons,
        answering, Request.answered, ← hsession]
      exact ih _

/-- A build leaves the session that its requests leave: entries of the full extraction, and
then its inputs if none of the entries has stopped it. -/
theorem exists_session_build (s : Session) (inputs : List SourceFile) :
    ∃ entries rest, entries <+: s.settings.fullExtract ∧
      (rest = [] ∨ rest = inputs.filter (!·.isNull)) ∧
      (s.build t inputs).2.session = s.answering t (entries.map .entry ++ rest.map .input) := by
  obtain ⟨entries, hentries, heq⟩ := exists_session_extractFull (t := t) s.settings.fullExtract
    ⟨s, [.buildStarted inputs.length, .catalogReady s.catalog.size]⟩
  have hinputs : (inputs.zipIdx.map fun x => (x.2, x.1)).map Prod.snd = inputs := by
    rw [List.map_map]
    exact List.zipIdx_map_fst 0 inputs
  simp only [Session.build]
  split
  · next hfull =>
    rw [hfull] at heq
    refine ⟨entries, [], hentries, Or.inl rfl, ?_⟩
    rw [List.map_nil, List.append_nil]
    exact heq
  · next b hfull =>
    rw [hfull] at heq
    have hall := session_discoverAll (t := t) (inputs.zipIdx.map fun x => (x.2, x.1)) b
    rw [hinputs] at hall
    refine ⟨entries, inputs.filter (!·.isNull), hentries, Or.inr rfl, ?_⟩
    rw [answering_append, ← show b.session = s.answering t (entries.map .entry) from heq, ← hall]
    split <;> rfl

/-! ## Nothing enters twice -/

/-- The paths that enter queues are distinct, were unclaimed before, and are claimed then. -/
structure Enters (s : Session) (paths : List Path) (s' : Session) : Prop where
  distinct : paths.Pairwise fun p q => ¬p.SameAs q
  unclaimed : ∀ p ∈ paths, p ∉ s.claimedFiles
  claimed : ∀ p ∈ paths, p ∈ s'.claimedFiles
  stays : ∀ p ∈ s.claimedFiles, p ∈ s'.claimedFiles

theorem Enters.nothing {s s' : Session} (h : ∀ p ∈ s.claimedFiles, p ∈ s'.claimedFiles) :
    Enters s [] s' where
  distinct := .nil
  unclaimed := by simp
  claimed := by simp
  stays := h

theorem Enters.trans {s s' s'' : Session} {paths later : List Path} (h : Enters s paths s')
    (h' : Enters s' later s'') : Enters s (paths ++ later) s'' where
  distinct := by
    refine List.pairwise_append.2 ⟨h.distinct, h'.distinct, fun p hp q hq hsame => ?_⟩
    exact h'.unclaimed q hq ((PathMap.mem_congr _ hsame).1 (h.claimed p hp))
  unclaimed p hp := by
    rcases List.mem_append.1 hp with hp | hp
    · exact h.unclaimed p hp
    · exact fun hold => h'.unclaimed p hp (h.stays p hold)
  claimed p hp := by
    rcases List.mem_append.1 hp with hp | hp
    · exact h'.stays p (h.claimed p hp)
    · exact h'.claimed p hp
  stays p hp := h'.stays p (h.stays p hp)

theorem mem_claim {s : Session} {file p : Path} :
    p ∈ (s.claim file).claimedFiles ↔ file.SameAs p ∨ p ∈ s.claimedFiles :=
  PathMap.mem_insert _ _ _ _

theorem Becomes.enters {s s' : Session} {paths : List Path} (h : s.Becomes t paths s') :
    Enters s paths s' := by
  induction h with
  | refl s => exact .nothing fun _ hp => hp
  | trans _ _ ih ih' => exact ih.trans ih'
  | dependencies s path content => exact .nothing fun _ hp => hp
  | components s path content => exact .nothing fun _ hp => hp
  | claim s file => exact .nothing fun _ hp => mem_claim.2 (.inr hp)
  | @enter s file hnew =>
    constructor
    · exact List.pairwise_singleton _ _
    · exact fun p hp => List.mem_singleton.1 hp ▸ hnew
    · exact fun p hp => mem_claim.2 (.inl (List.mem_singleton.1 hp ▸ Path.SameAs.refl file))
    · exact fun p hp => mem_claim.2 (.inr hp)
  | claimDirectory s directory => exact .nothing fun _ hp => hp

end Session

end Vendoring
