/-
# What a session remembers

A session remembers what files refer to and gives it to every later walk. As long
as each file has been asked for under a spelling that reads as its plain one, what
is remembered is what would be looked up, through walks and builds alike and also
where a build fails. So a graph is the same in such a session as in a new one. A
file that was asked for under a spelling that cannot be read is remembered as one
without references, and then a later graph shows less.
-/

import Vendoring.Build.Run
import Vendoring.FileTree.Edit
import Vendoring.Proofs.Build.Steps
import Vendoring.Proofs.Graph.Component
import Vendoring.Proofs.Graph.Dependency

namespace Vendoring

/-- The session knows the packages of the starting one, and remembers about files
what would be looked up. -/
structure Session.Recalls (t : FileTree) (s start : Session) : Prop where
  catalog_eq : s.catalog = start.catalog
  settings_eq : s.settings = start.settings
  references : s.references.Agrees (start.resolver t).referencesOf
  components : s.components.Agrees (start.resolver t).componentsOf

namespace Session.Recalls

variable {t : FileTree} {s start : Session} {path : Path} {content : Option String}

theorem resolver (h : s.Recalls t start) : s.resolver t = start.resolver t := by
  rw [Session.resolver, h.catalog_eq]
  rfl

theorem dependencyGraph (h : s.Recalls t start)
    (hpath : content = none → t.ReadsAsPlain path) :
    (s.dependencyGraph t path content).2.Recalls t start := by
  rw [Session.dependencyGraph_eq, h.resolver]
  refine { h with references := ?_ }
  exact (Resolver.dependencyGraph_of_agrees Loader.isPlain_default h.references hpath).2

theorem componentGraph (h : s.Recalls t start)
    (hpath : content = none → t.ReadsAsPlain path) :
    (s.componentGraph t path content).2.Recalls t start := by
  rw [Session.componentGraph_eq, h.resolver]
  refine { h with components := ?_ }
  exact (Resolver.componentGraph_of_agrees h.components hpath).2

/-- Two sessions that remember what would be looked up build the same graphs. -/
theorem dependencyGraph_eq (h : s.Recalls t start) {s' : Session} (h' : s'.Recalls t start)
    (hpath : content = none → t.ReadsAsPlain path) :
    (s.dependencyGraph t path content).1 = (s'.dependencyGraph t path content).1 := by
  rw [Session.dependencyGraph_eq, Session.dependencyGraph_eq, h.resolver, h'.resolver]
  obtain ⟨⟨bound, hwalk⟩, -⟩ :=
    Resolver.dependencyGraph_of_agrees Loader.isPlain_default h.references hpath
  obtain ⟨⟨bound', hwalk'⟩, -⟩ :=
    Resolver.dependencyGraph_of_agrees Loader.isPlain_default h'.references hpath
  exact Graph.walk?_unique hwalk hwalk'

theorem componentGraph_eq (h : s.Recalls t start) {s' : Session} (h' : s'.Recalls t start)
    (hpath : content = none → t.ReadsAsPlain path) :
    (s.componentGraph t path content).1 = (s'.componentGraph t path content).1 := by
  rw [Session.componentGraph_eq, Session.componentGraph_eq, h.resolver, h'.resolver]
  obtain ⟨⟨bound, hwalk⟩, -⟩ := Resolver.componentGraph_of_agrees h.components hpath
  obtain ⟨⟨bound', hwalk'⟩, -⟩ := Resolver.componentGraph_of_agrees h'.components hpath
  exact Graph.walk?_unique hwalk hwalk'

/-- The bundles of a graph lie in directories under plain spellings. -/
theorem isPlain_of_mem_componentGraph (h : s.Recalls t start) {n : Path × Node ComponentRef}
    (hn : n ∈ (s.componentGraph t path content).1.toList) : n.2.first.directory.IsPlain := by
  rw [Session.componentGraph_eq, h.resolver] at hn
  have hmemo : s.components.All (ComponentRef.IsBundle t) :=
    h.components.all fun q c hc => Resolver.isBundle_of_mem_componentsIn hc
  obtain ⟨-, -, hall, -⟩ := Resolver.explored_componentGraph (r := start.resolver t) hmemo path content
  exact (hall _ _ (PathMap.getElem?_of_mem_toList _ hn)).directory

end Session.Recalls

/-- The files with references that the entry takes over are listed under paths that
read as their plain ones. -/
def Session.ListsReadably (t : FileTree) (s : Session) (entry : String) : Prop :=
  ∀ package dir, Discovery.extractedDir? t s entry = some (package, dir) →
    ∀ file ∈ t.filesBelow dir, (FileKind.ofPath file).isRewritable = true → t.ReadsAsPlain file

/-! ## Through a discovery -/

/-- The discovery remembers what would be looked up, whatever became of it, and the
files that wait can be read as under their plain spellings. -/
inductive Discovered.Recalls (t : FileTree) (start : Session) : Discovered → Prop
  | ok {d : Discovery} : d.session.Recalls t start → (∀ p ∈ d.pending, t.ReadsAsPlain p) →
      Recalls t start (.ok d)
  | error {h : Halted} : h.session.Recalls t start → Recalls t start (.error h)

namespace Discovered.Recalls

variable {t : FileTree} {start : Session} {d : Discovery} {x : Discovered}

theorem session (h : Recalls t start (.ok d)) : d.session.Recalls t start := by
  cases h with
  | ok hsession _ => exact hsession

theorem waiting (h : Recalls t start (.ok d)) : ∀ p ∈ d.pending, t.ReadsAsPlain p := by
  cases h with
  | ok _ hwaiting => exact hwaiting

theorem bind {f : Discovery → Discovered} (h : Recalls t start x)
    (hf : ∀ d, Recalls t start (.ok d) → Recalls t start (f d)) : Recalls t start (x >>= f) := by
  cases x with
  | error halted =>
    cases h with
    | error hsession => exact .error hsession
  | ok d => exact hf d h

theorem foldlM {α : Type} {f : Discovery → α → Discovered} {l : List α}
    (h : Recalls t start (.ok d))
    (hf : ∀ a ∈ l, ∀ d, Recalls t start (.ok d) → Recalls t start (f d a)) :
    Recalls t start (l.foldlM f d) := by
  induction l generalizing d with
  | nil => exact h
  | cons a l ih =>
    rw [List.foldlM_cons]
    exact (hf a (by simp) d h).bind fun d hd => ih hd fun b hb => hf b (List.mem_cons_of_mem _ hb)

/-- Claims have no part in what is remembered. -/
theorem claim (h : Recalls t start (.ok d)) (file : Path) (events : List Event) :
    Recalls t start (.ok { d with session := d.session.claim file, events := events }) :=
  .ok { h.session with } h.waiting

theorem claimDirectory (h : Recalls t start (.ok d)) (directory : Path) (events : List Event) :
    Recalls t start
      (.ok { d with session := d.session.claimDirectory directory, events := events }) :=
  .ok { h.session with } h.waiting

theorem push (h : Recalls t start (.ok d)) (origin : Placement → Origin) (p : Placement) :
    Recalls t start (d.push t origin p) := by
  unfold Discovery.push
  split
  · exact .error h.session
  · exact .ok h.session h.waiting

theorem takeImport (h : Recalls t start (.ok d)) (n : Path × Node Reference) :
    Recalls t start (d.takeImport t n) := by
  obtain ⟨file, node⟩ := n
  simp only [Discovery.takeImport, Discovery.claimFile?_eq]
  by_cases hfile : file ∈ d.session.claimedFiles
  · simpa [hfile] using h
  · simp only [hfile, if_false]
    split
    · exact h.claim file _
    · split
      · exact push (h.claim file _) _ _
      · exact push (h.claim file _) _ _

theorem inject (h : Recalls t start (.ok d)) (package : String) (detectMain : Bool)
    (origin : Placement → Origin) {file : Path}
    (hfile : (FileKind.ofPath file).isRewritable = true → t.ReadsAsPlain file) :
    Recalls t start (Discovery.inject t package detectMain origin d file) := by
  simp only [Discovery.inject, Discovery.claimFile?_eq]
  by_cases hclaimed : file ∈ d.session.claimedFiles
  · simpa [hclaimed] using h
  · simp only [hclaimed, if_false]
    split
    · exact h.claim file _
    · refine bind (push (h.claim file _) _ _) fun d hd => ?_
      split
      · next hkind =>
        refine .ok hd.session fun p hp => ?_
        rcases List.mem_append.1 hp with hp | hp
        · exact hd.waiting p hp
        · rw [List.mem_singleton.1 hp]
          exact hfile hkind
      · exact hd

theorem takeBundle (h : Recalls t start (.ok d)) {n : Path × Node ComponentRef}
    (hn : n.2.first.directory.IsPlain) : Recalls t start (d.takeBundle t n) := by
  obtain ⟨directory, node⟩ := n
  have hfiles (d : Discovery) (hd : Recalls t start (.ok d)) : Recalls t start
      ((t.filesBelow node.first.directory).foldlM
        (Discovery.inject t node.first.package true .component) d) := by
    exact hd.foldlM fun file hfile d hd => hd.inject _ _ _ fun _ =>
      FileTree.readsAsPlain_of_mem_filesBelow hn hfile
  by_cases hdir : directory ∈ d.session.claimedBundles
  · simpa [Discovery.takeBundle, Session.claimBundle?, hdir] using h
  · simp only [Discovery.takeBundle, Session.claimBundle?, Std.TreeMap.contains_iff_mem, hdir,
      if_false]
    split
    · exact hfiles _ (h.claimDirectory directory _)
    · exact hfiles _ (h.claimDirectory directory _)

theorem walk (h : Recalls t start (.ok d)) {path : Path} {content : Option String}
    (hpath : content = none → t.ReadsAsPlain path) : Recalls t start (d.walk t path content) := by
  have himports : Recalls t start (d.extractImports t path content) := by
    refine foldlM (d := { d with session := (d.session.dependencyGraph t path content).2 })
      (.ok (h.session.dependencyGraph hpath) h.waiting) fun n _ d hd => ?_
    exact hd.takeImport n
  unfold Discovery.walk
  split
  · exact himports
  · exact himports
  · refine foldlM (d := { d with session := (d.session.componentGraph t path content).2 })
      (.ok (h.session.componentGraph hpath) h.waiting) fun n hn d hd => ?_
    exact hd.takeBundle (h.session.isPlain_of_mem_componentGraph hn)
  · exact h

theorem drain (h : Recalls t start (.ok d)) : Recalls t start (d.drain t) := by
  unfold Discovery.drain
  generalize d.pending.length + FileTree.pathCount = bound
  induction bound generalizing d with
  | zero => exact h
  | succ bound ih =>
    rw [Discovery.drainUpTo]
    cases hpending : d.pending with
    | nil => exact h
    | cons path rest =>
      have hread := h.waiting
      rw [hpending] at hread
      have hpopped : Recalls t start (.ok { d with pending := rest }) :=
        .ok h.session fun p hp => hread p (List.mem_cons_of_mem _ hp)
      exact bind (hpopped.walk fun _ => hread path (by simp)) fun d hd => ih hd

theorem ofInput {s : Session} (h : s.Recalls t start) (input : SourceFile) :
    Recalls t start (Discovery.ofInput t s input) := by
  have hstart : Recalls t start (.ok { session := s }) := .ok h (by simp)
  unfold Discovery.ofInput
  split
  · exact hstart
  · exact bind (hstart.walk (by simp)) fun d hd => hd.drain

theorem ofEntry {s : Session} (h : s.Recalls t start) {entry : String}
    (hlisted : start.ListsReadably t entry) : Recalls t start (Discovery.ofEntry t s entry) := by
  have hstart : Recalls t start (.ok { session := s }) := .ok h (by simp)
  unfold Discovery.ofEntry
  rw [Discovery.extractedDir?_congr h.catalog_eq]
  split
  · exact hstart
  · next package dir hfound =>
    refine bind (hstart.foldlM fun file hfile d hd =>
      hd.inject _ _ _ (hlisted package dir hfound file hfile)) fun d hd => ?_
    exact bind hd.drain fun d hd => .ok hd.session hd.waiting

end Discovered.Recalls

/-! ## Through a build -/

namespace Session.Recalls

variable {t : FileTree} {start : Session} {b : Progress}

theorem finish {x : Discovered} (h : x.Recalls t start) :
    (b.finish x).2.session.Recalls t start := by
  cases h with
  | ok hsession _ => exact hsession
  | error hsession => exact hsession

theorem extractFull {entries : List String} (h : b.session.Recalls t start)
    (hlisted : ∀ entry ∈ entries, start.ListsReadably t entry) :
    (Progress.extractFull t entries b).2.session.Recalls t start := by
  induction entries generalizing b with
  | nil => exact h
  | cons entry entries ih =>
    have hnext : (b.finish (Discovery.ofEntry t b.session entry)).2.session.Recalls t start :=
      finish (.ofEntry h (hlisted entry (by simp)))
    rw [Progress.extractFull]
    split
    · next hfinish =>
      rw [hfinish] at hnext
      exact hnext
    · next hfinish =>
      rw [hfinish] at hnext
      exact ih hnext fun other hother => hlisted other (List.mem_cons_of_mem _ hother)

theorem discover (h : b.session.Recalls t start) (input : SourceFile) :
    (b.discover t input).2.session.Recalls t start := by
  have hnext : (b.finish (Discovery.ofInput t b.session input)).2.session.Recalls t start :=
    finish (.ofInput h input)
  unfold Progress.discover
  split
  · next hfinish =>
    rw [hfinish] at hnext
    exact hnext
  · next hfinish =>
    rw [hfinish] at hnext
    exact hnext

theorem discoverAll {inputs : List (Nat × SourceFile)} (h : b.session.Recalls t start) :
    (Progress.discoverAll t inputs b).2.session.Recalls t start := by
  induction inputs generalizing b with
  | nil => exact h
  | cons x inputs ih =>
    obtain ⟨index, input⟩ := x
    rw [Progress.discoverAll]
    split
    · exact ih h
    · exact ih (h.discover input)

/-- A build remembers what would be looked up, whether or not it succeeds. -/
theorem build {s : Session} (h : s.Recalls t start)
    (hlisted : ∀ entry ∈ start.settings.fullExtract, start.ListsReadably t entry)
    (inputs : List SourceFile) : (s.build t inputs).2.session.Recalls t start := by
  have hextract (events : List Event) :
      (Progress.extractFull t s.settings.fullExtract ⟨s, events⟩).2.session.Recalls t start := by
    rw [h.settings_eq]
    exact extractFull h hlisted
  have hnext := hextract [.buildStarted inputs.length, .catalogReady s.catalog.size]
  simp only [Session.build]
  split
  · next hfinish =>
    rw [hfinish] at hnext
    exact hnext
  · next hfinish =>
    rw [hfinish] at hnext
    split
    · exact discoverAll hnext
    · exact discoverAll hnext

end Session.Recalls

/-! ## Through a sequence of calls -/

/-- What is asked of a session. -/
inductive Call
  | dependencies (entry : Path) (content : Option String)
  | components (manifest : Path) (content : Option String)
  | build (inputs : List SourceFile)

namespace Call

variable (t : FileTree)

/-- The session after a call. -/
def run (s : Session) : Call → Session
  | dependencies entry content => (s.dependencyGraph t entry content).2
  | components manifest content => (s.componentGraph t manifest content).2
  | build inputs => (s.build t inputs).2.session

/-- The call asks for no file under a spelling that cannot be read while the plain
one can. -/
def AsksReadably (start : Session) : Call → Prop
  | dependencies path content | components path content => content = none → t.ReadsAsPlain path
  | build _ => ∀ entry ∈ start.settings.fullExtract, start.ListsReadably t entry

end Call

/-- The session after some calls. -/
def Session.after (t : FileTree) (s : Session) (calls : List Call) : Session :=
  calls.foldl (Call.run t) s

namespace Session

variable {t : FileTree} {start s : Session}

theorem Recalls.run (h : s.Recalls t start) {call : Call} (hcall : call.AsksReadably t start) :
    (call.run t s).Recalls t start := by
  cases call with
  | dependencies entry content => exact h.dependencyGraph hcall
  | components manifest content => exact h.componentGraph hcall
  | build inputs => exact h.build hcall inputs

theorem Recalls.after (h : s.Recalls t start) {calls : List Call}
    (hcalls : ∀ call ∈ calls, call.AsksReadably t start) : (s.after t calls).Recalls t start := by
  induction calls generalizing s with
  | nil => exact h
  | cons call calls ih =>
    exact ih (h.run (hcalls call (by simp))) fun c hc => hcalls c (List.mem_cons_of_mem _ hc)

theorem recalls_start (t : FileTree) (settings : Settings) :
    (Session.start t settings).Recalls t (.start t settings) where
  catalog_eq := rfl
  settings_eq := rfl
  references := Memo.agrees_empty _
  components := Memo.agrees_empty _

/-- The graphs of a session are those of a new one, whatever it has been asked
before, if no call has asked for a file under a spelling that cannot be read. -/
theorem graphs_after (t : FileTree) (settings : Settings) {calls : List Call}
    (hcalls : ∀ call ∈ calls, call.AsksReadably t (Session.start t settings)) {path : Path}
    {content : Option String} (hpath : content = none → t.ReadsAsPlain path) :
    (((Session.start t settings).after t calls).dependencyGraph t path content).1 =
        ((Session.start t settings).dependencyGraph t path content).1 ∧
      (((Session.start t settings).after t calls).componentGraph t path content).1 =
        ((Session.start t settings).componentGraph t path content).1 := by
  have hstart := recalls_start t settings
  have hafter := hstart.after hcalls
  exact ⟨hafter.dependencyGraph_eq hstart hpath, hafter.componentGraph_eq hstart hpath⟩

/-! ## A file that is remembered -/

/-- A package with a file that imports another package. -/
def chainTree : FileTree :=
  FileTree.ofEntries [(["node_modules"], .directory), (["node_modules", "p"], .directory),
    (["node_modules", "p", "a.js"], .file "require('q')".toUTF8),
    (["node_modules", "q"], .directory), (["node_modules", "q", "index.js"], .file "".toUTF8)]

/-- An input that imports that file. -/
def chainInput : SourceFile := ⟨⟨"/x.js"⟩, ⟨"/"⟩, some "require('p/a.js')".toUTF8⟩

/-- The file has the graph that it has in a new session when it has been asked for, and
a build has gone through it. -/
theorem graphs_after_chain :
    (((Session.start chainTree (.forProject ⟨"/"⟩)).after chainTree
      [.dependencies ⟨"/node_modules/p/a.js"⟩ none, .build [chainInput]]).dependencyGraph chainTree
        ⟨"/node_modules/p/a.js"⟩ none).1 =
      ((Session.start chainTree (.forProject ⟨"/"⟩)).dependencyGraph chainTree
        ⟨"/node_modules/p/a.js"⟩ none).1 := by
  have hplain : chainTree.ReadsAsPlain ⟨"/node_modules/p/a.js"⟩ :=
    FileTree.readsAsPlain_of_isPlain (by decide)
  refine (graphs_after chainTree (.forProject ⟨"/"⟩) ?_ fun _ => hplain).1
  intro call hcall
  rcases List.mem_cons.1 hcall with rfl | hcall
  · exact fun _ => hplain
  · rw [List.mem_singleton.1 hcall]
    exact fun entry hentry => absurd hentry List.not_mem_nil

/-- When the file has been asked for with a slash behind its name, it is remembered as
one without references, and a later graph misses what it imports. -/
theorem exists_graph_after_ne :
    ∃ (t : FileTree) (settings : Settings) (calls : List Call) (path : Path)
      (content : Option String),
      (((Session.start t settings).after t calls).dependencyGraph t path content).1 ≠
        ((Session.start t settings).dependencyGraph t path content).1 := by
  refine ⟨chainTree, .forProject ⟨"/"⟩, [.dependencies ⟨"/node_modules/p/a.js/"⟩ none], ⟨"/x.js"⟩,
    some "require('p/a.js')", fun heq => ?_⟩
  have hsizes : (((Session.start chainTree (.forProject ⟨"/"⟩)).after chainTree
        [.dependencies ⟨"/node_modules/p/a.js/"⟩ none]).dependencyGraph chainTree ⟨"/x.js"⟩
          (some "require('p/a.js')")).1.size = 1 ∧
      ((Session.start chainTree (.forProject ⟨"/"⟩)).dependencyGraph chainTree ⟨"/x.js"⟩
        (some "require('p/a.js')")).1.size = 2 := by
    decide +kernel
  rw [heq, hsizes.2] at hsizes
  exact absurd hsizes.1 (by decide)

end Session

end Vendoring
