/-
# That everything ends

No loop of a session runs for ever, however imports and components refer to each other. A
graph is built by following references in depth, each place once. A queue is worked off,
since what enters it while it is worked off are files of bundles, each of which enters once,
and only finitely many paths lead to files.

That each place is followed once is said of paths. Two paths can lead to one file if the
package tree is given by a relative path: then files are reached by relative paths, but also
by absolute ones where the main entry of a manifest is absolute. With an absolute package
tree every path that is followed is absolute and normal, so each file is followed once.
-/

import Vendoring.FileTree.Edit
import Vendoring.Proofs.Build.Entering
import Vendoring.Proofs.Build.Queue
import Vendoring.Proofs.Graph.Component
import Vendoring.Proofs.Graph.Dependency
import Vendoring.Proofs.Path.Descent
import Vendoring.Proofs.Resolver.Rooted

namespace Vendoring

open Catalog

/-! ## What a session knows -/

/-- The reference leads to a file under its plain spelling, and by a path from the root if
the package tree has one. -/
structure Reference.IsFound (t : FileTree) (tree : Path) (ref : Reference) : Prop where
  isPlain : ref.target.IsPlain
  isFile : t.isFile ref.target = true
  isRooted : tree.isAbsolute = true → ref.target.IsRooted

/-- The component has a bundle whose path holds nothing to be resolved, and goes from the root
if the path of the package tree does. -/
structure ComponentRef.IsFound (t : FileTree) (tree : Path) (c : ComponentRef) : Prop extends
    c.IsBundle t where
  isSettled : Path.IsSettled c.directory.components
  isRooted : tree.isAbsolute = true → c.directory.IsRooted

namespace Resolver

variable {t : FileTree} {settings : Settings} {r : Resolver} {specifier content : String}
  {file : Path}

theorem isAnchored_start (habsolute : settings.packageTree.isAbsolute = true) :
    (Session.start t settings).catalog.IsAnchored :=
  (isSurvey_survey t Session.loader settings.packageTree).isAnchored habsolute

theorem isFound_of_resolve? {ref : Reference}
    (h : ((Session.start t settings).resolver t).resolve? specifier file = some ref) :
    ref.IsFound t settings.packageTree where
  isPlain := (target_of_resolve? Loader.isPlain_default h).1
  isFile := (target_of_resolve? Loader.isPlain_default h).2
  isRooted habsolute := isRooted_of_resolve? Loader.isPlain_default (isAnchored_start habsolute) h

theorem isFound_of_mem_referencesIn {ref : Reference}
    (h : ref ∈ ((Session.start t settings).resolver t).referencesIn file content) :
    ref.IsFound t settings.packageTree := by
  obtain ⟨specifier, -, hresolve⟩ := List.mem_filterMap.1 h
  exact isFound_of_resolve? hresolve

theorem isFound_of_mem_referencesOf {ref : Reference}
    (h : ref ∈ ((Session.start t settings).resolver t).referencesOf file) :
    ref.IsFound t settings.packageTree := by
  unfold referencesOf at h
  split at h
  · cases h
  · split at h
    · exact isFound_of_mem_referencesIn h
    · cases h

theorem isFound_of_resolveComponent? {c : ComponentRef}
    (h : ((Session.start t settings).resolver t).resolveComponent? specifier file = some c) :
    c.IsFound t settings.packageTree := by
  obtain ⟨hmanifest, hplain, hdir⟩ := bundle_of_resolveComponent? h
  obtain ⟨path, hparent, -, -⟩ := resolveComponent?_eq_some h
  refine ⟨⟨hmanifest, hplain, hdir⟩, ?_, fun habsolute =>
    (isRooted_of_resolveComponent? (isAnchored_start habsolute) h).1⟩
  obtain ⟨hdropped, hne⟩ := Path.components_of_parent? hparent
  have hdot : path.normalize ≠ ⟨"."⟩ := by
    -- The directory of `.` is the empty path, which leads nowhere.
    intro hdot
    rw [hdot] at hdropped
    have hempty : c.directory.text = "" := by
      by_contra htext
      have hcs := Path.components_ne_nil_iff.2 htext
      rw [hdropped] at hcs
      exact hcs (by decide)
    obtain ⟨loc, hloc, -⟩ := FileTree.exists_locate_of_isDirectory hdir
    exact FileTree.text_ne_of_locate hloc hempty
  have hsettled := Path.isSettled_normalize path hdot
  rw [← List.dropLast_append_getLast hne, ← hdropped] at hsettled
  exact hsettled.of_append

theorem isFound_of_mem_componentsIn {json : Json} {c : ComponentRef}
    (h : c ∈ ((Session.start t settings).resolver t).componentsIn file json) :
    c.IsFound t settings.packageTree := by
  obtain ⟨declaration, -, hresolve⟩ := List.mem_filterMap.1 h
  exact isFound_of_resolveComponent? hresolve

theorem isFound_of_mem_componentsFrom {text : String} {c : ComponentRef}
    (h : c ∈ ((Session.start t settings).resolver t).componentsFrom file (some text)) :
    c.IsFound t settings.packageTree := by
  simp only [componentsFrom] at h
  cases hparsed : Json.parseObject? text with
  | none => simp [hparsed] at h
  | some json =>
    rw [hparsed] at h
    exact isFound_of_mem_componentsIn h

end Resolver

/-- The session has the packages of a new one, and what it remembers leads to files and to
bundles. -/
structure Session.IsSound (t : FileTree) (settings : Settings) (s : Session) : Prop where
  catalog_eq : s.catalog = (Session.start t settings).catalog
  references : s.references.All (Reference.IsFound t settings.packageTree)
  components : s.components.All (ComponentRef.IsFound t settings.packageTree)

/-! ## Graphs -/

/-- No two of the paths lead to one entry. -/
def FileTree.Separates (t : FileTree) (paths : List Path) : Prop :=
  paths.Pairwise fun p q => ∀ loc, t.locate p = .ok loc → t.locate q ≠ .ok loc

theorem FileTree.separates_of_isRooted {t : FileTree} {paths : List Path}
    (hrooted : ∀ p ∈ paths, p.IsRooted) (hdistinct : paths.Pairwise fun p q => ¬p.SameAs q) :
    t.Separates paths := by
  refine hdistinct.imp_of_mem ?_
  intro p q hp hq hne loc hloc hloc'
  obtain ⟨names, hnames⟩ := hrooted p hp
  obtain ⟨names', hnames'⟩ := hrooted q hq
  apply hne
  rw [Path.SameAs, hnames, hnames', ← location_of_locate hnames hloc,
    ← location_of_locate hnames' hloc']

/-- The files that are searched for a dependency graph: that of the entry, unless its text is
given, and those that references have been followed to. -/
def searchedFiles (entry : Path) (content : Option String) (followed : List Reference) :
    List Path :=
  if content.isSome then followed.map (·.target) else entry :: followed.map (·.target)

/-- The dependency graph is what has been followed in depth, each path once. -/
structure Session.Imports (t : FileTree) (settings : Settings) (s : Session) (entry : Path)
    (content : Option String) (followed : List Reference) : Prop where
  inDepth : ((s.resolver t).imports entry).InDepth
    (((s.resolver t).startingMemo entry content s.references).answer (s.resolver t).referencesOf)
    [] ((s.resolver t).startingReferences entry content s.references) followed
  knownBy : (s.dependencyGraph t entry content).1.KnownBy ((s.resolver t).imports entry) followed
  isFile : ∀ ref ∈ followed, t.isFile ref.target = true
  distinct : (entry :: followed.map (·.target)).Pairwise fun p q => ¬p.SameAs q
  /-- No file is searched twice. -/
  separates : settings.packageTree.isAbsolute = true → (content = none → entry.IsRooted) →
    t.Separates (searchedFiles entry content followed)

/-- The component graph is what has been followed in depth, the path of each bundle once. -/
structure Session.Uses (t : FileTree) (settings : Settings) (s : Session) (manifest : Path)
    (content : Option String) (followed : List ComponentRef) : Prop where
  inDepth : (s.resolver t).declarations.InDepth
    (((s.resolver t).startingComponentMemo manifest content s.components).answer
      (s.resolver t).componentsOf)
    [] ((s.resolver t).startingComponents manifest content s.components) followed
  knownBy : (s.componentGraph t manifest content).1.KnownBy (s.resolver t).declarations followed
  isDirectory : ∀ c ∈ followed, t.isDirectory c.directory = true
  distinct : (followed.map (·.directory)).Pairwise fun p q => ¬p.SameAs q
  /-- No bundle is searched twice. -/
  separates : settings.packageTree.isAbsolute = true → t.Separates (followed.map (·.directory))

namespace Session.IsSound

variable {t : FileTree} {settings : Settings} {s s' : Session} {path : Path}
  {content : Option String}

theorem start (t : FileTree) (settings : Settings) : (Session.start t settings).IsSound t settings where
  catalog_eq := rfl
  references := Memo.all_empty
  components := Memo.all_empty

theorem resolver (h : s.IsSound t settings) :
    s.resolver t = (Session.start t settings).resolver t := by
  rw [Session.resolver, h.catalog_eq]
  rfl

theorem startingReferences (h : s.IsSound t settings) :
    ∀ ref ∈ (s.resolver t).startingReferences path content s.references,
      ref.IsFound t settings.packageTree := by
  rw [h.resolver]
  cases content with
  | some text => exact fun ref hmem => Resolver.isFound_of_mem_referencesIn hmem
  | none => exact h.references.answer fun ref hmem => Resolver.isFound_of_mem_referencesOf hmem

theorem startingMemo (h : s.IsSound t settings) :
    ((s.resolver t).startingMemo path content s.references).All
      (Reference.IsFound t settings.packageTree) := by
  rw [h.resolver]
  cases content with
  | some text => exact h.references
  | none => exact h.references.fetch fun ref hmem => Resolver.isFound_of_mem_referencesOf hmem

theorem startingComponents (h : s.IsSound t settings) :
    ∀ c ∈ (s.resolver t).startingComponents path content s.components,
      c.IsFound t settings.packageTree := by
  rw [h.resolver]
  cases content with
  | some text => exact fun c hmem => Resolver.isFound_of_mem_componentsFrom hmem
  | none => exact h.components.answer fun c hmem => Resolver.isFound_of_mem_componentsIn hmem

theorem startingComponentMemo (h : s.IsSound t settings) :
    ((s.resolver t).startingComponentMemo path content s.components).All
      (ComponentRef.IsFound t settings.packageTree) := by
  rw [h.resolver]
  cases content with
  | some text => exact h.components
  | none => exact h.components.fetch fun c hmem => Resolver.isFound_of_mem_componentsIn hmem

theorem dependencyGraph (h : s.IsSound t settings) :
    (s.dependencyGraph t path content).2.IsSound t settings := by
  rw [Session.dependencyGraph_eq]
  refine { h with references := ?_ }
  rw [Resolver.dependencyGraph_eq]
  refine (Graph.all_build ?_ h.startingMemo h.startingReferences).2
  rw [h.resolver]
  exact fun _ _ ref hmem => Resolver.isFound_of_mem_referencesOf hmem

theorem all_componentGraph (h : s.IsSound t settings) :
    (s.componentGraph t path content).1.All (ComponentRef.IsFound t settings.packageTree) ∧
      (s.componentGraph t path content).2.components.All
        (ComponentRef.IsFound t settings.packageTree) := by
  rw [Session.componentGraph_eq, Resolver.componentGraph_eq]
  refine Graph.all_build ?_ h.startingComponentMemo h.startingComponents
  rw [h.resolver]
  exact fun _ _ c hmem => Resolver.isFound_of_mem_componentsIn hmem

theorem componentGraph (h : s.IsSound t settings) :
    (s.componentGraph t path content).2.IsSound t settings where
  catalog_eq := h.catalog_eq
  references := h.references
  components := h.all_componentGraph.2

theorem becomes {paths : List Path} (hbecomes : s.Becomes t paths s') (h : s.IsSound t settings) :
    s'.IsSound t settings := by
  induction hbecomes with
  | refl s => exact h
  | trans _ _ ih ih' => exact ih' (ih h)
  | dependencies s path content => exact h.dependencyGraph
  | components s path content => exact h.componentGraph
  | claim s file => exact { h with }
  | enter hnew => exact { h with }
  | claimDirectory s directory => exact { h with }

/-- Building a dependency graph comes to an end. -/
theorem exists_imports (h : s.IsSound t settings) (entry : Path) (content : Option String) :
    ∃ followed, s.Imports t settings entry content followed := by
  have hlook (p : Path) : ∀ ref ∈ (s.resolver t).referencesOf p,
      ref.IsFound t settings.packageTree := by
    rw [h.resolver]
    exact fun ref hmem => Resolver.isFound_of_mem_referencesOf hmem
  obtain ⟨followed, hdepth, hknown, hfound⟩ :=
    @Graph.exists_inDepth_build Reference ((s.resolver t).imports entry)
      ((s.resolver t).startingReferences entry content s.references)
      ((s.resolver t).startingMemo entry content s.references)
      (Reference.IsFound t settings.packageTree)
      (fun ref href => ⟨href.isPlain, FileTree.isShort_of_isFile href.isFile⟩) hlook
      h.startingMemo h.startingReferences
  have hdistinct : (entry :: followed.map (·.target)).Pairwise fun p q => ¬p.SameAs q := by
    refine List.pairwise_cons.2 ⟨fun p hp hsame => ?_, List.pairwise_map.2 (hdepth.pairwise .nil)⟩
    obtain ⟨ref, href, rfl⟩ := List.mem_map.1 hp
    have homits := hdepth.omits_eq_false (by simp) ref href
    exact absurd hsame.symm (by simpa [Resolver.imports] using homits)
  refine ⟨followed, hdepth, ?_, fun ref href => (hfound ref href).isFile, hdistinct,
    fun habsolute hentry => ?_⟩
  · rw [Session.dependencyGraph_eq, Resolver.dependencyGraph_eq]
    exact hknown
  · have htargets : ∀ p ∈ followed.map (·.target), p.IsRooted := by
      intro p hp
      obtain ⟨ref, href, rfl⟩ := List.mem_map.1 hp
      exact (hfound ref href).isRooted habsolute
    unfold searchedFiles
    cases content with
    | some text => exact FileTree.separates_of_isRooted htargets (List.pairwise_cons.1 hdistinct).2
    | none =>
      refine FileTree.separates_of_isRooted (fun p hp => ?_) hdistinct
      rcases List.mem_cons.1 hp with rfl | hp
      · exact hentry rfl
      · exact htargets p hp

/-- Building a component graph comes to an end. -/
theorem exists_uses (h : s.IsSound t settings) (manifest : Path) (content : Option String) :
    ∃ followed, s.Uses t settings manifest content followed := by
  have hlook (p : Path) : ∀ c ∈ (s.resolver t).componentsOf p,
      c.IsFound t settings.packageTree := by
    rw [h.resolver]
    exact fun c hmem => Resolver.isFound_of_mem_componentsIn hmem
  obtain ⟨followed, hdepth, hknown, hfound⟩ :=
    @Graph.exists_inDepth_build ComponentRef (s.resolver t).declarations
      ((s.resolver t).startingComponents manifest content s.components)
      ((s.resolver t).startingComponentMemo manifest content s.components)
      (ComponentRef.IsFound t settings.packageTree)
      (fun c hc => ⟨hc.manifest, FileTree.isShort_of_isDirectory hc.isDirectory⟩) hlook
      h.startingComponentMemo h.startingComponents
  have hdistinct : (followed.map (·.directory)).Pairwise fun p q => ¬p.SameAs q :=
    List.pairwise_map.2 (hdepth.pairwise .nil)
  refine ⟨followed, hdepth, ?_, fun c hc => (hfound c hc).isDirectory, hdistinct,
    fun habsolute => FileTree.separates_of_isRooted (fun p hp => ?_) hdistinct⟩
  · rw [Session.componentGraph_eq, Resolver.componentGraph_eq]
    exact hknown
  · obtain ⟨c, hc, rfl⟩ := List.mem_map.1 hp
    exact (hfound c hc).isRooted habsolute

end Session.IsSound

/-! ## Queues -/

theorem mem_noted {σ α ε β : Type} {step : σ → α → Except ε σ} {note : σ → α → List β} {l : List α}
    {s : σ} {b : β} (h : b ∈ noted step note l s) : ∃ a ∈ l, ∃ s', b ∈ note s' a := by
  induction l generalizing s with
  | nil => cases h
  | cons a l ih =>
    rw [noted] at h
    rcases List.mem_append.1 h with hfirst | hlater
    · exact ⟨a, List.mem_cons_self, s, hfirst⟩
    · cases hstep : step s a with
      | error cause =>
        rw [hstep] at hlater
        cases hlater
      | ok next =>
        rw [hstep, notedOf_ok] at hlater
        obtain ⟨a', ha', hnote⟩ := ih hlater
        exact ⟨a', List.mem_cons_of_mem a ha', hnote⟩

namespace Discovery

variable {t : FileTree} {settings : Settings} {d d' : Discovery} {package : String}
  {detectMain : Bool} {origin : Placement → Origin} {file p path : Path} {content : Option String}

/-- The files that wait go on to wait, and those that enter come behind them. -/
theorem pending_inject (h : inject t package detectMain origin d file = .ok d') :
    d'.pending = d.pending ++ enteredByFile t package detectMain origin d file := by
  rw [enteredByFile, h, notedOf_ok]
  rcases (inject_eq_ok h).taken.pending_eq with heq | ⟨-, -, -, heq⟩ <;> rw [heq]
  · simp
  · rw [List.drop_left]

theorem pending_foldlM {α : Type} {step : Discovery → α → Discovered}
    {note : Discovery → α → List Path}
    (hstep : ∀ d a d', step d a = .ok d' → d'.pending = d.pending ++ note d a) {l : List α}
    (h : l.foldlM step d = .ok d') : d'.pending = d.pending ++ noted step note l d := by
  induction l generalizing d with
  | nil =>
    obtain rfl := Except.ok.inj h
    exact (List.append_nil d.pending).symm
  | cons a l ih =>
    rw [List.foldlM_cons] at h
    obtain ⟨next, hfirst, hrest⟩ := exists_of_bind_eq_ok h
    rw [noted, hfirst, notedOf_ok, ← List.append_assoc, ← hstep d a next hfirst]
    exact ih hrest

theorem pending_takeBundle {n : Path × Node ComponentRef} (h : d.takeBundle t n = .ok d') :
    d'.pending = d.pending ++ enteredByBundle t d n := by
  rw [takeBundle_eq] at h
  rw [enteredByBundle]
  split at h
  · next hclaimed =>
    obtain rfl := Except.ok.inj h
    rw [if_pos hclaimed, List.append_nil]
  · next hclaimed =>
    rw [if_neg hclaimed]
    exact pending_foldlM (fun _ _ _ => pending_inject) h

theorem pending_walk (h : d.walk t path content = .ok d') :
    d'.pending = d.pending ++ enteredByWalk t path content d := by
  have himports (h : d.extractImports t path content = .ok d') : d'.pending = d.pending ++ [] := by
    rw [List.append_nil]
    refine (extractImports_reports h).invariant (P := fun e => e.pending = d.pending) ?_ rfl
    intro n _ e e' htaken he
    cases htaken with
    | known => exact he
    | unplaced => exact he
    | placed => exact he
  unfold walk at h
  unfold enteredByWalk
  cases hkind : FileKind.ofPath path with
  | script =>
    rw [hkind] at h
    exact himports h
  | stylesheet =>
    rw [hkind] at h
    exact himports h
  | manifest =>
    rw [hkind] at h
    exact pending_foldlM (d := { d with session := (d.session.componentGraph t path content).2 })
      (fun _ _ _ => pending_takeBundle) h
  | other =>
    rw [hkind] at h
    obtain rfl := Except.ok.inj h
    exact (List.append_nil d.pending).symm

/-- What enters is the file that is taken, once it has been read. -/
theorem mem_enteredByFile (h : p ∈ enteredByFile t package detectMain origin d file) :
    p = file ∧ FileTree.IsShort file.normalize := by
  cases hinject : inject t package detectMain origin d file with
  | error halted =>
    rw [enteredByFile, hinject] at h
    cases h
  | ok next =>
    rw [enteredByFile, hinject, notedOf_ok] at h
    rcases (inject_eq_ok hinject).taken.pending_eq with heq | ⟨-, -, ⟨f, hyields⟩, heq⟩ <;>
      rw [heq] at h
    · simp at h
    · rw [List.drop_left, List.mem_singleton] at h
      exact ⟨h, hyields.isShort⟩

theorem mem_enteredByBundle {n : Path × Node ComponentRef} (h : p ∈ enteredByBundle t d n) :
    p ∈ t.filesBelow n.2.first.directory ∧ FileTree.IsShort p.normalize := by
  rw [enteredByBundle] at h
  split at h
  · cases h
  · obtain ⟨file, hfile, d', hentered⟩ := mem_noted h
    obtain ⟨rfl, hshort⟩ := mem_enteredByFile hentered
    exact ⟨hfile, hshort⟩

/-- A file of a bundle is listed under a path that holds nothing to be resolved. -/
theorem normalize_of_mem_filesBelow {c : ComponentRef} {tree : Path} (hc : c.IsFound t tree)
    (h : p ∈ t.filesBelow c.directory) : p.normalize.SameAs p := by
  obtain ⟨front, name, -, -, -, hcs, -⟩ := FileTree.exists_name_of_mem_filesBelow hc.isDirectory h
  have hnames : p.components = c.directory.components ++ (front ++ [name]).map .name := by
    rw [hcs, List.map_append, List.append_assoc]
    rfl
  have hsettled : Path.IsSettled p.components := by
    rw [hnames]
    refine hc.isSettled.append_names fun c' hc' => ?_
    obtain ⟨s, -, rfl⟩ := List.mem_map.1 hc'
    exact ⟨s, rfl⟩
  have hne : Path.collapse p.components ≠ [] := by
    rw [hsettled, hnames]
    simp
  rw [Path.SameAs, Path.components_normalize hne, hsettled]

/-- What enters while a file is walked are files of bundles. -/
theorem normal_of_mem_enteredByWalk (hd : d.session.IsSound t settings)
    (h : p ∈ enteredByWalk t path content d) :
    p.normalize.SameAs p ∧ FileTree.IsShort p.normalize := by
  unfold enteredByWalk at h
  split at h
  · obtain ⟨n, hn, d', hentered⟩ := mem_noted h
    obtain ⟨hlisted, hshort⟩ := mem_enteredByBundle hentered
    have hfound := hd.all_componentGraph.1 _ _ (PathMap.getElem?_of_mem_toList _ hn)
    exact ⟨normalize_of_mem_filesBelow hfound hlisted, hshort⟩
  · cases h

theorem isSound_walk (hd : d.session.IsSound t settings) (h : d.walk t path content = .ok d') :
    d'.session.IsSound t settings := by
  have hbecomes := becomes_walk (t := t) d path content
  rw [h] at hbecomes
  exact hd.becomes hbecomes

theorem normal_of_mem_enteredByDrain {bound : Nat} (hd : d.session.IsSound t settings)
    (h : p ∈ enteredByDrain t bound d) :
    p.normalize.SameAs p ∧ FileTree.IsShort p.normalize := by
  induction bound generalizing d with
  | zero => cases h
  | succ bound ih =>
    rw [enteredByDrain] at h
    split at h
    · cases h
    · next path rest hpending =>
      have hpopped : ({ d with pending := rest } : Discovery).session.IsSound t settings := hd
      rcases List.mem_append.1 h with hfirst | hlater
      · exact normal_of_mem_enteredByWalk hpopped hfirst
      · cases hwalk : walk t { d with pending := rest } path none with
        | error halted =>
          rw [hwalk] at hlater
          cases hlater
        | ok next =>
          rw [hwalk, notedOf_ok] at hlater
          exact ih (isSound_walk hpopped hwalk) hlater

/-- Only so many paths enter while a queue is worked off. -/
theorem length_enteredByDrain_le (hd : d.session.IsSound t settings) (bound : Nat) :
    (enteredByDrain t bound d).length ≤ FileTree.pathCount :=
  FileTree.length_le_of_normal (becomes_drainUpTo bound d).enters.distinct
    fun _ hp => normal_of_mem_enteredByDrain hd hp

/-- The files in the queue are walked one after the other, until none waits or the discovery
is stopped. -/
inductive Drains (t : FileTree) : Discovery → List Path → Discovered → Prop
  | done {d : Discovery} : d.pending = [] → Drains t d [] (.ok d)
  | halt {d : Discovery} {path : Path} {rest : List Path} {halted : Halted} :
      d.pending = path :: rest →
      ({ d with pending := rest } : Discovery).walk t path none = .error halted →
      Drains t d [path] (.error halted)
  | next {d d' : Discovery} {path : Path} {rest walked : List Path} {x : Discovered} :
      d.pending = path :: rest →
      ({ d with pending := rest } : Discovery).walk t path none = .ok d' →
      Drains t d' walked x → Drains t d (path :: walked) x

/-- The walk of a queue comes to an end within a bound, or more files than that have waited. -/
theorem drains_or_lt (bound : Nat) (d : Discovery) :
    (∃ walked, Drains t d walked (drainUpTo t bound d) ∧
      walked <+: d.pending ++ enteredByDrain t bound d) ∨
      bound < d.pending.length + (enteredByDrain t bound d).length := by
  induction bound generalizing d with
  | zero =>
    cases hpending : d.pending with
    | nil => exact .inl ⟨[], .done hpending, List.nil_prefix⟩
    | cons path rest => exact .inr (by simp)
  | succ bound ih =>
    cases hpending : d.pending with
    | nil =>
      rw [drainUpTo_of_nil hpending]
      exact .inl ⟨[], .done hpending, List.nil_prefix⟩
    | cons path rest =>
      rw [drainUpTo_of_cons hpending, enteredByDrain]
      simp only [hpending]
      cases hwalk : walk t { d with pending := rest } path none with
      | error halted =>
        refine .inl ⟨[path], .halt hpending hwalk, ?_⟩
        simp
      | ok next =>
        have hqueue := pending_walk hwalk
        simp only at hqueue
        rw [notedOf_ok]
        rcases ih next with ⟨walked, hdrains, hbegins⟩ | hlong
        · refine .inl ⟨path :: walked, .next hpending hwalk hdrains, ?_⟩
          rw [hqueue, List.append_assoc] at hbegins
          exact List.cons_prefix_cons.2 ⟨rfl, hbegins⟩
        · rw [hqueue, List.length_append] at hlong
          simp only [List.length_cons, List.length_append]
          exact .inr (by omega)

/-- Every queue is worked off. -/
theorem exists_drains (hd : d.session.IsSound t settings) :
    ∃ walked, Drains t d walked (d.drain t) ∧ walked <+: d.pending ++ enteredByQueue t d := by
  refine (drains_or_lt (d.pending.length + FileTree.pathCount) d).resolve_right fun hlong => ?_
  have hle := length_enteredByDrain_le hd (d.pending.length + FileTree.pathCount)
  omega

/-- The discovery is one of the session that is about to work off its queue: the imports and
components of an input have been collected, or the files of an entry of the full extraction. -/
inductive Begins (t : FileTree) (s : Session) : Discovery → Prop
  | input {file : SourceFile} {bytes : ByteArray} {d : Discovery} : file.contents = some bytes →
      ({ session := s } : Discovery).walk t file.path (some (Text.decodeLossy bytes)) = .ok d →
      Begins t s d
  | entry {name : String} {package : Package} {dir : Path} {d : Discovery} :
      extractedDir? t s name = some (package, dir) →
      (t.filesBelow dir).foldlM (inject t package.name false .fullExtract) { session := s } = .ok d →
      Begins t s d

theorem Begins.isSound {s : Session} (h : Begins t s d) (hs : s.IsSound t settings) :
    d.session.IsSound t settings := by
  cases h with
  | input _ hwalk => exact isSound_walk (d := { session := s }) hs hwalk
  | @entry name package dir d _ hfiles =>
    have hbecomes := becomes_foldlM (@becomes_inject t package.name false .fullExtract)
      (t.filesBelow dir) { session := s }
    rw [hfiles] at hbecomes
    exact hs.becomes hbecomes

end Discovery

/-! ## The end of all that is asked of a session -/

namespace Session

variable {t : FileTree} {settings : Settings}

theorem isSound_answering (t : FileTree) (settings : Settings) (requests : List Request) :
    ((start t settings).answering t requests).IsSound t settings :=
  (IsSound.start t settings).becomes (becomes_answering _ requests)

/-- Whatever a session has been asked, every graph of imports or of components is built in the
end, and every queue is worked off. A graph follows no path twice and, if the package tree is
absolute, no file and no directory; and no path enters a queue twice over the whole session.
A build is a sequence of requests too (`exists_session_build`). -/
theorem answering_ends (t : FileTree) (settings : Settings) (requests : List Request) :
    (∀ entry content, ∃ followed,
      ((start t settings).answering t requests).Imports t settings entry content followed) ∧
    (∀ manifest content, ∃ followed,
      ((start t settings).answering t requests).Uses t settings manifest content followed) ∧
    (∀ d, Discovery.Begins t ((start t settings).answering t requests) d →
      ∃ walked, Discovery.Drains t d walked (d.drain t) ∧
        walked <+: d.pending ++ Discovery.enteredByQueue t d) ∧
    ((start t settings).entered t requests).Pairwise fun p q => ¬p.SameAs q := by
  have hsound := isSound_answering t settings requests
  refine ⟨hsound.exists_imports, hsound.exists_uses, fun d hd => ?_, ?_⟩
  · exact Discovery.exists_drains (hd.isSound hsound)
  · exact (becomes_answering _ requests).enters.distinct

/-! ## Files that are searched twice -/

/-- Among the paths is a spelling of the given one that leads to an entry. -/
def Leads (t : FileTree) (paths : List Path) (p : Path) : Prop :=
  ∃ q ∈ paths, q.SameAs p ∧ ∃ loc, t.locate q = .ok loc

theorem not_separates {paths : List Path} {p q : Path} (hp : Leads t paths p)
    (hq : Leads t paths q) (hne : ¬p.SameAs q) (hsame : t.locationOf p = t.locationOf q) :
    ¬t.Separates paths := by
  obtain ⟨p', hp', hsamep, loc, hloc⟩ := hp
  obtain ⟨q', hq', hsameq, loc', hloc'⟩ := hq
  intro hseparates
  have : Std.Symm fun p q => ∀ loc, t.locate p = .ok loc → t.locate q ≠ .ok loc :=
    ⟨fun _ _ hab loc hb ha => hab loc ha hb⟩
  have hpaths : p' ≠ q' := by
    rintro rfl
    exact hne (hsamep.symm.trans hsameq)
  refine List.Pairwise.forall hseparates hp' hq' hpaths loc hloc ?_
  rw [hloc', ← FileTree.locationOf_of_locate hloc', FileTree.locationOf_congr hsameq, ← hsame,
    ← FileTree.locationOf_congr hsamep, FileTree.locationOf_of_locate hloc]

theorem Imports.leads {s : Session} {entry p : Path} {content : Option String}
    {followed : List Reference} (h : s.Imports t settings entry content followed)
    (hp : (s.dependencyGraph t entry content).1.nodes.contains p = true) :
    Leads t (followed.map (·.target)) p := by
  obtain ⟨ref, href, hsame⟩ := h.knownBy.mem_nodes_iff.1 (Std.TreeMap.contains_iff_mem.1 hp)
  obtain ⟨loc, -, hloc, -⟩ := FileTree.exists_locate_of_isFile (h.isFile ref href)
  exact ⟨ref.target, List.mem_map_of_mem href, hsame, loc, hloc⟩

theorem Uses.leads {s : Session} {manifest p : Path} {content : Option String}
    {followed : List ComponentRef} (h : s.Uses t settings manifest content followed)
    (hp : (s.componentGraph t manifest content).1.nodes.contains p = true) :
    Leads t (followed.map (·.directory)) p := by
  obtain ⟨c, hc, hsame⟩ := h.knownBy.mem_nodes_iff.1 (Std.TreeMap.contains_iff_mem.1 hp)
  obtain ⟨loc, hloc, -⟩ := FileTree.exists_locate_of_isDirectory (h.isDirectory c hc)
  exact ⟨c.directory, List.mem_map_of_mem hc, hsame, loc, hloc⟩

/-- A package with a file, and a package whose built variant is the first one, named from the
root. -/
def aliasTree : FileTree :=
  FileTree.ofEntries [(["node_modules"], .directory), (["node_modules", "p"], .directory),
    (["node_modules", "p", "a.js"], .file "".toUTF8), (["node_modules", "q"], .directory),
    (["node_modules", "q", "package.json"],
      .file "\x7b\"miniprogram\":\"/node_modules/p\"\x7d".toUTF8)]

/-- With an absolute package tree, the graph of an input searches no file twice after one of the
packages has been taken over completely. -/
theorem answering_ends_alias : ∃ followed,
    ((start aliasTree (.forProject ⟨"/"⟩)).answering aliasTree [.entry "p"]).Imports aliasTree
        (.forProject ⟨"/"⟩) ⟨"/x.js"⟩ (some "require('q/a.js')") followed ∧
      aliasTree.Separates (searchedFiles ⟨"/x.js"⟩ (some "require('q/a.js')") followed) := by
  obtain ⟨followed, himports⟩ := (answering_ends aliasTree (.forProject ⟨"/"⟩) [.entry "p"]).1
    ⟨"/x.js"⟩ (some "require('q/a.js')")
  exact ⟨followed, himports, himports.separates (by decide) (by simp)⟩

/-- A package with a file that requires itself. -/
def loopTree : FileTree :=
  FileTree.ofEntries [(["node_modules"], .directory), (["node_modules", "p"], .directory),
    (["node_modules", "p", "a.js"], .file "require('p/a.js')".toUTF8)]

/-- With a relative package tree, a file and a bundle are followed under two paths. With an
absolute one, the file of the entry is searched again if the entry is not given by its normal
path. -/
theorem exists_not_separates :
    (∃ (t : FileTree) (settings : Settings) (entry : Path) (content : Option String)
      (followed : List Reference),
      (start t settings).Imports t settings entry content followed ∧
      ¬t.Separates (followed.map (·.target))) ∧
    (∃ (t : FileTree) (settings : Settings) (manifest : Path) (content : Option String)
      (followed : List ComponentRef),
      (start t settings).Uses t settings manifest content followed ∧
      ¬t.Separates (followed.map (·.directory))) ∧
    ∃ (t : FileTree) (settings : Settings) (entry : Path) (followed : List Reference),
      settings.packageTree.isAbsolute = true ∧
      (start t settings).Imports t settings entry none followed ∧
      ¬t.Separates (entry :: followed.map (·.target)) := by
  refine ⟨?file, ?bundle, ?entry⟩
  case file =>
    obtain ⟨followed, himports⟩ := (IsSound.start aliasTree (.forProject ⟨"."⟩)).exists_imports
      ⟨"x.js"⟩ (some "require('p/a.js');require('q/a.js')")
    refine ⟨aliasTree, .forProject ⟨"."⟩, ⟨"x.js"⟩, some "require('p/a.js');require('q/a.js')",
      followed, himports, ?_⟩
    have hnodes : ∀ p ∈ [(⟨"node_modules/p/a.js"⟩ : Path), ⟨"/node_modules/p/a.js"⟩],
        ((start aliasTree (.forProject ⟨"."⟩)).dependencyGraph aliasTree ⟨"x.js"⟩
          (some "require('p/a.js');require('q/a.js')")).1.nodes.contains p = true := by
      decide +kernel
    exact not_separates (himports.leads (hnodes _ List.mem_cons_self))
      (himports.leads (hnodes _ (List.mem_cons_of_mem _ List.mem_cons_self))) (by decide)
      (by decide)
  case bundle =>
    obtain ⟨followed, huses⟩ := (IsSound.start aliasTree (.forProject ⟨"."⟩)).exists_uses
      ⟨"x.json"⟩ (some "\x7b\"usingComponents\":\x7b\"a\":\"p/c\",\"b\":\"q/c\"\x7d\x7d")
    refine ⟨aliasTree, .forProject ⟨"."⟩, ⟨"x.json"⟩, _, followed, huses, ?_⟩
    have hnodes : ∀ p ∈ [(⟨"node_modules/p"⟩ : Path), ⟨"/node_modules/p"⟩],
        ((start aliasTree (.forProject ⟨"."⟩)).componentGraph aliasTree ⟨"x.json"⟩
          (some "\x7b\"usingComponents\":\x7b\"a\":\"p/c\",\"b\":\"q/c\"\x7d\x7d")).1.nodes.contains
            p = true := by
      decide +kernel
    exact not_separates (huses.leads (hnodes _ List.mem_cons_self))
      (huses.leads (hnodes _ (List.mem_cons_of_mem _ List.mem_cons_self))) (by decide) (by decide)
  case entry =>
    obtain ⟨followed, himports⟩ := (IsSound.start loopTree (.forProject ⟨"/"⟩)).exists_imports
      ⟨"node_modules/p/a.js"⟩ none
    refine ⟨loopTree, .forProject ⟨"/"⟩, ⟨"node_modules/p/a.js"⟩, followed, by decide,
      himports, ?_⟩
    have hnode : ((start loopTree (.forProject ⟨"/"⟩)).dependencyGraph loopTree
        ⟨"node_modules/p/a.js"⟩ none).1.nodes.contains ⟨"/node_modules/p/a.js"⟩ = true := by
      decide +kernel
    have hentry : loopTree.locate ⟨"node_modules/p/a.js"⟩ =
        .ok ["node_modules", "p", "a.js"] := by
      decide +kernel
    obtain ⟨p, hp, hsame, hloc⟩ := himports.leads hnode
    exact not_separates ⟨_, List.mem_cons_self, Path.SameAs.refl _, _, hentry⟩
      ⟨p, List.mem_cons_of_mem _ hp, hsame, hloc⟩ (by decide) (by decide)

end Session

end Vendoring
