/-
# Discoveries within bounds

Some files and bundles bound a discovery if they are closed under everything that its
walks come across. A discovery that starts within such bounds never leaves them, and
fails only if a file within them cannot be read. Nothing in that depends on the order
in which files are found, so what one run of a build ends up with bounds every other.

The walks look everything up as if nothing had been remembered, as long as each file is
asked for under a spelling that reads as its plain one.
-/

import Vendoring.Proofs.Build.Memory
import Vendoring.Proofs.Build.Offers
import Vendoring.Proofs.Build.Tidy

namespace Vendoring

open Text

namespace Resolver

variable (r : Resolver) (inputs : List SourceFile)

/-- The reference stands in an input or in a file of the tree. -/
def Imports (ref : Reference) : Prop :=
  (∃ input ∈ inputs, ∃ bytes, input.contents = some bytes ∧
      ref ∈ r.referencesIn input.path (decodeLossy bytes)) ∨
    ∃ file, ref ∈ r.referencesOf file

/-- The component is declared by an input or by a file of the tree. -/
def Uses (c : ComponentRef) : Prop :=
  (∃ input ∈ inputs, ∃ bytes, input.contents = some bytes ∧
      c ∈ r.componentsFrom input.path (some (decodeLossy bytes))) ∨
    ∃ file, c ∈ r.componentsOf file

end Resolver

/-- Every file is reached as the same part of the same package, by whatever route. -/
structure RoutesAgree (t : FileTree) (s : Session) (inputs : List SourceFile) : Prop where
  /-- The bare name of a package leads to its main file. -/
  named : ∀ ref, (s.resolver t).Imports inputs ref → ref.isMain = true →
    s.planner.isMainFile ref.target ref.package = true
  /-- Nothing imports a manifest. -/
  manifests : ∀ ref, (s.resolver t).Imports inputs ref → FileKind.ofPath ref.target ≠ .manifest
  /-- The files of a bundle belong to the package of the bundle. -/
  bundled : ∀ c, (s.resolver t).Uses inputs c → c.directory.HasTree ∧
    ∀ file ∈ t.filesBelow c.directory, (s.resolver t).packageOf? file = some c.package
  /-- What is taken over completely is listed under paths that can be read. -/
  listed : ∀ entry ∈ s.settings.fullExtract, s.ListsReadably t entry

/-- The file is offered as part of the package that it belongs to, and as the main entry
if it is the main file of that package. No manifest is offered as an import. -/
structure Candidate.IsOwned (r : Resolver) (planner : Planner) (c : Candidate) : Prop where
  isRooted : c.file.IsRooted
  hasTree : c.file.HasTree
  package : r.packageOf? c.file = some c.package
  isMain : c.isMain = planner.isMainFile c.file c.package
  origin : (∀ p, c.origin p = .component p) ∨
    (∀ p, c.origin p = .dependency p) ∧ FileKind.ofPath c.file ≠ .manifest

/-- What a discovery may claim, walk and emit. -/
structure Bounds where
  files : Path → Prop
  /-- The files whose references may be followed. -/
  walked : Path → Prop
  bundles : Path → Prop
  emitted : OutputFile → Prop

namespace Bounds

variable (t : FileTree) (s : Session) (inputs : List SourceFile) (b : Bounds)

/-- The bounds have room for everything that the inputs and the files within refer to. -/
structure IsClosed : Prop where
  files_congr : ∀ {p q : Path}, p.SameAs q → b.files p → b.files q
  walked_congr : ∀ {p q : Path}, p.SameAs q → b.walked p → b.walked q
  bundles_congr : ∀ {p q : Path}, p.SameAs q → b.bundles p → b.bundles q
  inputImports : ∀ input ∈ inputs, input.isNull = false → ∀ bytes, input.contents = some bytes →
    ∀ ref ∈ (s.resolver t).referencesIn input.path (decodeLossy bytes), b.files ref.target
  inputBundles : ∀ input ∈ inputs, input.isNull = false →
    FileKind.ofPath input.path = .manifest → ∀ bytes, input.contents = some bytes →
      ∀ c ∈ (s.resolver t).componentsFrom input.path (some (decodeLossy bytes)),
        b.bundles c.directory
  imported : ∀ ref, (s.resolver t).Imports inputs ref → b.files ref.target → b.walked ref.target
  references : ∀ p, b.walked p → ∀ ref ∈ (s.resolver t).referencesOf p, b.files ref.target
  components : ∀ p, b.walked p → FileKind.ofPath p = .manifest →
    ∀ c ∈ (s.resolver t).componentsOf p, b.bundles c.directory
  onward : ∀ c, (s.resolver t).Uses inputs c → b.bundles c.directory →
    ∀ next ∈ (s.resolver t).componentsOf c.manifest, b.bundles next.directory
  listed : ∀ c, (s.resolver t).Uses inputs c → b.bundles c.directory →
    ∀ file ∈ t.filesBelow c.directory, b.files file ∧ b.walked file
  owned : ∀ c : Candidate, c.IsOwned (s.resolver t) s.planner →
    ∀ f, c.Yields t s.planner f → b.emitted f

/-- Some file that may have to be read cannot be read. -/
def IsBlocked : Prop :=
  ∃ p, b.walked p ∧ ∀ contents, t.read p.normalize ≠ .ok contents

/-- The file is within the bounds, and so is what it is emitted as. -/
structure Admits (c : Candidate) : Prop where
  file : b.files c.file
  walked : b.walked c.file
  emitted : ∀ f, c.Yields t s.planner f → b.emitted f

/-- What the discovery has claimed, emitted and queued is within the bounds. -/
structure Holds (d : Discovery) : Prop where
  recalls : Discovered.Recalls t s (.ok d)
  files : ∀ p ∈ d.session.claimedFiles, b.files p
  bundles : ∀ dir ∈ d.session.claimedBundles, b.bundles dir
  pending : ∀ p ∈ d.pending, b.walked p
  outputs : ∀ f ∈ d.outputs, b.emitted f

/-- The discovery goes on within the bounds, or a file within them was in its way. -/
inductive Contains : Discovered → Prop
  | ok {d : Discovery} : b.Holds t s d → Contains (.ok d)
  | error {h : Halted} : b.IsBlocked t → Contains (.error h)

variable {t s inputs b} {d : Discovery} {x : Discovered}

/-! ## Steps -/

theorem Contains.holds (h : b.Contains t s (.ok d)) : b.Holds t s d := by
  cases h with
  | ok hd => exact hd

theorem Contains.bind {f : Discovery → Discovered} (h : b.Contains t s x)
    (hf : ∀ d, b.Holds t s d → b.Contains t s (f d)) : b.Contains t s (x >>= f) := by
  cases h with
  | ok hd => exact hf _ hd
  | error hblocked => exact .error hblocked

theorem Holds.foldlM {α : Type} {f : Discovery → α → Discovered} {l : List α}
    (h : b.Holds t s d) (hf : ∀ a ∈ l, ∀ d, b.Holds t s d → b.Contains t s (f d a)) :
    b.Contains t s (l.foldlM f d) := by
  induction l generalizing d with
  | nil => exact .ok h
  | cons a l ih =>
    rw [List.foldlM_cons]
    exact (hf a (by simp) d h).bind fun d hd => ih hd fun b hb => hf b (List.mem_cons_of_mem _ hb)

theorem Holds.planner (h : b.Holds t s d) : d.session.planner = s.planner := by
  rw [Session.planner, h.recalls.session.catalog_eq, h.recalls.session.settings_eq]
  rfl

/-- A file within the bounds may be taken. -/
theorem Holds.taken (hclosed : b.IsClosed t s inputs) {c : Candidate} (hc : b.Admits t s c)
    (h : b.Holds t s d) (hrecalls : x.Recalls t s) (hok : ∀ d', x = .ok d' → Taken t c d d')
    (hsucceeds : (∀ p, d.session.planner.place? c.file c.package c.isMain = some p →
      ∃ contents, t.read p.source = .ok contents) → ∃ d', x = .ok d') :
    b.Contains t s x := by
  cases x with
  | error halted =>
    by_contra hnot
    obtain ⟨d', hd'⟩ := hsucceeds fun p hplace => by
      by_contra hunread
      refine hnot (.error ⟨c.file, hc.walked, fun contents hread => hunread ⟨contents, ?_⟩⟩)
      rwa [Planner.source_of_place? hplace]
    simp at hd'
  | ok d' =>
    have htaken := hok d' rfl
    refine .ok ⟨hrecalls, fun p hp => ?_, htaken.claimedBundles_eq ▸ h.bundles, fun p hp => ?_,
      fun f hf => ?_⟩
    · rcases (htaken.mem_claimedFiles p).1 hp with hsame | hp
      · exact hclosed.files_congr hsame hc.file
      · exact h.files p hp
    · rcases htaken.mem_pending hp with hp | ⟨rfl, -⟩
      · exact h.pending p hp
      · exact hc.walked
    · rcases htaken.mem_outputs hf with hf | ⟨-, hyields⟩
      · exact h.outputs f hf
      · rw [h.planner] at hyields
        exact hc.emitted f hyields

theorem Holds.takeImport (hclosed : b.IsClosed t s inputs) {n : Path × Node Reference}
    (hn : b.Admits t s (.imported s.planner n)) (h : b.Holds t s d) :
    b.Contains t s (d.takeImport t n) := by
  rw [← h.planner] at hn
  exact h.taken hclosed hn (h.recalls.takeImport n)
    (fun _ hok => (Discovery.takeImport_eq_ok hok).taken) Discovery.exists_takeImport

theorem Holds.inject (hclosed : b.IsClosed t s inputs) {package : String} {detectMain : Bool}
    {origin : Placement → Origin} {file : Path}
    (hfile : b.Admits t s (.listed s.planner package detectMain origin file))
    (hread : (FileKind.ofPath file).isRewritable = true → t.ReadsAsPlain file)
    (h : b.Holds t s d) : b.Contains t s (Discovery.inject t package detectMain origin d file) := by
  rw [← h.planner] at hfile
  exact h.taken hclosed hfile (h.recalls.inject _ _ _ hread)
    (fun _ hok => (Discovery.inject_eq_ok hok).taken) Discovery.exists_inject

/-! ## Imports -/

end Bounds

theorem Session.Recalls.explored_dependencyGraph {t : FileTree} {s s' : Session}
    (h : s'.Recalls t s) {path : Path} {content : Option String}
    (hpath : content = none → t.ReadsAsPlain path) :
    ∃ done, Graph.Explored ((s.resolver t).imports path) (s.resolver t).referencesOf
      ((s.resolver t).referencesFrom path content) done [] (s'.dependencyGraph t path content).1 := by
  rw [Session.dependencyGraph_eq, h.resolver]
  obtain ⟨⟨bound, hwalk⟩, -⟩ :=
    Resolver.dependencyGraph_of_agrees Loader.isPlain_default h.references hpath
  exact Graph.explored_nil.walk? hwalk

theorem Session.Recalls.explored_componentGraph {t : FileTree} {s s' : Session}
    (h : s'.Recalls t s) {path : Path} {content : Option String}
    (hpath : content = none → t.ReadsAsPlain path) :
    ∃ done, Graph.Explored (s.resolver t).declarations (s.resolver t).componentsOf
      ((s.resolver t).componentsFrom path content) done [] (s'.componentGraph t path content).1 := by
  rw [Session.componentGraph_eq, h.resolver]
  obtain ⟨⟨bound, hwalk⟩, -⟩ := Resolver.componentGraph_of_agrees h.components hpath
  exact Graph.explored_nil.walk? hwalk

namespace Bounds

variable {t : FileTree} {settings : Settings} {s : Session} {inputs : List SourceFile} {b : Bounds}
variable {d : Discovery}

theorem IsClosed.of_reached (hclosed : b.IsClosed t s inputs) {entry : Path}
    {refs : List Reference}
    (hrefs : ∀ ref ∈ refs, (s.resolver t).Imports inputs ref ∧ b.files ref.target)
    {ref : Reference}
    (hreached : ((s.resolver t).imports entry).Reached (s.resolver t).referencesOf refs ref) :
    (s.resolver t).Imports inputs ref ∧ b.files ref.target := by
  induction hreached with
  | start hmem => exact hrefs _ hmem
  | @onward ref next _ _ hmem ih =>
    have hwalked := hclosed.imported ref ih.1 ih.2
    exact ⟨.inr ⟨ref.target, hmem⟩, hclosed.references _ hwalked next hmem⟩

theorem isInstalled_of_imports (htidy : IsTidy t settings) {ref : Reference}
    (h : ((Session.start t settings).resolver t).Imports inputs ref) : ref.IsInstalled t := by
  rcases h with ⟨input, -, bytes, -, hmem⟩ | ⟨file, hmem⟩
  · exact htidy.isInstalled_of_mem_referencesIn hmem
  · exact htidy.isInstalled_of_mem_referencesOf hmem

theorem packageOf?_of_imports {r : Resolver} {ref : Reference} (h : r.Imports inputs ref) :
    r.packageOf? ref.target = some ref.package := by
  have hresolves : r.Resolves ref := by
    rcases h with ⟨input, -, bytes, -, hmem⟩ | ⟨file, hmem⟩
    · exact Resolver.resolves_of_mem_referencesIn ref hmem
    · exact Resolver.resolves_of_mem_referencesOf ref hmem
  obtain ⟨specifier, file, hresolve⟩ := hresolves
  exact (Resolver.resolve?_eq_some hresolve).2.2.1

/-- A walk of imports offers files as what they are. -/
theorem isOwned_imported (htidy : IsTidy t settings)
    (hroutes : RoutesAgree t (.start t settings) inputs)
    (hclosed : b.IsClosed t (.start t settings) inputs) {entry : Path} {refs : List Reference}
    (hrefs : ∀ ref ∈ refs, ((Session.start t settings).resolver t).Imports inputs ref ∧
      b.files ref.target) {done : List (Reference × Bool)} {g : DependencyGraph}
    (hexplored : Graph.Explored (((Session.start t settings).resolver t).imports entry)
      ((Session.start t settings).resolver t).referencesOf refs done [] g)
    {n : Path × Node Reference} (hn : n ∈ g.toList) :
    (Candidate.imported (Session.start t settings).planner n).IsOwned
      ((Session.start t settings).resolver t) (Session.start t settings).planner := by
  have hdescribes := hexplored.describes _ _ (PathMap.getElem?_of_mem_toList _ hn)
  obtain ⟨himports, -⟩ := hclosed.of_reached hrefs hdescribes.reached
  have hinstalled := isInstalled_of_imports htidy himports
  have hsame : n.2.first.target.SameAs n.1 := hdescribes.leads.2
  refine ⟨hsame.isRooted hinstalled.isRooted, hsame.hasTree hinstalled.hasTree, ?_, ?_,
    .inr ⟨fun p => rfl, ?_⟩⟩
  · exact (Resolver.packageOf?_congr _ hsame.symm).trans (packageOf?_of_imports himports)
  · -- a place is a main entry if some reference names the package, and then it is the main file
    show (n.2.isMain || _) = _
    cases hmain : n.2.isMain with
    | false => rfl
    | true =>
      obtain ⟨x, hx, hlead, hxMain⟩ := hdescribes.isMain.1 hmain
      obtain ⟨hxImports, -⟩ := hclosed.of_reached hrefs (hexplored.reached (.inl hx))
      have htarget : x.1.target = n.2.first.target :=
        Path.SameAs.eq_of_isPlain (hlead.2.trans hsame.symm)
          (isInstalled_of_imports htidy hxImports).isPlain hinstalled.isPlain
      have hpackage : x.1.package = n.2.first.package := by
        have hx := packageOf?_of_imports hxImports
        rw [htarget, packageOf?_of_imports himports] at hx
        exact (Option.some.inj hx).symm
      have hnamed := hroutes.named x.1 hxImports hxMain
      rw [htarget, hpackage, Planner.isMainFile_congr hsame] at hnamed
      exact hnamed.symm
  · show FileKind.ofPath n.1 ≠ .manifest
    rw [← FileKind.ofPath_congr hsame]
    exact hroutes.manifests _ himports

theorem Holds.extractImports (htidy : IsTidy t settings)
    (hroutes : RoutesAgree t (.start t settings) inputs)
    (hclosed : b.IsClosed t (.start t settings) inputs) {path : Path} {content : Option String}
    (hpath : content = none → t.ReadsAsPlain path)
    (hrefs : ∀ ref ∈ ((Session.start t settings).resolver t).referencesFrom path content,
      ((Session.start t settings).resolver t).Imports inputs ref ∧ b.files ref.target)
    (h : b.Holds t (.start t settings) d) :
    b.Contains t (.start t settings) (d.extractImports t path content) := by
  obtain ⟨done, hexplored⟩ := h.recalls.session.explored_dependencyGraph hpath
  have hstart : b.Holds t (.start t settings)
      { d with session := (d.session.dependencyGraph t path content).2 } :=
    { h with recalls := .ok (h.recalls.session.dependencyGraph hpath) h.recalls.waiting }
  refine hstart.foldlM fun n hn d hd => hd.takeImport hclosed ?_
  have howned := isOwned_imported htidy hroutes hclosed hrefs hexplored hn
  have hdescribes := hexplored.describes _ _ (PathMap.getElem?_of_mem_toList _ hn)
  obtain ⟨himports, hfile⟩ := hclosed.of_reached hrefs hdescribes.reached
  have hsame : n.2.first.target.SameAs n.1 := hdescribes.leads.2
  exact ⟨hclosed.files_congr hsame hfile, hclosed.walked_congr hsame (hclosed.imported _ himports hfile),
    hclosed.owned _ howned⟩

/-! ## Components -/

theorem isRooted_of_uses (htidy : IsTidy t settings) {c : ComponentRef}
    (h : ((Session.start t settings).resolver t).Uses inputs c) : c.IsRooted := by
  rcases h with ⟨input, -, bytes, -, hmem⟩ | ⟨file, hmem⟩
  · obtain ⟨json, hmem⟩ := Resolver.exists_of_mem_componentsFrom hmem
    exact htidy.isRooted_of_mem_componentsIn hmem
  · exact htidy.isRooted_of_mem_componentsIn hmem

theorem IsClosed.of_reached_declarations (hclosed : b.IsClosed t s inputs)
    {refs : List ComponentRef}
    (hrefs : ∀ c ∈ refs, (s.resolver t).Uses inputs c ∧ b.bundles c.directory)
    {c : ComponentRef}
    (hreached : (s.resolver t).declarations.Reached (s.resolver t).componentsOf refs c) :
    (s.resolver t).Uses inputs c ∧ b.bundles c.directory := by
  induction hreached with
  | start hmem => exact hrefs _ hmem
  | @onward c next _ _ hmem ih =>
    exact ⟨.inr ⟨c.manifest, hmem⟩, hclosed.onward c ih.1 ih.2 next hmem⟩

/-- The files of a bundle are offered as what they are. -/
theorem isOwned_bundled (htidy : IsTidy t settings)
    (hroutes : RoutesAgree t (.start t settings) inputs) {c : ComponentRef}
    (hc : ((Session.start t settings).resolver t).Uses inputs c) {file : Path}
    (hfile : file ∈ t.filesBelow c.directory) :
    (Candidate.listed (Session.start t settings).planner c.package true .component file).IsOwned
      ((Session.start t settings).resolver t) (Session.start t settings).planner := by
  obtain ⟨htree, hpackage⟩ := hroutes.bundled c hc
  have hrooted := (FileTree.holdsFile_of_mem_filesBelow (isRooted_of_uses htidy hc).directory
    hfile).isRooted
  refine ⟨hrooted, ?_, hpackage file hfile, Bool.true_and _, .inl fun p => rfl⟩
  obtain ⟨names, hnames, rfl, hne⟩ := FileTree.mem_filesBelow hfile
  refine htree.of_startsWith ?_
  show _ <+: (FileTree.pathTo c.directory names).components
  rw [(FileTree.pathTo_spec hne hnames).1]
  exact List.prefix_append _ _

theorem Holds.takeBundle (htidy : IsTidy t settings)
    (hroutes : RoutesAgree t (.start t settings) inputs)
    (hclosed : b.IsClosed t (.start t settings) inputs) {n : Path × Node ComponentRef}
    (hn : ((Session.start t settings).resolver t).Uses inputs n.2.first)
    (hbundle : b.bundles n.2.first.directory) (hsame : n.2.first.directory.SameAs n.1)
    (h : b.Holds t (.start t settings) d) :
    b.Contains t (.start t settings) (d.takeBundle t n) := by
  obtain ⟨directory, node⟩ := n
  have hplain := (isRooted_of_uses htidy hn).isPlain
  have hfiles (d : Discovery) (hd : b.Holds t (.start t settings) d) :
      b.Contains t (.start t settings) ((t.filesBelow node.first.directory).foldlM
        (Discovery.inject t node.first.package true .component) d) := by
    refine hd.foldlM fun file hfile d hd => hd.inject hclosed ?_ fun _ => ?_
    · obtain ⟨hfileIn, hwalked⟩ := hclosed.listed _ hn hbundle file hfile
      exact ⟨hfileIn, hwalked, hclosed.owned _ (isOwned_bundled htidy hroutes hn hfile)⟩
    · exact FileTree.readsAsPlain_of_mem_filesBelow hplain hfile
  have hclaimed (events : List Event) : b.Holds t (.start t settings)
      { d with session := d.session.claimDirectory directory, events := events } := by
    refine { h with recalls := h.recalls.claimDirectory directory events, bundles := ?_ }
    intro dir hdir
    rcases (PathMap.mem_insert _ _ _ _).1 hdir with hdirSame | hdir
    · exact hclosed.bundles_congr (hsame.trans hdirSame) hbundle
    · exact h.bundles dir hdir
  by_cases hdir : directory ∈ d.session.claimedBundles
  · simpa [Discovery.takeBundle, Session.claimBundle?, hdir] using Contains.ok h
  · simp only [Discovery.takeBundle, Session.claimBundle?, Std.TreeMap.contains_iff_mem, hdir,
      if_false]
    split
    · exact hfiles _ (hclaimed _)
    · exact hfiles _ (hclaimed _)

theorem Holds.extractComponents (htidy : IsTidy t settings)
    (hroutes : RoutesAgree t (.start t settings) inputs)
    (hclosed : b.IsClosed t (.start t settings) inputs) {path : Path} {content : Option String}
    (hpath : content = none → t.ReadsAsPlain path)
    (hrefs : ∀ c ∈ ((Session.start t settings).resolver t).componentsFrom path content,
      ((Session.start t settings).resolver t).Uses inputs c ∧ b.bundles c.directory)
    (h : b.Holds t (.start t settings) d) :
    b.Contains t (.start t settings) (d.extractComponents t path content) := by
  obtain ⟨done, hexplored⟩ := h.recalls.session.explored_componentGraph hpath
  have hstart : b.Holds t (.start t settings)
      { d with session := (d.session.componentGraph t path content).2 } :=
    { h with recalls := .ok (h.recalls.session.componentGraph hpath) h.recalls.waiting }
  refine hstart.foldlM fun n hn d hd => ?_
  have hdescribes := hexplored.describes _ _ (PathMap.getElem?_of_mem_toList _ hn)
  obtain ⟨huses, hbundle⟩ := hclosed.of_reached_declarations hrefs hdescribes.reached
  exact hd.takeBundle htidy hroutes hclosed huses hbundle hdescribes.leads.2

/-! ## Whole discoveries -/

/-- A file that comes out of the queue is followed within the bounds. -/
theorem Holds.walkQueued (htidy : IsTidy t settings)
    (hroutes : RoutesAgree t (.start t settings) inputs)
    (hclosed : b.IsClosed t (.start t settings) inputs) {path : Path} (hwalked : b.walked path)
    (hread : t.ReadsAsPlain path) (h : b.Holds t (.start t settings) d) :
    b.Contains t (.start t settings) (d.walk t path none) := by
  have himports : b.Contains t (.start t settings) (d.extractImports t path none) :=
    h.extractImports htidy hroutes hclosed (fun _ => hread) fun ref href =>
      ⟨.inr ⟨path, href⟩, hclosed.references path hwalked ref href⟩
  unfold Discovery.walk
  split
  · exact himports
  · exact himports
  · next hkind =>
    exact h.extractComponents htidy hroutes hclosed (fun _ => hread) fun c hc =>
      ⟨.inr ⟨path, hc⟩, hclosed.components path hwalked hkind c hc⟩
  · exact .ok h

theorem Holds.drain (htidy : IsTidy t settings)
    (hroutes : RoutesAgree t (.start t settings) inputs)
    (hclosed : b.IsClosed t (.start t settings) inputs) (h : b.Holds t (.start t settings) d) :
    b.Contains t (.start t settings) (d.drain t) := by
  unfold Discovery.drain
  generalize d.pending.length + FileTree.pathCount = bound
  induction bound generalizing d with
  | zero => exact .ok h
  | succ bound ih =>
    cases hpending : d.pending with
    | nil =>
      rw [Discovery.drainUpTo_of_nil hpending]
      exact .ok h
    | cons path rest =>
      rw [Discovery.drainUpTo_of_cons hpending]
      have hmem : path ∈ d.pending := by simp [hpending]
      have hrest (p : Path) (hp : p ∈ rest) : p ∈ d.pending := by simp [hpending, hp]
      have hpopped : b.Holds t (.start t settings) { d with pending := rest } :=
        { h with
          recalls := .ok h.recalls.session fun p hp => h.recalls.waiting p (hrest p hp)
          pending := fun p hp => h.pending p (hrest p hp) }
      exact (hpopped.walkQueued htidy hroutes hclosed (h.pending path hmem)
        (h.recalls.waiting path hmem)).bind fun d hd => ih hd

/-- An input is followed within the bounds. -/
theorem Holds.ofInput (htidy : IsTidy t settings)
    (hroutes : RoutesAgree t (.start t settings) inputs)
    (hclosed : b.IsClosed t (.start t settings) inputs) {input : SourceFile}
    (hinput : input ∈ inputs) (hfull : input.isNull = false)
    (h : b.Holds t (.start t settings) { session := s }) :
    b.Contains t (.start t settings) (Discovery.ofInput t s input) := by
  obtain ⟨bytes, hbytes⟩ := input.exists_contents hfull
  have himports : b.Contains t (.start t settings)
      (({ session := s } : Discovery).extractImports t input.path (some (decodeLossy bytes))) :=
    h.extractImports htidy hroutes hclosed (by simp) fun ref href =>
      ⟨.inl ⟨input, hinput, bytes, hbytes, href⟩,
        hclosed.inputImports input hinput hfull bytes hbytes ref href⟩
  rw [Discovery.ofInput, hbytes]
  refine Contains.bind ?_ fun d hd => hd.drain htidy hroutes hclosed
  unfold Discovery.walk
  split
  · exact himports
  · exact himports
  · next hkind =>
    exact h.extractComponents htidy hroutes hclosed (by simp) fun c hc =>
      ⟨.inl ⟨input, hinput, bytes, hbytes, hc⟩,
        hclosed.inputBundles input hinput hfull hkind bytes hbytes c hc⟩
  · exact .ok h

end Bounds

end Vendoring
