/-
# Everything once

A file is emitted when it is claimed, and a bundle is reported when it is claimed, so
over all the builds of a session nothing is emitted or reported twice. A file is claimed
under one of several spellings, and emitted under its normal form. As long as packages
stay at paths from the root, these name one file.
-/

import Vendoring.Proofs.Build.Offers
import Vendoring.Proofs.Build.Tidy
import Vendoring.Proofs.Graph.Component

namespace Vendoring

namespace Event

variable (r : Resolver)

/-- The event reports the file at the path, to which some specifier leads. -/
def ReportsFile (e : Event) (p : Path) : Prop :=
  ∃ ref, r.Resolves ref ∧ ref.target = p ∧ e = .dependencyExtracted ref.specifier ref.package

/-- The event reports the bundle in the directory, to which some declaration leads. -/
def ReportsBundle (e : Event) (dir : Path) : Prop :=
  ∃ c, r.Declares c ∧ c.directory = dir ∧ e = .componentExtracted c.specifier c.package

/-- Whether the event reports a file. -/
def isDependency : Event → Bool
  | dependencyExtracted _ _ => true
  | _ => false

/-- Whether the event reports a bundle. -/
def isComponent : Event → Bool
  | componentExtracted _ _ => true
  | _ => false

end Event

/-- What a session has emitted and reported: no file twice, a report of a file only where
that file was emitted as an imported one, and no report of a bundle twice. -/
structure EmitsOnce (r : Resolver) (s : Session) (files : List OutputFile) (events : List Event) :
    Prop where
  claimed : ∀ f ∈ files, f.source ∈ s.claimedFiles
  distinct : files.Pairwise fun f g => ¬f.source.SameAs g.source
  dependencies : ∃ targets, targets.Pairwise (fun p q => ¬Path.SameAs p q) ∧
    (∀ p ∈ targets, ∃ f ∈ files, f.source = p ∧ ∃ place, f.origin = .dependency place) ∧
    List.Forall₂ (Event.ReportsFile r) (events.filter Event.isDependency) targets
  components : ∃ dirs, dirs.Pairwise (fun p q => ¬Path.SameAs p q) ∧
    (∀ dir ∈ dirs, dir ∈ s.claimedBundles) ∧
    List.Forall₂ (Event.ReportsBundle r) (events.filter Event.isComponent) dirs

namespace EmitsOnce

variable {r : Resolver} {s s' : Session} {files : List OutputFile} {events report : List Event}

/-- More may be claimed, and reported as long as it is neither a file nor a bundle. -/
theorem grow (h : EmitsOnce r s files events)
    (hfiles : ∀ p ∈ s.claimedFiles, p ∈ s'.claimedFiles)
    (hbundles : ∀ p ∈ s.claimedBundles, p ∈ s'.claimedBundles)
    (hreport : ∀ e ∈ report, e.isDependency = false ∧ e.isComponent = false) :
    EmitsOnce r s' files (events ++ report) := by
  have hdependency : report.filter Event.isDependency = [] :=
    List.filter_eq_nil_iff.2 fun e he => by simp [(hreport e he).1]
  have hcomponent : report.filter Event.isComponent = [] :=
    List.filter_eq_nil_iff.2 fun e he => by simp [(hreport e he).2]
  obtain ⟨dirs, hdirs, hclaimed, hreported⟩ := h.components
  refine ⟨fun f hf => hfiles _ (h.claimed f hf), h.distinct, ?_, dirs, hdirs,
    fun dir hdir => hbundles _ (hclaimed dir hdir), ?_⟩
  · simpa [hdependency] using h.dependencies
  · simpa [hcomponent] using hreported

/-- A file that was not claimed may be emitted, with a report if it is imported. -/
theorem emit {f : OutputFile} (h : EmitsOnce r s files events)
    (hfiles : ∀ p ∈ s.claimedFiles, p ∈ s'.claimedFiles)
    (hbundles : s'.claimedBundles = s.claimedBundles)
    (hclaimed : f.source ∈ s'.claimedFiles) (hnew : f.source ∉ s.claimedFiles)
    (hreport : report = [] ∨ ∃ e, report = [e] ∧ e.ReportsFile r f.source ∧
      ∃ place, f.origin = .dependency place) :
    EmitsOnce r s' (files ++ [f]) (events ++ report) := by
  obtain ⟨targets, htargets, hemitted, hreported⟩ := h.dependencies
  have hemitted' : ∀ p ∈ targets, ∃ g ∈ files ++ [f], g.source = p ∧
      ∃ place, g.origin = .dependency place := fun p hp =>
    let ⟨g, hg, hsource⟩ := hemitted p hp
    ⟨g, List.mem_append_left _ hg, hsource⟩
  refine { claimed := ?_, distinct := ?_, dependencies := ?_, components := ?_ }
  · intro g hg
    rcases List.mem_append.1 hg with hg | hg
    · exact hfiles _ (h.claimed g hg)
    · rwa [List.mem_singleton.1 hg]
  · -- whatever was emitted before had been claimed
    refine List.pairwise_append.2 ⟨h.distinct, by simp, fun g hg k hk hsame => hnew ?_⟩
    rw [List.mem_singleton.1 hk] at hsame
    exact (PathMap.mem_congr _ hsame).1 (h.claimed g hg)
  · rcases hreport with rfl | ⟨e, rfl, hreports, horigin⟩
    · exact ⟨targets, htargets, hemitted', by simpa using hreported⟩
    · obtain ⟨ref, -, -, rfl⟩ := id hreports
      refine ⟨targets ++ [f.source], ?_, ?_, ?_⟩
      · refine List.pairwise_append.2 ⟨htargets, by simp, fun p hp q hq hsame => hnew ?_⟩
        obtain ⟨g, hg, rfl, -⟩ := hemitted p hp
        rw [List.mem_singleton.1 hq] at hsame
        exact (PathMap.mem_congr _ hsame).1 (h.claimed g hg)
      · intro p hp
        rcases List.mem_append.1 hp with hp | hp
        · exact hemitted' p hp
        · exact ⟨f, by simp, (List.mem_singleton.1 hp).symm, horigin⟩
      · rw [List.filter_append]
        exact List.rel_append hreported (.cons hreports .nil)
  · rw [hbundles]
    rcases hreport with rfl | ⟨e, rfl, ⟨ref, -, -, rfl⟩, -⟩
    · simpa using h.components
    · simpa [Event.isComponent] using h.components

/-- A bundle that was not claimed may be reported. -/
theorem announce {dir : Path} {e : Event} (h : EmitsOnce r s files events)
    (hfiles : s'.claimedFiles = s.claimedFiles)
    (hbundles : ∀ p ∈ s.claimedBundles, p ∈ s'.claimedBundles)
    (hclaimed : dir ∈ s'.claimedBundles) (hnew : dir ∉ s.claimedBundles)
    (hreports : e.ReportsBundle r dir) : EmitsOnce r s' files (events ++ [e]) := by
  obtain ⟨c, -, -, rfl⟩ := id hreports
  obtain ⟨dirs, hdirs, hdirsClaimed, hreported⟩ := h.components
  refine ⟨hfiles ▸ h.claimed, h.distinct, ?_, dirs ++ [dir], ?_, ?_, ?_⟩
  · simpa [Event.isDependency] using h.dependencies
  · refine List.pairwise_append.2 ⟨hdirs, by simp, fun p hp q hq hsame => hnew ?_⟩
    rw [List.mem_singleton.1 hq] at hsame
    exact (PathMap.mem_congr _ hsame).1 (hdirsClaimed p hp)
  · intro p hp
    rcases List.mem_append.1 hp with hp | hp
    · exact hbundles p (hdirsClaimed p hp)
    · rwa [List.mem_singleton.1 hp]
  · rw [List.filter_append]
    exact List.rel_append hreported (.cons hreports .nil)

/-- What is emitted counts by where it lies and how it was reached, in any order. -/
theorem perm {files' : List OutputFile} (h : EmitsOnce r s files events)
    (hperm : (files.map fun f => (f.source, f.origin)).Perm
      (files'.map fun f => (f.source, f.origin))) : EmitsOnce r s files' events := by
  have hmem {f : OutputFile} (hf : f ∈ files') : ∃ g ∈ files, g.source = f.source := by
    obtain ⟨g, hg, heq⟩ := List.mem_map.1 (hperm.mem_iff.2 (List.mem_map_of_mem hf))
    exact ⟨g, hg, congrArg Prod.fst heq⟩
  refine ⟨fun f hf => ?_, ?_, ?_, h.components⟩
  · obtain ⟨g, hg, hsource⟩ := hmem hf
    exact hsource ▸ h.claimed g hg
  · have hsources : (files.map OutputFile.source).Perm (files'.map OutputFile.source) := by
      simpa only [List.map_map, Function.comp_def] using hperm.map Prod.fst
    have hdistinct : (files.map OutputFile.source).Pairwise fun p q => ¬p.SameAs q :=
      List.pairwise_map.2 h.distinct
    exact List.pairwise_map.1 (hdistinct.perm hsources fun hne hsame => hne hsame.symm)
  · obtain ⟨targets, htargets, hemitted, hreported⟩ := h.dependencies
    refine ⟨targets, htargets, fun p hp => ?_, hreported⟩
    obtain ⟨g, hg, rfl, place, horigin⟩ := hemitted p hp
    obtain ⟨f, hf, heq⟩ := List.mem_map.1 (hperm.mem_iff.1 (List.mem_map_of_mem hg))
    obtain ⟨hsource, horigin'⟩ := Prod.mk.inj heq
    exact ⟨f, hf, hsource, place, horigin'.trans horigin⟩

end EmitsOnce

/-- What a file fulfils that is offered to a discovery together with a report: what is
reported is an imported file, under its normal form. -/
structure Candidate.IsReportedBy (r : Resolver) (c : Candidate) (report : List Event) : Prop where
  normal : c.file.normalize.SameAs c.file
  origin : ∀ p, c.origin p ≠ .input
  report : report = [] ∨ ∃ e, report = [e] ∧ e.ReportsFile r c.file.normalize ∧
    ∀ p, c.origin p = .dependency p

namespace Discovery

/-- The account of what has been emitted and reported up to a discovery under way, after
discoveries that collected the files in `past` and reported the events in `told`. -/
structure Once (t : FileTree) (s : Session) (past : List OutputFile) (told : List Event)
    (d : Discovery) : Prop where
  offers : Offers t s d
  origin : ∀ f ∈ past ++ d.outputs, f.isDependency = true
  emits : EmitsOnce (s.resolver t) d.session (past ++ d.outputs) (told ++ d.events)

namespace Once

variable {t : FileTree} {settings : Settings} {s s' : Session} {past : List OutputFile}
variable {told : List Event} {d d' : Discovery}

theorem start (t : FileTree) (settings : Settings) :
    Once t (.start t settings) [] [] { session := .start t settings } where
  offers := .start t settings
  origin := by simp
  emits := ⟨by simp, .nil, ⟨[], .nil, by simp, .nil⟩, [], .nil, by simp, .nil⟩

/-- Other events may be reported at any time. -/
theorem tell {events : List Event} (h : Once t s past told d)
    (hevents : ∀ e ∈ events, e.isDependency = false ∧ e.isComponent = false) :
    Once t s past told { d with events := d.events ++ events } where
  offers := h.offers.congr rfl rfl
  origin := h.origin
  emits := by
    rw [← List.append_assoc]
    exact h.emits.grow (fun _ hp => hp) (fun _ hp => hp) hevents

/-- The next discovery starts from what has been told. -/
theorem next (h : Once t s past told d) :
    Once t s (past ++ d.outputs) (told ++ d.events) { session := d.session } where
  offers := h.offers.next
  origin := by simpa using h.origin
  emits := by simpa using h.emits

theorem taken {c : Candidate} {report : List Event} (hoffered : c.IsOffered t s)
    (hc : c.IsReportedBy (s.resolver t) report) (h : Once t s past told d)
    (htaken : TakenWith t c report d d') : Once t s past told d' := by
  have hoffers := h.offers.taken hoffered htaken.taken
  have hmem := htaken.taken.mem_claimedFiles
  have hgrow (p : Path) (hp : p ∈ d.session.claimedFiles) : p ∈ d'.session.claimedFiles :=
    (hmem p).2 (.inr hp)
  cases htaken with
  | known => exact h
  | unplaced =>
    refine ⟨hoffers, h.origin, ?_⟩
    have hemits := h.emits.grow hgrow (fun _ hp => hp) (by simp : ∀ e ∈ [], _)
    rwa [List.append_nil] at hemits
  | @placed place contents hnew hplace hread =>
    have hsource : place.source = c.file.normalize := Planner.source_of_place? hplace
    have hsame : place.source.SameAs c.file := hsource ▸ hc.normal
    refine ⟨hoffers, ?_, ?_⟩
    · intro f hf
      rw [← List.append_assoc] at hf
      rcases List.mem_append.1 hf with hf | hf
      · exact h.origin f hf
      · rw [List.mem_singleton.1 hf]
        exact decide_eq_true (hc.origin place)
    · rw [← List.append_assoc, ← List.append_assoc]
      refine h.emits.emit hgrow rfl ((hmem _).2 (.inl hsame.symm))
        (fun hclaimed => hnew ((PathMap.mem_congr _ hsame).1 hclaimed)) ?_
      rcases hc.report with hnone | ⟨e, he, hreports, horigin⟩
      · exact .inl hnone
      · exact .inr ⟨e, he, by rwa [← hsource] at hreports, place, horigin place⟩

theorem listed {planner : Planner} {package : String} {detectMain : Bool}
    {origin : Placement → Origin} {dir file : Path} (hdir : dir.IsRooted)
    (hfile : file ∈ t.filesBelow dir) (horigin : ∀ p, origin p ≠ .input) :
    (Candidate.listed planner package detectMain origin file).IsReportedBy (s.resolver t) [] where
  normal := (FileTree.holdsFile_of_mem_filesBelow hdir hfile).isRooted.normalize_sameAs
  origin := horigin
  report := .inl rfl

/-! ## Walks -/

theorem extractImports (hs : s.catalog.IsAnchored) {path : Path} {content : Option String}
    (h : Once t s past told d) (hok : d.extractImports t path content = .ok d') :
    Once t s past told d' := by
  have hsteps := extractImports_reports hok
  obtain ⟨hall, hallMemo⟩ :=
    Resolver.resolves_dependencyGraph path content h.offers.references
  have hremembers : (s.resolver t).Remembers d.session.references := fun p refs hp ref href =>
    let ⟨_, _, hresolve⟩ := h.offers.references p refs hp ref href
    Resolver.target_of_resolve? Loader.isPlain_default hresolve
  obtain ⟨⟨done, hexplored⟩, -⟩ := Resolver.explored_dependencyGraph (r := s.resolver t)
    Loader.isPlain_default hremembers path content
  rw [Session.dependencyGraph_eq, h.offers.resolver, h.offers.planner] at hsteps
  generalize (s.resolver t).dependencyGraph path content d.session.references = built
    at hsteps hall hallMemo hexplored
  obtain ⟨g, m⟩ := built
  have hstart : Once t s past told { d with session := { d.session with references := m } } :=
    { h with offers := { h.offers with references := hallMemo }, emits := { h.emits with } }
  refine hsteps.invariant (fun n hn e e' htaken he => ?_) hstart
  have hget := PathMap.getElem?_of_mem_toList _ hn
  have hresolves := hall _ _ hget
  obtain ⟨_, _, hresolve⟩ := id hresolves
  have hplain := (Resolver.target_of_resolve? Loader.isPlain_default hresolve).1
  have hrooted := Resolver.isRooted_of_resolve? Loader.isPlain_default hs hresolve
  have hsame : n.2.first.target.SameAs n.1 := (hexplored.describes _ _ hget).leads.2
  have hnormal : n.1.normalize.SameAs n.1 := (hsame.isRooted hrooted).normalize_sameAs
  refine he.taken (.imported hresolves) ⟨hnormal, by simp [Candidate.imported], ?_⟩ htaken
  unfold importReport
  split
  · refine .inr ⟨_, rfl, ⟨n.2.first, hresolves, ?_, rfl⟩, fun p => rfl⟩
    exact (hsame.trans hnormal.symm).eq_of_isPlain hplain n.1.isPlain_normalize
  · exact .inl rfl

/-- A bundle is reported when it is claimed. -/
theorem bundle (hs : s.catalog.IsAnchored) {n : Path × Node ComponentRef}
    (hn : (s.resolver t).Declares n.2.first) (hsame : n.2.first.directory.SameAs n.1)
    (h : Once t s past told d) (htaken : TakenBundleWith t s.planner n (bundleReport n) d d') :
    Once t s past told d' := by
  cases htaken with
  | known => exact h
  | new hnew hsteps =>
    obtain ⟨specifier, manifest, hresolve⟩ := hn
    have hrooted := (Resolver.isRooted_of_resolveComponent? hs hresolve).1
    have hgrow (p : Path) (hp : p ∈ d.session.claimedBundles) :
        p ∈ (d.session.claimDirectory n.1).claimedBundles :=
      (PathMap.mem_insert _ _ _ _).2 (.inr hp)
    have hstart : Once t s past told
        { d with
          session := d.session.claimDirectory n.1
          events := d.events ++ bundleReport n } := by
      refine ⟨{ h.offers with }, h.origin, ?_⟩
      rw [← List.append_assoc]
      unfold bundleReport
      split
      · refine h.emits.announce rfl hgrow ((PathMap.mem_insert _ _ _ _).2 (.inl hsame.symm))
          (fun hclaimed => hnew ((PathMap.mem_congr _ hsame).1 hclaimed)) ?_
        exact ⟨_, ⟨_, _, hresolve⟩, rfl, rfl⟩
      · exact h.emits.grow (fun _ hp => hp) hgrow (by simp)
    refine hsteps.invariant (fun c hc e e' htaken he => ?_) hstart
    obtain ⟨file, hfile, rfl⟩ := List.mem_map.1 hc
    exact he.taken (.bundled ⟨_, _, hresolve⟩ hfile) (listed hrooted hfile (by simp)) htaken

theorem extractComponents (hs : s.catalog.IsAnchored) {path : Path} {content : Option String}
    (h : Once t s past told d) (hok : d.extractComponents t path content = .ok d') :
    Once t s past told d' := by
  have hsteps := extractComponents_reports hok
  obtain ⟨hall, hallMemo⟩ :=
    Resolver.declares_componentGraph path content h.offers.components
  have hbundles : d.session.components.All (ComponentRef.IsBundle (s.resolver t).tree) :=
    fun p refs hp c hc =>
      let ⟨_, _, hresolve⟩ := h.offers.components p refs hp c hc
      let ⟨hmanifest, hplain, hdir⟩ := Resolver.bundle_of_resolveComponent? hresolve
      ⟨hmanifest, hplain, hdir⟩
  obtain ⟨⟨done, hexplored⟩, -, -, -⟩ := Resolver.explored_componentGraph hbundles path content
  rw [Session.componentGraph_eq, h.offers.resolver, h.offers.planner] at hsteps
  generalize (s.resolver t).componentGraph path content d.session.components = built
    at hsteps hall hallMemo hexplored
  obtain ⟨g, m⟩ := built
  have hstart : Once t s past told { d with session := { d.session with components := m } } :=
    { h with offers := { h.offers with components := hallMemo }, emits := { h.emits with } }
  refine hsteps.invariant (fun n hn e e' htaken he => ?_) hstart
  have hget := PathMap.getElem?_of_mem_toList _ hn
  exact he.bundle hs (hall _ _ hget) (hexplored.describes _ _ hget).leads.2 htaken

theorem walk (hs : s.catalog.IsAnchored) {path : Path} {content : Option String}
    (h : Once t s past told d) (hok : d.walk t path content = .ok d') : Once t s past told d' := by
  unfold Discovery.walk at hok
  split at hok
  · exact h.extractImports hs hok
  · exact h.extractImports hs hok
  · exact h.extractComponents hs hok
  · obtain rfl := Except.ok.inj hok
    exact h

theorem drain (hs : s.catalog.IsAnchored) (h : Once t s past told d)
    (hok : d.drain t = .ok d') : Once t s past told d' := by
  rw [Discovery.drain] at hok
  refine drainUpTo_invariant (P := Once t s past told) (fun e path rest e' he _ hwalk => ?_) h hok
  have hstart : Once t s past told { e with pending := rest } :=
    { he with offers := he.offers.congr rfl rfl }
  exact hstart.walk hs hwalk

theorem ofEntry (henclosed : IsEnclosed t settings) {entry : String}
    (hentry : entry ∈ settings.fullExtract) (h : Once t (.start t settings) past told { session := s })
    (hok : Discovery.ofEntry t s entry = .ok d) :
    Once t (.start t settings) (past ++ d.outputs) (told ++ d.events) { session := d.session } := by
  have hdir? : extractedDir? t s entry = extractedDir? t (.start t settings) entry :=
    extractedDir?_congr h.offers.catalog_eq entry
  cases hdir : extractedDir? t (.start t settings) entry with
  | none =>
    rw [Discovery.ofEntry, hdir?, hdir] at hok
    obtain rfl := Except.ok.inj hok
    simpa using h
  | some found =>
    obtain ⟨p, dir⟩ := found
    obtain ⟨hrooted, -⟩ := henclosed.isRooted_of_extractedDir? hentry hdir
    obtain ⟨injected, drained, hsteps, hdrained, rfl⟩ := ofEntry_reports (hdir?.trans hdir) hok
    rw [show s.planner = (Session.start t settings).planner from h.offers.planner] at hsteps
    have hinjected : Once t (.start t settings) past told injected := by
      refine hsteps.invariant (fun c hc e e' htaken he => ?_) h
      obtain ⟨file, hfile, rfl⟩ := List.mem_map.1 hc
      exact he.taken (.extracted hentry hdir hfile) (listed hrooted hfile (by simp)) htaken
    refine ((hinjected.drain henclosed.isAnchored hdrained).tell fun e he => ?_).next
    rw [List.mem_singleton.1 he]
    exact ⟨rfl, rfl⟩

theorem ofInput (hs : s.catalog.IsAnchored) {input : SourceFile}
    (h : Once t s past told { session := s' }) (hok : Discovery.ofInput t s' input = .ok d) :
    Once t s (past ++ d.outputs) (told ++ d.events) { session := d.session } := by
  cases hbytes : input.contents with
  | none =>
    rw [Discovery.ofInput, hbytes] at hok
    obtain rfl := Except.ok.inj hok
    simpa using h
  | some bytes =>
    obtain ⟨walked, hwalk, hdrained⟩ := ofInput_eq_ok hbytes hok
    exact ((h.walk hs hwalk).drain hs hdrained).next

/-! ## Builds -/

/-- Other events may be reported between two discoveries. -/
theorem tellBetween {events : List Event} (h : Once t s past told { session := s' })
    (hevents : ∀ e ∈ events, e.isDependency = false ∧ e.isComponent = false) :
    Once t s past (told ++ events) { session := s' } := by
  simpa using (h.tell hevents).next

theorem extractFull (henclosed : IsEnclosed t settings) {entries : List String}
    (hentries : ∀ entry ∈ entries, entry ∈ settings.fullExtract) {files : List OutputFile}
    {b b' : Progress}
    (h : Once t (.start t settings) past (told ++ b.events) { session := b.session })
    (hok : Progress.extractFull t entries b = (.ok files, b')) :
    Once t (.start t settings) (past ++ files) (told ++ b'.events) { session := b'.session } := by
  induction entries generalizing b files past with
  | nil =>
    obtain ⟨hfiles, rfl⟩ := Prod.mk.inj hok
    obtain rfl := Except.ok.inj hfiles
    simpa using h
  | cons entry rest ih =>
    obtain ⟨d, others, hentry, rfl, hrest⟩ := Progress.extractFull_cons_eq_ok hok
    have hd := h.ofEntry henclosed (hentries entry (by simp)) hentry
    rw [List.append_assoc] at hd
    rw [← List.append_assoc]
    exact ih (fun e he => hentries e (List.mem_cons_of_mem _ he)) hd hrest

theorem discoverAll (hs : s.catalog.IsAnchored) {inputs : List SourceFile}
    {needed : List (List OutputFile)} {s₁ s₂ : Session}
    (hdiscovers : Discovers t inputs s₁ needed s₂) (start : Nat) {events : List Event}
    (h : Once t s past (told ++ events) { session := s₁ }) :
    Once t s (past ++ needed.flatten)
      (told ++ (Progress.discoverAll t (Progress.indexed inputs start) ⟨s₁, events⟩).2.events)
      { session := s₂ } := by
  induction hdiscovers generalizing start past events with
  | nil => simpa [Progress.indexed, Progress.discoverAll] using h
  | null hnull _ ih =>
    rw [Progress.indexed_cons, Progress.discoverAll_null hnull]
    exact ih _ h
  | cons hfull hok _ ih =>
    rw [Progress.indexed_cons, Progress.discoverAll_cons hfull, Progress.discover_eq hok,
      List.flatten_cons, ← List.append_assoc]
    have hd := h.ofInput hs hok
    rw [List.append_assoc] at hd
    exact ih _ hd

/-- A build that succeeds emits and reports nothing that was emitted or reported before. -/
theorem build (henclosed : IsEnclosed t settings) {inputs : List SourceFile} {out : BuildOutput}
    {b : Progress} (h : Once t (.start t settings) past told { session := s })
    (hok : s.build t inputs = (.ok out, b)) :
    Once t (.start t settings) (past ++ out.files.filter OutputFile.isDependency)
      (told ++ b.events) { session := b.session } := by
  obtain ⟨extracted, b₁, needed, hfull, hdiscovers, hfiles, count, summary, hevents⟩ :=
    Session.build_run hok
  rw [show s.settings = settings from h.offers.settings_eq] at hfull
  have hstarted : Once t (.start t settings) past
      (told ++ [.buildStarted inputs.length, .catalogReady s.catalog.size]) { session := s } :=
    h.tellBetween (by simp [Event.isDependency, Event.isComponent])
  have hextracted := hstarted.extractFull henclosed (fun _ he => he) hfull
  have hneeded := hextracted.discoverAll henclosed.isAnchored hdiscovers 0
  have hlast : ∀ e ∈ [Event.rewriteFinished count, Event.buildFinished summary],
      e.isDependency = false ∧ e.isComponent = false := by
    simp [Event.isDependency, Event.isComponent]
  have hfinished := hneeded.tellBetween hlast
  rw [List.append_assoc, List.append_assoc, ← hevents] at hfinished
  have horigin : ∀ f ∈ past ++ (extracted ++ needed.flatten), f.isDependency = true := by
    simpa using hfinished.origin
  have hperm := BuildOutput.perm_filter_rewriteAll (b.session.resolver t) b.session.planner
    hdiscovers.length_eq fun f hf => horigin f (List.mem_append_right _ hf)
  rw [← hfiles] at hperm
  refine ⟨hfinished.offers, ?_, ?_⟩
  · intro f hf
    rw [List.append_nil] at hf
    rcases List.mem_append.1 hf with hf | hf
    · exact horigin f (List.mem_append_left _ hf)
    · exact (List.mem_filter.1 hf).2
  · have hemits := hfinished.emits
    rw [List.append_nil] at hemits ⊢
    refine hemits.perm ?_
    simpa only [List.map_append] using hperm.append_left (past.map fun f => (f.source, f.origin))

end Once

end Discovery

/-- Builds in one session, one after the other, each of which succeeds. -/
inductive Builds (t : FileTree) :
    List (List SourceFile) → Session → List (BuildOutput × List Event) → Session → Prop
  | nil (s : Session) : Builds t [] s [] s
  | cons {inputs : List SourceFile} {others : List (List SourceFile)} {s s' : Session}
      {out : BuildOutput} {b : Progress} {results : List (BuildOutput × List Event)} :
      s.build t inputs = (.ok out, b) → Builds t others b.session results s' →
      Builds t (inputs :: others) s ((out, b.events) :: results) s'

theorem Discovery.Once.builds {t : FileTree} {settings : Settings} {s s' : Session}
    {past : List OutputFile} {told : List Event} {inputs : List (List SourceFile)}
    {results : List (BuildOutput × List Event)} (henclosed : IsEnclosed t settings)
    (h : Once t (.start t settings) past told { session := s }) (hbuilds : Builds t inputs s results s') :
    Once t (.start t settings)
      (past ++ results.flatMap fun x => x.1.files.filter OutputFile.isDependency)
      (told ++ results.flatMap Prod.snd) { session := s' } := by
  induction hbuilds generalizing past told with
  | nil => simpa using h
  | cons hok _ ih =>
    rw [List.flatMap_cons, List.flatMap_cons, ← List.append_assoc, ← List.append_assoc]
    exact ih (h.build henclosed hok)

/-- Over all the builds of a session, each file of a package is emitted once, each imported
file is reported once, and each bundle. -/
theorem Session.emitsOnce_of_builds {t : FileTree} {settings : Settings} {s : Session}
    {inputs : List (List SourceFile)} {results : List (BuildOutput × List Event)}
    (henclosed : IsEnclosed t settings) (hbuilds : Builds t inputs (.start t settings) results s) :
    EmitsOnce ((Session.start t settings).resolver t) s
      (results.flatMap fun x => x.1.files.filter OutputFile.isDependency)
      (results.flatMap Prod.snd) := by
  simpa using ((Discovery.Once.start t settings).builds henclosed hbuilds).emits

/-! ## A package that is imported and used as a component -/

/-- A package with a script and a manifest of the same name. -/
def kitTree : FileTree :=
  FileTree.ofEntries [(["node_modules"], .directory), (["node_modules", "p"], .directory),
    (["node_modules", "p", "index.js"], .file "".toUTF8),
    (["node_modules", "p", "index.json"], .file "".toUTF8)]

theorem toList_kitTree : kitTree.entries.toList = [([], .directory),
    (["node_modules"], .directory), (["node_modules", "p"], .directory),
    (["node_modules", "p", "index.js"], .file "".toUTF8),
    (["node_modules", "p", "index.json"], .file "".toUTF8)] := by
  decide

theorem isTidy_kit : IsTidy kitTree (.forProject ⟨"/"⟩) := by
  refine .of_entries (by decide) (by decide) (by decide) (by decide) ?_
  rw [toList_kitTree]
  simp
  decide

/-- A script that imports the package. -/
def kitScript : SourceFile := ⟨⟨"/a.js"⟩, ⟨"/"⟩, some "require('p')".toUTF8⟩

/-- A page that uses the package as a component. -/
def kitPage : SourceFile :=
  ⟨⟨"/page.json"⟩, ⟨"/"⟩, some (pageUsing "\"x\":\"p\"").toUTF8⟩

theorem Session.exists_build_of_sources {t : FileTree} {s : Session} {inputs : List SourceFile}
    {sources : List Path}
    (h : ((s.build t inputs).1.toOption.map fun out => out.files.map OutputFile.source) =
      some sources) :
    ∃ out, s.build t inputs = (.ok out, (s.build t inputs).2) ∧
      out.files.map OutputFile.source = sources := by
  obtain ⟨out, hout, hsources⟩ := exists_of_toOption_map h
  exact ⟨out, Prod.ext hout rfl, hsources⟩

/-- A build with the script emits and reports the file that it imports, and a build with
the page after it what else is in the bundle. -/
theorem Session.emitsOnce_of_builds_kit : ∃ results s,
    Builds kitTree [[kitScript], [kitPage]] (.start kitTree (.forProject ⟨"/"⟩)) results s ∧
      results.map (fun x => x.1.files.map OutputFile.source) =
        [[⟨"/a.js"⟩, ⟨"/node_modules/p/index.js"⟩],
          [⟨"/page.json"⟩, ⟨"/node_modules/p/index.json"⟩]] ∧
      EmitsOnce ((Session.start kitTree (.forProject ⟨"/"⟩)).resolver kitTree) s
        (results.flatMap fun x => x.1.files.filter OutputFile.isDependency)
        (results.flatMap Prod.snd) := by
  have hscript : (((Session.start kitTree (.forProject ⟨"/"⟩)).build kitTree
      [kitScript]).1.toOption.map fun out => out.files.map OutputFile.source) =
        some [⟨"/a.js"⟩, ⟨"/node_modules/p/index.js"⟩] := by
    decide +kernel
  have hpage : ((((Session.start kitTree (.forProject ⟨"/"⟩)).build kitTree
      [kitScript]).2.session.build kitTree [kitPage]).1.toOption.map
        fun out => out.files.map OutputFile.source) =
          some [⟨"/page.json"⟩, ⟨"/node_modules/p/index.json"⟩] := by
    decide +kernel
  obtain ⟨first, hfirst, hfirstFiles⟩ := Session.exists_build_of_sources hscript
  obtain ⟨second, hsecond, hsecondFiles⟩ := Session.exists_build_of_sources hpage
  have hbuilds := Builds.cons hfirst (.cons hsecond (.nil _))
  refine ⟨_, _, hbuilds, by simp [hfirstFiles, hsecondFiles], ?_⟩
  exact Session.emitsOnce_of_builds isTidy_kit.isEnclosed hbuilds

end Vendoring
