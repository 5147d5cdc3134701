/-
# Files of one component

A component is a manifest with a script, a template and a stylesheet beside it, and the
loader pairs them by name. A build decides on each file separately, but it claims a
bundle as a whole: when it collects a file of a bundle, everything that lies beside that
file is claimed with it or was claimed before. So files that lie side by side and leave
a build as parts of bundles were taken from one bundle, as parts of one package. They
stay side by side and keep their common stem, unless the renaming of main entries moves
one of them alone.
-/

import Vendoring.Proofs.Build.Offers
import Vendoring.Proofs.Catalog.Names
import Vendoring.Proofs.Graph.Component
import Vendoring.Proofs.Placement.Companions
import Vendoring.Proofs.Settings

namespace Vendoring

open Catalog

namespace Resolver

variable {t : FileTree} {r : Resolver} {ref ref' : ComponentRef} {file file' : Path}

/-- The directory of a normal path is normal. -/
theorem isSettled_parent? {p d : Path} (h : p.normalize.parent? = some d) :
    Path.IsSettled d.components := by
  rw [(Path.components_of_parent? h).1]
  by_cases hcs : Path.collapse p.components = []
  · rw [Path.normalize, hcs]
    decide
  · rw [Path.components_normalize hcs]
    have hsettled := Path.isSettled_collapse p.components
    rw [← List.dropLast_concat_getLast hcs] at hsettled
    exact hsettled.of_append

/-- What a bundle lists are files under their normal paths. -/
theorem Declares.liesIn (h : r.Declares ref) (hfile : file ∈ r.tree.filesBelow ref.directory) :
    ∃ cs name, r.tree.LiesIn cs name file := by
  obtain ⟨specifier, manifest, hresolve⟩ := h
  obtain ⟨path, hparent, -, hdir⟩ := resolveComponent?_eq_some hresolve
  have hplain := (bundle_of_resolveComponent? hresolve).2.1
  obtain ⟨loc, hloc, -⟩ := FileTree.exists_locate_of_isDirectory hdir
  obtain ⟨front, name, contents, hnames, rfl, hcs, -, hentry⟩ :=
    FileTree.exists_name_of_mem_filesBelow hdir hfile
  obtain ⟨hpath, hne, hpathPlain⟩ :=
    FileTree.pathTo_spec (FileTree.text_ne_of_locate hloc) hnames
  refine ⟨_, name, hcs, (hpathPlain hplain).normalize_eq ?_ hne, contents, hentry⟩
  rw [hpath]
  refine (isSettled_parent? hparent).append_names fun c hc => ?_
  obtain ⟨s, -, rfl⟩ := List.mem_map.1 hc
  exact ⟨s, rfl⟩

/-- A bundle that lists a file lists what lies beside it in any bundle. -/
theorem Declares.mem_filesBelow (h : r.Declares ref) (h' : r.Declares ref')
    (hfile : file ∈ r.tree.filesBelow ref.directory)
    (hfile' : file' ∈ r.tree.filesBelow ref'.directory) (hbeside : file.Neighbours file') :
    file' ∈ r.tree.filesBelow ref.directory := by
  obtain ⟨_, _, hresolve⟩ := h
  obtain ⟨_, _, hresolve'⟩ := h'
  obtain ⟨-, hplain, hdir⟩ := bundle_of_resolveComponent? hresolve
  obtain ⟨-, hplain', hdir'⟩ := bundle_of_resolveComponent? hresolve'
  exact FileTree.mem_filesBelow_of_neighbours hdir hdir' hplain hplain' hfile hfile' hbeside

end Resolver

/-- The placement is that of a file in the bundle. -/
def ComponentRef.Places (ref : ComponentRef) (t : FileTree) (r : Planner) (p : Placement) : Prop :=
  ∃ file ∈ t.filesBelow ref.directory,
    r.place? file ref.package (r.isMainFile file ref.package) = some p

namespace Discovery

variable {t : FileTree} {s : Session} {past : List OutputFile} {d d' : Discovery}

/-! ## What steps collect -/

/-- What steps collect was offered to them, and had not been claimed before. -/
theorem mem_outputs_steps {cs : List Candidate} (hsteps : Steps (Taken t) cs d d')
    {f : OutputFile} (hf : f ∈ d'.outputs) :
    f ∈ d.outputs ∨ ∃ c ∈ cs, c.file ∉ d.session.claimedFiles ∧
      c.Yields t d.session.planner f := by
  have hinvariant := hsteps.invariant (P := fun e => e.session.planner = d.session.planner ∧
    (∀ p ∈ d.session.claimedFiles, p ∈ e.session.claimedFiles) ∧
    ∀ f ∈ e.outputs, f ∈ d.outputs ∨ ∃ c ∈ cs, c.file ∉ d.session.claimedFiles ∧
      c.Yields t d.session.planner f) ?_ ⟨rfl, fun _ hp => hp, fun _ hf => .inl hf⟩
  · exact hinvariant.2.2 f hf
  · rintro c hc e e' htaken ⟨hplanner, hclaimed, houtputs⟩
    refine ⟨by rw [htaken.session]; exact hplanner, fun p hp => htaken.claimed (hclaimed p hp),
      fun f hf => ?_⟩
    rcases htaken.mem_outputs hf with hf | ⟨hnew, hyields⟩
    · exact houtputs f hf
    · rw [hplanner] at hyields
      exact .inr ⟨c, hc, fun hold => hnew (hclaimed _ hold), hyields⟩

/-- Bundles have been taken as a whole, up to a discovery under way and after discoveries that
collected the files in `past`. -/
structure Groups (t : FileTree) (s : Session) (past : List OutputFile) (d : Discovery) : Prop where
  offers : Offers t s d
  /-- What lies in a bundle beside a collected file of a bundle has been claimed. -/
  beside : ∀ f ∈ past ++ d.outputs, ∀ p, f.origin = .component p →
    ∀ ref, (s.resolver t).Declares ref → ∀ q ∈ t.filesBelow ref.directory,
      p.source.Neighbours q → q ∈ d.session.claimedFiles
  /-- Collected files of bundles that lie side by side come from one bundle. -/
  together : ∀ f ∈ past ++ d.outputs, ∀ g ∈ past ++ d.outputs, ∀ p q,
    f.origin = .component p → g.origin = .component q → p.source.Neighbours q.source →
      ∃ ref, (s.resolver t).Declares ref ∧ ref.Places t s.planner p ∧ ref.Places t s.planner q

namespace Groups

theorem start (t : FileTree) (settings : Settings) :
    Groups t (.start t settings) [] { session := .start t settings } where
  offers := .start t settings
  beside := by simp
  together := by simp

/-- The next discovery starts from what has been collected. -/
theorem next (h : Groups t s past d) : Groups t s (past ++ d.outputs) { session := d.session } where
  offers := h.offers.next
  beside := by simpa using h.beside
  together := by simpa using h.together

/-- More may be claimed, and collected as long as it is no part of a bundle. -/
theorem grow (h : Groups t s past d) (hoffers : Offers t s d')
    (hclaimed : ∀ p ∈ d.session.claimedFiles, p ∈ d'.session.claimedFiles)
    (houtputs : ∀ f ∈ d'.outputs, f ∈ d.outputs ∨ ∀ p, f.origin ≠ .component p) :
    Groups t s past d' := by
  have hold (f : OutputFile) (hf : f ∈ past ++ d'.outputs) (p : Placement)
      (hp : f.origin = .component p) : f ∈ past ++ d.outputs := by
    rcases List.mem_append.1 hf with hf | hf
    · exact List.mem_append_left _ hf
    · exact List.mem_append_right _ ((houtputs f hf).resolve_right fun hnot => hnot p hp)
  constructor
  · exact hoffers
  · intro f hf p hp ref href q hq hbeside
    exact hclaimed q (h.beside f (hold f hf p hp) p hp ref href q hq hbeside)
  · intro f hf g hg p q hp hq
    exact h.together f (hold f hf p hp) g (hold g hg q hq) p q hp hq

/-- Steps that offer no parts of bundles keep the account. -/
theorem steps (h : Groups t s past d) (hoffers : Offers t s d') {cs : List Candidate} {e : Discovery}
    (hsteps : Steps (Taken t) cs e d') (hclaimed : e.session.claimedFiles = d.session.claimedFiles)
    (houtputs : e.outputs = d.outputs) (hcs : ∀ c ∈ cs, ∀ p q, c.origin p ≠ .component q) :
    Groups t s past d' := by
  refine h.grow hoffers (fun p hp => hsteps.claimed (hclaimed ▸ hp)) fun f hf => ?_
  rcases mem_outputs_steps hsteps hf with hf | ⟨c, hc, -, place, contents, -, -, rfl⟩
  · exact .inl (houtputs ▸ hf)
  · exact .inr fun p => hcs c hc place p

theorem extractImports {path : Path} {content : Option String} (h : Groups t s past d)
    (hok : d.extractImports t path content = .ok d') : Groups t s past d' := by
  refine h.steps (h.offers.extractImports hok) (extractImports_eq_ok hok) ?_ rfl ?_
  · rw [Session.dependencyGraph_eq]
  · intro c hc p q
    obtain ⟨n, -, rfl⟩ := List.mem_map.1 hc
    exact nofun

/-- A file of a bundle that is collected with the bundle had not been claimed before. -/
theorem places_of_mem_outputs (hoffers : Offers t s d) {n : Path × Node ComponentRef}
    (hn : (s.resolver t).Declares n.2.first) {events : List Event}
    (hsteps : Steps (Taken t) (Candidate.ofBundle t s.planner n)
      { d with session := d.session.claimDirectory n.1, events := events } d')
    {f : OutputFile} (hf : f ∈ d'.outputs) {p : Placement} (hp : f.origin = .component p) :
    f ∈ d.outputs ∨ n.2.first.Places t s.planner p ∧ p.source ∈ t.filesBelow n.2.first.directory ∧
      p.source ∉ d.session.claimedFiles := by
  rcases mem_outputs_steps hsteps hf with hf | ⟨c, hc, hnew, place, contents, hplace, -, rfl⟩
  · exact .inl hf
  · obtain ⟨file, hfile, rfl⟩ := List.mem_map.1 hc
    obtain rfl : place = p := Origin.component.inj hp
    have hplanner : (d.session.claimDirectory n.1).planner = s.planner := hoffers.planner
    rw [hplanner] at hplace
    obtain ⟨cs, name, hlies⟩ := hn.liesIn hfile
    have hsource : place.source = file :=
      (Planner.source_of_place? hplace).trans hlies.normalize_eq
    exact .inr ⟨⟨file, hfile, hplace⟩, hsource ▸ hfile, hsource ▸ hnew⟩

/-- A bundle is taken as a whole. -/
theorem bundle {n : Path × Node ComponentRef} (h : Groups t s past d)
    (hn : (s.resolver t).Declares n.2.first) (htaken : TakenBundle t s.planner n d d') :
    Groups t s past d' := by
  have hoffers := h.offers.bundle hn htaken
  cases htaken with
  | known => exact h
  | @new _ events _ hsteps =>
    have hclaimed (p : Path) (hp : p ∈ d.session.claimedFiles) : p ∈ d'.session.claimedFiles :=
      hsteps.claimed hp
    have hlisted (p : Path) (hp : p ∈ t.filesBelow n.2.first.directory) :
        p ∈ d'.session.claimedFiles :=
      hsteps.claimed_of_mem (List.mem_map_of_mem hp)
    have hold (f : OutputFile) (hf : f ∈ past ++ d'.outputs) (p : Placement)
        (hp : f.origin = .component p) : f ∈ past ++ d.outputs ∨
          n.2.first.Places t s.planner p ∧ p.source ∈ t.filesBelow n.2.first.directory ∧
            p.source ∉ d.session.claimedFiles := by
      rcases List.mem_append.1 hf with hf | hf
      · exact .inl (List.mem_append_left _ hf)
      · exact (places_of_mem_outputs h.offers hn hsteps hf hp).imp (List.mem_append_right _) id
    constructor
    · exact hoffers
    · intro f hf p hp ref href q hq hbeside
      rcases hold f hf p hp with hf | ⟨-, hsource, -⟩
      · exact hclaimed q (h.beside f hf p hp ref href q hq hbeside)
      · exact hlisted q (hn.mem_filesBelow href hsource hq hbeside)
    · intro f hf g hg p q hp hq hbeside
      -- what lies beside a file that was collected before is not collected now
      rcases hold f hf p hp with hf | ⟨hplaces, hsource, hnew⟩ <;>
        rcases hold g hg q hq with hg | ⟨hplaces', hsource', hnew'⟩
      · exact h.together f hf g hg p q hp hq hbeside
      · exact absurd (h.beside f hf p hp _ hn _ hsource' hbeside) hnew'
      · exact absurd (h.beside g hg q hq _ hn _ hsource (Eq.symm hbeside)) hnew
      · exact ⟨_, hn, hplaces, hplaces'⟩

theorem extractComponents {path : Path} {content : Option String} (h : Groups t s past d)
    (hok : d.extractComponents t path content = .ok d') : Groups t s past d' := by
  have hsteps := extractComponents_eq_ok hok
  obtain ⟨hall, hallMemo⟩ :=
    Resolver.declares_componentGraph path content h.offers.components
  rw [Session.componentGraph_eq, h.offers.resolver, h.offers.planner] at hsteps
  generalize (s.resolver t).componentGraph path content d.session.components = built
    at hsteps hall hallMemo
  obtain ⟨g, m⟩ := built
  have hstart : Groups t s past { d with session := { d.session with components := m } } :=
    { h with offers := { h.offers with components := hallMemo } }
  refine hsteps.invariant (fun n hn e e' htaken he => he.bundle ?_ htaken) hstart
  exact hall _ _ (PathMap.getElem?_of_mem_toList _ hn)

theorem walk {path : Path} {content : Option String} (h : Groups t s past d)
    (hok : d.walk t path content = .ok d') : Groups t s past d' := by
  unfold Discovery.walk at hok
  split at hok
  · exact h.extractImports hok
  · exact h.extractImports hok
  · exact h.extractComponents hok
  · obtain rfl := Except.ok.inj hok
    exact h

theorem drain (h : Groups t s past d) (hok : d.drain t = .ok d') : Groups t s past d' := by
  rw [Discovery.drain] at hok
  refine drainUpTo_invariant (P := Groups t s past) (fun e path rest e' he _ hwalk => ?_) h hok
  have hstart : Groups t s past { e with pending := rest } :=
    { he with offers := he.offers.congr rfl rfl }
  exact hstart.walk hwalk

theorem ofEntry {entry : String} {s₀ : Session} (hentry : entry ∈ s.settings.fullExtract)
    (h : Groups t s past { session := s₀ }) (hok : Discovery.ofEntry t s₀ entry = .ok d) :
    Groups t s (past ++ d.outputs) { session := d.session } := by
  have hdir? : extractedDir? t s₀ entry = extractedDir? t s entry :=
    extractedDir?_congr h.offers.catalog_eq entry
  cases hdir : extractedDir? t s entry with
  | none =>
    rw [Discovery.ofEntry, hdir?, hdir] at hok
    obtain rfl := Except.ok.inj hok
    simpa using h
  | some found =>
    obtain ⟨k, dir⟩ := found
    obtain ⟨injected, drained, hsteps, hdrained, hsession, houtputs⟩ :=
      ofEntry_eq_ok (hdir?.trans hdir) hok
    rw [show s₀.planner = s.planner from h.offers.planner] at hsteps
    have hoffers : Offers t s injected := by
      refine h.offers.steps (fun c hc => ?_) hsteps
      obtain ⟨file, hfile, rfl⟩ := List.mem_map.1 hc
      exact .extracted hentry hdir hfile
    have hinjected : Groups t s past injected := by
      refine h.steps hoffers hsteps rfl rfl fun c hc p q => ?_
      obtain ⟨file, -, rfl⟩ := List.mem_map.1 hc
      intro hprovided
      cases hprovided
    rw [hsession, houtputs]
    exact (hinjected.drain hdrained).next

theorem ofInput {input : SourceFile} {s₀ : Session} (h : Groups t s past { session := s₀ })
    (hok : Discovery.ofInput t s₀ input = .ok d) :
    Groups t s (past ++ d.outputs) { session := d.session } := by
  cases hbytes : input.contents with
  | none =>
    rw [Discovery.ofInput, hbytes] at hok
    obtain rfl := Except.ok.inj hok
    simpa using h
  | some bytes =>
    obtain ⟨walked, hwalk, hdrained⟩ := ofInput_eq_ok hbytes hok
    exact ((h.walk hwalk).drain hdrained).next

variable {s₀ s₁ : Session} {files : List OutputFile}

theorem extracts {entries : List String}
    (hentries : ∀ entry ∈ entries, entry ∈ s.settings.fullExtract)
    (h : Groups t s past { session := s₀ }) (hextracts : Extracts t entries s₀ files s₁) :
    Groups t s (past ++ files) { session := s₁ } := by
  induction hextracts generalizing past with
  | nil => simpa using h
  | @cons entry rest s₀ s₁ d files hok _ ih =>
    rw [← List.append_assoc]
    exact ih (fun e he => hentries e (List.mem_cons_of_mem _ he)) (h.ofEntry (hentries entry (by simp)) hok)

theorem discovers {inputs : List SourceFile} {needed : List (List OutputFile)}
    (h : Groups t s past { session := s₀ }) (hdiscovers : Discovers t inputs s₀ needed s₁) :
    Groups t s (past ++ needed.flatten) { session := s₁ } := by
  induction hdiscovers generalizing past with
  | nil => simpa using h
  | null _ _ ih => exact ih h
  | cons _ hok _ ih =>
    rw [List.flatten_cons, ← List.append_assoc]
    exact ih (h.ofInput hok)

end Groups

end Discovery

namespace Session

variable {t : FileTree} {settings : Settings} {inputs : List SourceFile} {out : BuildOutput}
variable {f g : OutputFile} {p q : Placement}

/-- A part of a bundle leaves a build under the source and the place of its placement. -/
theorem eq_of_component (h : ((Session.start t settings).build t inputs).1 = .ok out)
    (hf : f ∈ out.files) (hp : f.origin = .component p) :
    f.source = p.source ∧ f.relative = p.relative := by
  rcases Session.mem_files h hf with ⟨-, -, -, -, horigin⟩ |
    ⟨c, place, hc, -, hsource, hrelative, horigin⟩
  · rw [hp] at horigin
    cases horigin
  · rw [hp] at horigin
    cases hc with
    | bundled => rw [Origin.component.inj horigin]; exact ⟨hsource, hrelative⟩
    | imported => cases horigin
    | extracted => cases horigin

/-- Parts of bundles that lie side by side come from one bundle. -/
theorem exists_bundle_of_neighbours (h : ((Session.start t settings).build t inputs).1 = .ok out)
    (hf : f ∈ out.files) (hg : g ∈ out.files) (hp : f.origin = .component p)
    (hq : g.origin = .component q) (hbeside : p.source.Neighbours q.source) :
    ∃ ref, ((Session.start t settings).resolver t).Declares ref ∧
      ref.Places t (Session.start t settings).planner p ∧
      ref.Places t (Session.start t settings).planner q := by
  obtain ⟨extracted, s₁, needed, s₂, hextracts, hdiscovers, hgathers⟩ := Session.exists_gathers h
  have hgroups := ((Discovery.Groups.start t settings).extracts (fun _ he => he) hextracts).discovers
    hdiscovers
  have hcollected {f : OutputFile} {p : Placement} (hf : f ∈ out.files)
      (hp : f.origin = .component p) :
      ∃ f' ∈ extracted ++ needed.flatten, f'.origin = .component p := by
    obtain ⟨f', hf', -, -, horigin⟩ := hgathers.exists_mem_collected hf (by simp [hp])
    exact ⟨f', hf', horigin.trans hp⟩
  obtain ⟨f', hf', hp'⟩ := hcollected hf hp
  obtain ⟨g', hg', hq'⟩ := hcollected hg hq
  exact hgroups.together f' (by simpa using hf') g' (by simpa using hg') p q hp' hq' hbeside

/-- Files of one component stay together. Parts of bundles that lie in one directory and have
one stem are written to one directory under one stem, unless the renaming of main entries
moves one of them and not the other. -/
theorem build_accompanies (hvalid : settings.IsValid)
    (h : ((Session.start t settings).build t inputs).1 = .ok out) (hf : f ∈ out.files)
    (hg : g ∈ out.files) (hp : f.origin = .component p) (hq : g.origin = .component q)
    (hsource : f.source.Accompanies g.source) :
    f.relative.Accompanies g.relative ↔
      ((Session.start t settings).planner.Moves p ↔ (Session.start t settings).planner.Moves q) := by
  obtain ⟨hfSource, hfRelative⟩ := eq_of_component h hf hp
  obtain ⟨hgSource, hgRelative⟩ := eq_of_component h hg hq
  rw [hfSource, hgSource] at hsource
  rw [hfRelative, hgRelative]
  obtain ⟨ref, href, ⟨file, hfile, hplace⟩, file', hfile', hplace'⟩ :=
    exists_bundle_of_neighbours h hf hg hp hq hsource.neighbours
  have hsurvey : IsSurvey t loader settings.packageTree
      (Session.start t settings).planner.catalog := isSurvey_survey t loader settings.packageTree
  have hname : (⟨ref.package⟩ : Path).isAbsolute = false := by
    obtain ⟨_, _, hresolve⟩ := id href
    exact (Resolver.isPackageName_of_resolveComponent? hsurvey hresolve).isAbsolute
  obtain ⟨cs, a, hlies⟩ := href.liesIn hfile
  obtain ⟨cs', b, hlies'⟩ := href.liesIn hfile'
  rw [Planner.source_of_place? hplace, Planner.source_of_place? hplace', hlies.normalize_eq,
    hlies'.normalize_eq, Path.accompanies_iff hlies.components_eq hlies'.components_eq] at hsource
  obtain ⟨rfl, hstem⟩ := hsource
  exact Planner.accompanies_iff_moves hsurvey hvalid.no_slash hname hlies hlies' hstem hplace hplace'

/-! ## A component that is the main entry of its package -/

/-- A package whose main entry is the script of a component. Another component lies beside
it. -/
def buttonTree : FileTree :=
  FileTree.ofEntries [(["node_modules"], .directory), (["node_modules", "p"], .directory),
    (["node_modules", "p", "package.json"], .file "\x7b\"main\":\"lib/button.js\"\x7d".toUTF8),
    (["node_modules", "p", "lib"], .directory),
    (["node_modules", "p", "lib", "button.js"], .file "".toUTF8),
    (["node_modules", "p", "lib", "button.json"], .file "".toUTF8),
    (["node_modules", "p", "lib", "card.js"], .file "".toUTF8),
    (["node_modules", "p", "lib", "card.json"], .file "".toUTF8)]

/-- A page that uses one component of the package. -/
def buttonPage : SourceFile :=
  ⟨⟨"/page.json"⟩, ⟨"/"⟩, some (pageUsing "\"b\":\"p/lib/button\"").toUTF8⟩

/-- Where a file of the component's directory is placed under its own name. -/
def inLib (name : String) : Placement where
  source := ⟨"/node_modules/p/lib/" ++ name⟩
  destination := ⟨"/node_modules/miniprogram_npm/p/lib/" ++ name⟩
  base := ⟨"/node_modules"⟩
  package := "p"
  isMain := false

/-- Where the main entry is placed. -/
def buttonMain : Placement :=
  { inLib "button.js" with
    destination := ⟨"/node_modules/miniprogram_npm/p/index.js"⟩
    isMain := true }

/-- The files of the components' directory leave the build as parts of a bundle. -/
theorem exists_build_button : ∃ out,
    ((Session.start buttonTree (.forProject ⟨"/"⟩)).build buttonTree [buttonPage]).1 = .ok out ∧
      ∀ p ∈ [buttonMain, inLib "button.json", inLib "card.js", inLib "card.json"],
        ∃ f ∈ out.files, f.source = p.source ∧ f.relative = p.relative ∧ f.origin = .component p := by
  have hfound : (Discovery.ofInput buttonTree (.start buttonTree (.forProject ⟨"/"⟩))
      buttonPage).toOption.map (fun d => d.outputs.map OutputFile.origin) = some
        ([buttonMain, inLib "button.json", inLib "card.js", inLib "card.json"].map .component) := by
    decide +kernel
  obtain ⟨d, hd, horigins⟩ := exists_of_toOption_map hfound
  obtain ⟨out, hout, hfiles⟩ := Session.exists_build_of_ofInput rfl rfl hd
  refine ⟨out, hout, fun p hp => ?_⟩
  obtain ⟨g, hg, hgOrigin⟩ := List.mem_map.1 (horigins ▸ List.mem_map_of_mem hp)
  obtain ⟨f, hf, -, -, hfOrigin⟩ := hfiles g hg
  have horigin : f.origin = .component p := hfOrigin.trans hgOrigin
  have hplace : f.origin.placement? = some p := by
    rw [horigin]
    rfl
  obtain ⟨hsource, hrelative⟩ := Session.source_eq_of_placement? hout hf hplace
  exact ⟨f, hf, hsource, hrelative, horigin⟩

/-- The component that is no main entry stays together. -/
theorem build_accompanies_card : ∃ out f g,
    ((Session.start buttonTree (.forProject ⟨"/"⟩)).build buttonTree [buttonPage]).1 = .ok out ∧
      f ∈ out.files ∧ g ∈ out.files ∧ f.origin = .component (inLib "card.js") ∧
      g.origin = .component (inLib "card.json") ∧ f.source.Accompanies g.source ∧
      (f.relative.Accompanies g.relative ↔
        ((Session.start buttonTree (.forProject ⟨"/"⟩)).planner.Moves (inLib "card.js") ↔
          (Session.start buttonTree (.forProject ⟨"/"⟩)).planner.Moves (inLib "card.json"))) ∧
      f.relative.Accompanies g.relative := by
  obtain ⟨out, hout, hfiles⟩ := exists_build_button
  obtain ⟨f, hf, hfSource, -, hp⟩ := hfiles (inLib "card.js") (by simp)
  obtain ⟨g, hg, hgSource, -, hq⟩ := hfiles (inLib "card.json") (by simp)
  have hsource : f.source.Accompanies g.source := by
    rw [hfSource, hgSource]
    decide
  have hiff := build_accompanies (Settings.isValid_forProject ⟨"/"⟩) hout hf hg hp hq hsource
  refine ⟨out, f, g, hout, hf, hg, hp, hq, hsource, hiff, hiff.2 ?_⟩
  -- neither file is a main entry
  exact iff_of_false (fun h => Bool.false_ne_true h.1) (fun h => Bool.false_ne_true h.1)

/-- The script of the component that is the main entry is moved away from its manifest. -/
theorem exists_not_accompanies :
    ∃ (t : FileTree) (settings : Settings) (inputs : List SourceFile) (out : BuildOutput)
      (f g : OutputFile) (p q : Placement), settings.IsValid ∧
      ((Session.start t settings).build t inputs).1 = .ok out ∧ f ∈ out.files ∧ g ∈ out.files ∧
      f.origin = .component p ∧ g.origin = .component q ∧ f.source.Accompanies g.source ∧
      ¬f.relative.Accompanies g.relative := by
  obtain ⟨out, hout, hfiles⟩ := exists_build_button
  obtain ⟨f, hf, hfSource, hfRelative, hp⟩ := hfiles buttonMain (by simp)
  obtain ⟨g, hg, hgSource, hgRelative, hq⟩ := hfiles (inLib "button.json") (by simp)
  refine ⟨buttonTree, .forProject ⟨"/"⟩, [buttonPage], out, f, g, buttonMain, inLib "button.json",
    Settings.isValid_forProject _, hout, hf, hg, hp, hq, ?_, ?_⟩
  · rw [hfSource, hgSource]
    decide
  · rw [hfRelative, hgRelative]
    decide

end Session

end Vendoring
