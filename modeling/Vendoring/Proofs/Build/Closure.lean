/-
# What a build emits is closed

Whatever an input or an emitted file of a package refers to is emitted too, so no
reference that resolves is left without its target. The discoveries of a build
follow one another, and each starts with everything settled that the ones before
have collected.

One kind of file is left out. An entry of the full extraction may be spelled with
so much padding that a file in its directory is listed under a path too long to be
read. It is emitted, since its normal form can be read, but its own references are
looked for under the path that it waits by, where there is nothing.
-/

import Vendoring.FileTree.Edit
import Vendoring.Proofs.Build.Coverage
import Vendoring.Proofs.Build.Overlong
import Vendoring.Proofs.Build.Run

namespace Vendoring

open Text

/-- An entry of the full extraction lists a file under the path. -/
def Session.Lists (s : Session) (t : FileTree) (entry : String) (p : Path) : Prop :=
  ∃ package dir, Discovery.extractedDir? t s entry = some (package, dir) ∧ p ∈ t.filesBelow dir

/-- The file was taken over from the first entry that lists it, under a path too
long to be read. -/
structure OutputFile.IsOverlong (t : FileTree) (s : Session) (f : OutputFile) : Prop where
  origin : ∃ place, f.origin = .fullExtract place
  listed : ∃ before entry after, s.settings.fullExtract = before ++ entry :: after ∧
    (∀ earlier ∈ before, ∀ p, s.Lists t earlier p → ¬p.SameAs f.source) ∧
    ∃ p, s.Lists t entry p ∧ p.SameAs f.source ∧ ¬FileTree.IsShort p

/-- Only where the file was read and how it was reached count. -/
theorem OutputFile.IsOverlong.congr {t : FileTree} {s : Session} {f g : OutputFile}
    (hsource : g.source = f.source) (horigin : g.origin = f.origin) (h : g.IsOverlong t s) :
    f.IsOverlong t s where
  origin := horigin ▸ h.origin
  listed := hsource ▸ h.listed

namespace Discovery.Covers

variable {t : FileTree} {settings : Settings} {exempt : OutputFile → Prop}
variable {past : List OutputFile} {walked : List Path} {d d' : Discovery} {s s' : Session}

theorem start (t : FileTree) (settings : Settings) (exempt : OutputFile → Prop) :
    Covers t settings exempt [] [] (fun _ => False) { session := .start t settings } where
  catalog_eq := rfl
  settings_eq := rfl
  queue := .start _
  references := Memo.all_empty
  components := Memo.all_empty
  known q _ _ := Memo.answer_empty _ _
  waiting := by simp
  collected := by simp
  emitted p hp := by simp [Session.start] at hp
  followed := by simp

/-- With an empty queue, the next discovery can start. -/
theorem next (h : Covers t settings exempt past walked (fun _ => False) d)
    (hpending : d.pending = []) :
    Covers t settings exempt (past ++ d.outputs) [] (fun _ => False) { session := d.session } where
  catalog_eq := h.catalog_eq
  settings_eq := h.settings_eq
  queue := .start _
  references := h.references
  components := h.components
  known q hq hwaits := h.known q hq (.inl (hwaits.resolve_right (by simp)))
  waiting := by simp
  collected := by simpa using h.collected
  emitted := by simpa using h.emitted
  followed := by simpa [hpending] using h.followed

theorem extractedDir?_eq (h : Covers t settings exempt past walked (fun _ => False) d)
    (entry : String) :
    extractedDir? t d.session entry = extractedDir? t (.start t settings) entry :=
  extractedDir?_congr h.catalog_eq entry

/-- What is listed for an entry of the full extraction can be accounted for. -/
theorem injects (htidy : IsTidy t settings) {before after : List String} {entry : String}
    (hentries : settings.fullExtract = before ++ entry :: after)
    (hbefore : ∀ earlier ∈ before, ∀ p, (Session.start t settings).Lists t earlier p →
      p ∈ s.claimedFiles)
    {package : Package} {dir : Path}
    (hdir : extractedDir? t (.start t settings) entry = some (package, dir))
    (h : Covers t settings (OutputFile.IsOverlong t (.start t settings)) past []
      (fun _ => False) { session := s })
    (hsteps : Steps (Taken t) ((t.filesBelow dir).map
      (Candidate.listed s.planner package.name false .fullExtract)) { session := s } d) :
    Covers t settings (OutputFile.IsOverlong t (.start t settings)) past [] (fun _ => False) d ∧
      (∀ p ∈ s.claimedFiles, p ∈ d.session.claimedFiles) ∧
      ∀ p, (Session.start t settings).Lists t entry p → p ∈ d.session.claimedFiles := by
  obtain ⟨hrooted, hisDir⟩ := htidy.isRooted_of_extractedDir? (by simp [hentries]) hdir
  have hfits : ∀ c ∈ (t.filesBelow dir).map
      (Candidate.listed s.planner package.name false .fullExtract),
      c.Fits t settings (OutputFile.IsOverlong t (.start t settings)) (fun _ => False)
        ({ session := s } : Discovery).session.claimedFiles := by
    intro c hc
    obtain ⟨file, hfile, rfl⟩ := List.mem_map.1 hc
    refine fits_listed hrooted hfile (by simp) fun hnew => ?_
    have hlists : (Session.start t settings).Lists t entry file := ⟨package, dir, hdir, hfile⟩
    by_cases hshort : FileTree.IsShort file
    · refine .inl fun contents hread => ?_
      have hholds := FileTree.holdsFile_of_mem_filesBelow hrooted hfile
      exact FileTree.read_of_mem_filesBelow hisDir hrooted.isAbsolute hfile hshort
        hholds.isRooted.normalize_sameAs.symm file.isPlain_normalize hread
    · refine .inr fun place contents hsame =>
        ⟨⟨place, rfl⟩, before, entry, after, hentries, ?_, file, hlists, hsame.symm, hshort⟩
      intro earlier hearlier p hp hsameP
      refine hnew ((PathMap.mem_congr _ (hsameP.trans hsame)).1 ?_)
      exact hbefore earlier hearlier p hp
  obtain ⟨hend, hextends⟩ := steps htidy hfits h hsteps
  refine ⟨hend, hextends.claimed, ?_⟩
  rintro p ⟨package', dir', hlisted, hp⟩
  obtain ⟨rfl, rfl⟩ := Prod.mk.inj (Option.some.inj (hdir.symm.trans hlisted))
  exact hsteps.claimed_of_mem (List.mem_map.2 ⟨p, hp, rfl⟩)

/-- An entry of the full extraction settles everything that it collects. -/
theorem ofEntry (htidy : IsTidy t settings) {before after : List String} {entry : String}
    (hentries : settings.fullExtract = before ++ entry :: after)
    (hbefore : ∀ earlier ∈ before, ∀ p, (Session.start t settings).Lists t earlier p →
      p ∈ s.claimedFiles)
    (h : Covers t settings (OutputFile.IsOverlong t (.start t settings)) past []
      (fun _ => False) { session := s })
    (hok : Discovery.ofEntry t s entry = .ok d) :
    Covers t settings (OutputFile.IsOverlong t (.start t settings)) (past ++ d.outputs) []
        (fun _ => False) { session := d.session } ∧
      (∀ p ∈ s.claimedFiles, p ∈ d.session.claimedFiles) ∧
      ∀ p, (Session.start t settings).Lists t entry p → p ∈ d.session.claimedFiles := by
  have hdir? := h.extractedDir?_eq entry
  cases hdir : extractedDir? t s entry with
  | none =>
    rw [Discovery.ofEntry, hdir] at hok
    obtain rfl := Except.ok.inj hok
    refine ⟨by simpa using h, fun p hp => hp, ?_⟩
    rintro p ⟨package, dir, hlisted, -⟩
    rw [← hdir?, hdir] at hlisted
    simp at hlisted
  | some found =>
    obtain ⟨package, dir⟩ := found
    obtain ⟨injected, drained, hsteps, hdrained, hsession, houtputs⟩ := ofEntry_eq_ok hdir hok
    obtain ⟨hinjected, hgrow, hlisted⟩ :=
      h.injects htidy hentries hbefore (hdir?.symm.trans hdir) hsteps
    obtain ⟨hpending, walked', hsettled⟩ := hinjected.drain htidy hdrained
    rw [hsession, houtputs]
    exact ⟨hsettled.next hpending, fun p hp => mem_claimedFiles_drain hdrained (hgrow p hp),
      fun p hp => mem_claimedFiles_drain hdrained (hlisted p hp)⟩

theorem extracts (htidy : IsTidy t settings) {before entries : List String}
    {files : List OutputFile} (hentries : settings.fullExtract = before ++ entries)
    (hbefore : ∀ earlier ∈ before, ∀ p, (Session.start t settings).Lists t earlier p →
      p ∈ s.claimedFiles)
    (h : Covers t settings (OutputFile.IsOverlong t (.start t settings)) past []
      (fun _ => False) { session := s })
    (hextracts : Extracts t entries s files s') :
    Covers t settings (OutputFile.IsOverlong t (.start t settings)) (past ++ files) []
      (fun _ => False) { session := s' } := by
  induction hextracts generalizing past before with
  | nil => simpa using h
  | @cons entry rest s s' d files hok _ ih =>
    obtain ⟨hnext, hgrow, hlisted⟩ := h.ofEntry htidy hentries hbefore hok
    rw [← List.append_assoc]
    refine ih (hentries.trans (List.append_cons before entry rest)) ?_ hnext
    intro earlier hearlier p hp
    rcases List.mem_append.1 hearlier with hearlier | hearlier
    · exact hgrow p (hbefore earlier hearlier p hp)
    · rw [List.mem_singleton.1 hearlier] at hp
      exact hlisted p hp

/-- The walk of an input claims everything that the input refers to. -/
theorem walkInput (htidy : IsTidy t settings) {input : Path} {text : String}
    (houtside : ¬input.HasTree)
    (h : Covers t settings exempt past walked (fun _ => False) d)
    (hok : d.walk t input (some text) = .ok d') :
    Covers t settings exempt past walked (fun _ => False) d' ∧
      ∀ ref ∈ ((Session.start t settings).resolver t).referencesIn input text,
        ref.target ∈ d'.session.claimedFiles := by
  have hnone (hdeps : ∀ content, Scan.dependencies input content = []) :
      ∀ ref ∈ ((Session.start t settings).resolver t).referencesIn input text,
        ref.target ∈ d'.session.claimedFiles := by
    simp [Resolver.referencesIn, hdeps]
  unfold Discovery.walk at hok
  split at hok
  · obtain ⟨hcovers, -, hrefs⟩ := h.extractImports htidy (.inr ⟨rfl, houtside⟩) hok
    exact ⟨hcovers, hrefs⟩
  · obtain ⟨hcovers, -, hrefs⟩ := h.extractImports htidy (.inr ⟨rfl, houtside⟩) hok
    exact ⟨hcovers, hrefs⟩
  · next hkind =>
    refine ⟨(h.extractComponents htidy hok).1, hnone fun content => ?_⟩
    simp [Scan.dependencies, hkind]
  · next hkind =>
    obtain rfl := Except.ok.inj hok
    refine ⟨h, hnone fun content => ?_⟩
    simp [Scan.dependencies, hkind]

/-- An input settles everything that it refers to. -/
theorem ofInput (htidy : IsTidy t settings) {input : SourceFile} {bytes : ByteArray}
    (houtside : ¬input.path.HasTree) (hbytes : input.contents = some bytes)
    (h : Covers t settings exempt past [] (fun _ => False) { session := s })
    (hok : Discovery.ofInput t s input = .ok d) :
    Covers t settings exempt (past ++ d.outputs) [] (fun _ => False) { session := d.session } ∧
      (∀ p ∈ s.claimedFiles, p ∈ d.session.claimedFiles) ∧
      ∀ ref ∈ ((Session.start t settings).resolver t).referencesIn input.path
        (decodeLossy bytes), ref.target ∈ d.session.claimedFiles := by
  obtain ⟨next, hwalk, hdrained⟩ := ofInput_eq_ok hbytes hok
  obtain ⟨hcovers, hrefs⟩ := h.walkInput htidy houtside hwalk
  obtain ⟨hpending, walked', hend⟩ := hcovers.drain htidy hdrained
  refine ⟨hend.next hpending, fun p hp => ?_, fun ref href => ?_⟩
  · exact mem_claimedFiles_drain hdrained (mem_claimedFiles_walk hwalk hp)
  · exact mem_claimedFiles_drain hdrained (hrefs ref href)

theorem discovers (htidy : IsTidy t settings) {inputs : List SourceFile}
    {needed : List (List OutputFile)}
    (hinputs : ∀ input ∈ inputs, ¬input.path.HasTree)
    (h : Covers t settings exempt past [] (fun _ => False) { session := s })
    (hdiscovers : Discovers t inputs s needed s') :
    Covers t settings exempt (past ++ needed.flatten) [] (fun _ => False) { session := s' } ∧
      (∀ p ∈ s.claimedFiles, p ∈ s'.claimedFiles) ∧
      ∀ input ∈ inputs, input.isNull = false → ∀ bytes, input.contents = some bytes →
        ∀ ref ∈ ((Session.start t settings).resolver t).referencesIn input.path
          (decodeLossy bytes), ref.target ∈ s'.claimedFiles := by
  induction hdiscovers generalizing past with
  | nil => exact ⟨by simpa using h, fun p hp => hp, by simp⟩
  | @null input rest s s' needed hnull _ ih =>
    obtain ⟨hcovers, hgrow, hrefs⟩ := ih (fun i hi => hinputs i (List.mem_cons_of_mem _ hi)) h
    refine ⟨by simpa using hcovers, hgrow, fun i hi hfull => ?_⟩
    rcases List.mem_cons.1 hi with rfl | hi
    · simp [hnull] at hfull
    · exact hrefs i hi hfull
  | @cons input rest s s' d needed hfull hok _ ih =>
    obtain ⟨bytes, hbytes⟩ := input.exists_contents hfull
    obtain ⟨hnext, hgrow, hrefs⟩ := h.ofInput htidy (hinputs input (by simp)) hbytes hok
    obtain ⟨hcovers, hgrow', hrefs'⟩ :=
      ih (fun i hi => hinputs i (List.mem_cons_of_mem _ hi)) hnext
    refine ⟨by simpa using hcovers, fun p hp => hgrow' p (hgrow p hp), fun i hi hfull' => ?_⟩
    rcases List.mem_cons.1 hi with rfl | hi
    · intro bytes' hbytes' ref href
      obtain rfl : bytes = bytes' := Option.some.inj (hbytes.symm.trans hbytes')
      exact hgrow' _ (hrefs ref href)
    · exact hrefs' i hi hfull'

end Discovery.Covers

/-- The build emits a file of a package that was read at the path. -/
def BuildOutput.Provides (out : BuildOutput) (p : Path) : Prop :=
  ∃ f ∈ out.files, f.isDependency = true ∧ f.source = p

section Gathers

variable {t : FileTree} {settings : Settings} {exempt : OutputFile → Prop}
variable {walked : List Path} {owed : Path → Prop} {s : Session} {out : BuildOutput}
variable {inputs : List SourceFile} {collected : List OutputFile}

/-- A claimed file behind a package tree has been collected, so the build emits it. -/
theorem Discovery.Covers.provides
    (h : Covers t settings exempt collected walked owed { session := s })
    (hgathers : out.Gathers inputs collected) {p : Path} (hp : p ∈ s.claimedFiles)
    (hplain : p.IsPlain) (htree : p.HasTree) : out.Provides p := by
  obtain ⟨f, hf, hsame⟩ := h.emitted p hp htree
  have hcollected := h.collected f hf
  rw [List.append_nil] at hf
  obtain ⟨g, hg, hsource, -, horigin⟩ := hgathers.exists_mem_files hf
  refine ⟨g, hg, ?_, ?_⟩
  · simpa [OutputFile.isDependency, horigin] using hcollected.origin
  · rw [hsource]
    exact hsame.eq_of_isPlain hcollected.isPlain hplain

/-- A file of a package that the build emits was collected and can be read. -/
theorem Discovery.Covers.exists_read
    (h : Covers t settings exempt collected walked owed { session := s })
    (hgathers : out.Gathers inputs collected) {f : OutputFile} (hf : f ∈ out.files)
    (horigin : f.origin ≠ .input) :
    ∃ g ∈ collected ++ ({ session := s } : Discovery).outputs, g.source = f.source ∧
      g.origin = f.origin ∧ ∃ bytes, t.read f.source = .ok bytes := by
  obtain ⟨g, hg, hsource, -, hgOrigin⟩ := hgathers.exists_mem_collected hf horigin
  have hmem : g ∈ collected ++ ({ session := s } : Discovery).outputs := by simpa using hg
  exact ⟨g, hmem, hsource, hgOrigin, hsource ▸ (h.collected g hmem).read⟩

end Gathers

/-- Every specifier in a text at the path that resolves leads to an emitted file. -/
def BuildOutput.IsClosedAt (out : BuildOutput) (r : Resolver) (p : Path) (contents : ByteArray) :
    Prop :=
  ∀ specifier ∈ Scan.dependencies p (decodeLossy contents), ∀ ref,
    r.resolve? specifier p = some ref → out.Provides ref.target

/-- A build that succeeds emits whatever its inputs and the files that it emits refer
to, save what only a file refers to that was taken over under an overlong path. -/
theorem Session.build_isClosed {t : FileTree} {settings : Settings} {inputs : List SourceFile}
    {out : BuildOutput} (htidy : IsTidy t settings)
    (hinputs : ∀ input ∈ inputs, input.path.isAbsolute = true ∧
      input.path.normalize = input.path ∧ ¬input.path.HasTree)
    (h : ((Session.start t settings).build t inputs).1 = .ok out) :
    (∀ input ∈ inputs, input.isNull = false → ∀ bytes, input.contents = some bytes →
      out.IsClosedAt ((Session.start t settings).resolver t) input.path bytes) ∧
    ∀ f ∈ out.files, f.isDependency = true → ¬f.IsOverlong t (.start t settings) →
      ∃ bytes, t.read f.source = .ok bytes ∧
        out.IsClosedAt ((Session.start t settings).resolver t) f.source bytes := by
  obtain ⟨extracted, s₁, needed, s₂, hextracts, hdiscovers, hgathers⟩ := Session.exists_gathers h
  have hstart := (Discovery.Covers.start t settings _).extracts htidy (List.nil_append _).symm
    (by simp) hextracts
  obtain ⟨hcovers, -, hrefs⟩ :=
    hstart.discovers htidy (fun i hi => (hinputs i hi).2.2) hdiscovers
  rw [List.nil_append] at hcovers
  have hprovides {file : Path} {contents : ByteArray} {ref : Reference}
      (hmem : ref ∈ ((Session.start t settings).resolver t).referencesIn file
        (decodeLossy contents))
      (hclaimed : ref.target ∈ s₂.claimedFiles) : out.Provides ref.target := by
    have hinstalled := htidy.isInstalled_of_mem_referencesIn hmem
    exact hcovers.provides hgathers hclaimed hinstalled.isPlain hinstalled.hasTree
  constructor
  · intro input hinput hfull bytes hbytes specifier hspecifier ref hresolve
    have hmem : ref ∈ ((Session.start t settings).resolver t).referencesIn input.path
        (decodeLossy bytes) := List.mem_filterMap.2 ⟨specifier, hspecifier, hresolve⟩
    exact hprovides hmem (hrefs input hinput hfull bytes hbytes ref hmem)
  · intro f hf hdependency hshort
    have horigin : f.origin ≠ .input := by simpa [OutputFile.isDependency] using hdependency
    obtain ⟨g, hg, hsource, hgOrigin, bytes, hread⟩ := hcovers.exists_read hgathers hf horigin
    refine ⟨bytes, hread, fun specifier hspecifier ref hresolve => ?_⟩
    have hmem : ref ∈ ((Session.start t settings).resolver t).referencesIn f.source
        (decodeLossy bytes) := List.mem_filterMap.2 ⟨specifier, hspecifier, hresolve⟩
    refine hprovides hmem ?_
    rcases hcovers.followed g hg with hexempt | ⟨p, hp, -⟩ | hfalse | htargets
    · exact absurd (hexempt.congr hsource hgOrigin) hshort
    · simp at hp
    · exact hfalse.elim
    · refine htargets ref ?_
      rw [hsource, Resolver.referencesOf_of_read _ hread]
      exact hmem

/-! ## A closed build -/

/-- A package whose entry imports another of its files. -/
def pairTree : FileTree :=
  FileTree.ofEntries [(["node_modules"], .directory), (["node_modules", "p"], .directory),
    (["node_modules", "p", "index.js"], .file "require('./b')".toUTF8),
    (["node_modules", "p", "b.js"], .file "".toUTF8)]

theorem toList_pairTree : pairTree.entries.toList = [([], .directory),
    (["node_modules"], .directory), (["node_modules", "p"], .directory),
    (["node_modules", "p", "b.js"], .file "".toUTF8),
    (["node_modules", "p", "index.js"], .file "require('./b')".toUTF8)] := by
  decide

theorem isTidy_pair : IsTidy pairTree (.forProject ⟨"/"⟩) := by
  refine .of_entries (by decide) (by decide) (by decide) (by decide) ?_
  rw [toList_pairTree]
  simp
  decide

/-- An input that imports the package. -/
def pairInput : SourceFile := ⟨⟨"/a.js"⟩, ⟨"/"⟩, some "require('p')".toUTF8⟩

theorem Session.build_isClosed_pair :
    ∃ out, ((Session.start pairTree (.forProject ⟨"/"⟩)).build pairTree [pairInput]).1 = .ok out ∧
      out.IsClosedAt ((Session.start pairTree (.forProject ⟨"/"⟩)).resolver pairTree) ⟨"/a.js"⟩
        "require('p')".toUTF8 ∧
      ∀ f ∈ out.files, f.isDependency = true →
        ¬f.IsOverlong pairTree (.start pairTree (.forProject ⟨"/"⟩)) →
          ∃ bytes, pairTree.read f.source = .ok bytes ∧ out.IsClosedAt
            ((Session.start pairTree (.forProject ⟨"/"⟩)).resolver pairTree) f.source bytes := by
  have hok : ((Session.start pairTree (.forProject ⟨"/"⟩)).build pairTree [pairInput]).1.isOk =
      true := by
    decide +kernel
  cases hout : ((Session.start pairTree (.forProject ⟨"/"⟩)).build pairTree [pairInput]).1 with
  | error failure =>
    rw [hout] at hok
    simp [Except.isOk, Except.toBool] at hok
  | ok out =>
    have hinput : ∀ input ∈ [pairInput], input.path.isAbsolute = true ∧
        input.path.normalize = input.path ∧ ¬input.path.HasTree := by
      intro input hinput
      rw [List.mem_singleton.1 hinput]
      decide +kernel
    obtain ⟨hinputs, hfiles⟩ := Session.build_isClosed isTidy_pair hinput hout
    exact ⟨out, rfl, hinputs pairInput (by simp) (by decide) _ rfl, hfiles⟩

/-! ## A file under an overlong path -/

/-- A package with a file two directories down that imports the package itself. -/
def overlongTree : FileTree :=
  FileTree.ofEntries [(["node_modules"], .directory), (["node_modules", "p"], .directory),
    (["node_modules", "p", "index.js"], .file "".toUTF8), (["node_modules", "p", "s"], .directory),
    (["node_modules", "p", "s", "u"], .directory),
    (["node_modules", "p", "s", "u", "a.js"], .file "require('p')".toUTF8)]

theorem isNested_overlongTree : overlongTree.IsNested "a.js" "require('p')".toUTF8 where
  toList := by decide
  locate := by decide
  read := by
    have hloc : overlongTree.locate (nestedDir / "a.js") =
        .ok ["node_modules", "p", "s", "u", "a.js"] := by
      decide
    exact FileTree.read_of_locate hloc (by decide)
  get? := by decide

/-- The references of a file that was taken over under an overlong path need not be
emitted. -/
theorem Session.exists_not_isClosedAt : ∃ out f, IsTidy overlongTree (overlongSettings 4076) ∧
    ((Session.start overlongTree (overlongSettings 4076)).build overlongTree []).1 = .ok out ∧
    f ∈ out.files ∧ f.isDependency = true ∧ ¬∃ bytes, overlongTree.read f.source = .ok bytes ∧
      out.IsClosedAt ((Session.start overlongTree (overlongSettings 4076)).resolver overlongTree)
        f.source bytes := by
  have hnested := isNested_overlongTree
  have hcontents : ((decode? "require('p')".toUTF8).bind Json.parseObject?).isNone = true := by
    decide +kernel
  have hnone := Option.isNone_iff_eq_none.1 hcontents
  have hname : "a.js" ≠ packageTreeName := by decide
  obtain ⟨out, f, hout, hf, ⟨place, horigin⟩, hsources⟩ :=
    hnested.build_overlong hname (by rw [hnone]; rfl)
  refine ⟨out, f, hnested.isTidy hname (by rw [hnone]; rfl), hout, hf, ?_, ?_⟩
  · simp [OutputFile.isDependency, horigin]
  · rintro ⟨bytes, hread, hclosed⟩
    rw [hsources f hf] at hread hclosed
    obtain rfl := Except.ok.inj (hnested.read.symm.trans hread)
    have hspecifier : "p" ∈ Scan.dependencies (nestedDir / "a.js")
        (decodeLossy "require('p')".toUTF8) := by
      decide +kernel
    have hresolve : ((Session.start overlongTree (.forProject ⟨"/"⟩)).resolver
        overlongTree).resolve? "p" (nestedDir / "a.js") = some
          { specifier := "p"
            target := ⟨"/node_modules/p/index.js"⟩
            package := "p"
            isMain := true } := by
      decide +kernel
    obtain ⟨other, hother, -, htarget⟩ := hclosed "p" hspecifier _ hresolve
    rw [hsources other hother] at htarget
    exact absurd htarget (by decide)

end Vendoring
