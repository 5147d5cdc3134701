/-
# What a build emits has its bundles

Whatever a manifest declares that enters the build, or is taken over with a bundle or
completely, is there in the end: every file of its bundles that belongs to a package
is emitted. A manifest that was first reached as an import is left out, since nobody
follows its declarations for its own sake.

A file that was taken over completely under a path too long to be read is exempt here
too, since its walk finds no declarations.
-/

import Vendoring.Proofs.Build.Bundles
import Vendoring.Proofs.Build.Closure

namespace Vendoring

open Text

namespace Discovery.Bundles

variable {t : FileTree} {settings : Settings} {exempt : OutputFile → Prop}
variable {past : List OutputFile} {walked : List Path} {d d' : Discovery} {s s' : Session}

theorem start (t : FileTree) (settings : Settings) (exempt : OutputFile → Prop) :
    Bundles t settings exempt [] (fun _ => False) (fun _ => False)
      { session := .start t settings } where
  bundles := Memo.all_empty
  known q _ _ := Memo.answer_empty _ _
  listed dir hdir := by simp [Session.start] at hdir
  followed := by simp

/-- With an empty queue, the next discovery can start. -/
theorem next (h : Bundles t settings exempt past (fun _ => False) (fun _ => False) d)
    (hpending : d.pending = []) :
    Bundles t settings exempt (past ++ d.outputs) (fun _ => False) (fun _ => False)
      { session := d.session } where
  bundles := h.bundles
  known q hq hwaits := h.known q hq (.inl (hwaits.resolve_right (by simp)))
  listed := h.listed
  followed := by simpa [hpending] using h.followed

/-- An entry of the full extraction settles the manifests that it collects. -/
theorem ofEntry (htidy : IsTidy t settings) {before after : List String} {entry : String}
    (hentries : settings.fullExtract = before ++ entry :: after)
    (hbefore : ∀ earlier ∈ before, ∀ p, (Session.start t settings).Lists t earlier p →
      p ∈ s.claimedFiles)
    (hcovers : Covers t settings (OutputFile.IsOverlong t (.start t settings)) past []
      (fun _ => False) { session := s })
    (h : Bundles t settings (OutputFile.IsOverlong t (.start t settings)) past (fun _ => False)
      (fun _ => False) { session := s })
    (hok : Discovery.ofEntry t s entry = .ok d) :
    Bundles t settings (OutputFile.IsOverlong t (.start t settings)) (past ++ d.outputs)
      (fun _ => False) (fun _ => False) { session := d.session } := by
  cases hdir : extractedDir? t s entry with
  | none =>
    rw [Discovery.ofEntry, hdir] at hok
    obtain rfl := Except.ok.inj hok
    simpa using h
  | some found =>
    obtain ⟨package, dir⟩ := found
    obtain ⟨injected, drained, hsteps, hdrained, hsession, houtputs⟩ := ofEntry_eq_ok hdir hok
    have hdir' := (hcovers.extractedDir?_eq entry).symm.trans hdir
    obtain ⟨hrooted, -⟩ := htidy.isRooted_of_extractedDir? (by simp [hentries]) hdir'
    obtain ⟨hinjected, -, -⟩ := hcovers.injects htidy hentries hbefore hdir' hsteps
    obtain ⟨hpending, -⟩ := hinjected.drain htidy hdrained
    have hend := h.steps (fun c hc => ?_) hsteps
    · rw [hsession, houtputs]
      exact (hend.drain htidy hinjected hdrained).next hpending
    · obtain ⟨file, hfile, rfl⟩ := List.mem_map.1 hc
      exact isWaited_listed hrooted hfile

theorem extracts (htidy : IsTidy t settings) {before entries : List String}
    {files : List OutputFile} (hentries : settings.fullExtract = before ++ entries)
    (hbefore : ∀ earlier ∈ before, ∀ p, (Session.start t settings).Lists t earlier p →
      p ∈ s.claimedFiles)
    (hcovers : Covers t settings (OutputFile.IsOverlong t (.start t settings)) past []
      (fun _ => False) { session := s })
    (h : Bundles t settings (OutputFile.IsOverlong t (.start t settings)) past (fun _ => False)
      (fun _ => False) { session := s })
    (hextracts : Extracts t entries s files s') :
    Bundles t settings (OutputFile.IsOverlong t (.start t settings)) (past ++ files)
      (fun _ => False) (fun _ => False) { session := s' } := by
  induction hextracts generalizing past before with
  | nil => simpa using h
  | @cons entry rest s s' d files hok _ ih =>
    obtain ⟨hnext, hgrow, hlisted⟩ := hcovers.ofEntry htidy hentries hbefore hok
    rw [← List.append_assoc]
    refine ih (hentries.trans (List.append_cons before entry rest)) ?_ hnext
      (h.ofEntry htidy hentries hbefore hcovers hok)
    intro earlier hearlier p hp
    rcases List.mem_append.1 hearlier with hearlier | hearlier
    · exact hgrow p (hbefore earlier hearlier p hp)
    · rw [List.mem_singleton.1 hearlier] at hp
      exact hlisted p hp

/-- The walk of an input claims every bundle that the input declares. -/
theorem walkInput (htidy : IsTidy t settings) {input : Path} {text : String}
    (hcovers : Covers t settings exempt past walked (fun _ => False) d)
    (h : Bundles t settings exempt past (fun _ => False) (fun _ => False) d)
    (hok : d.walk t input (some text) = .ok d') :
    Bundles t settings exempt past (fun _ => False) (fun _ => False) d' ∧
      (FileKind.ofPath input = .manifest →
        ∀ c ∈ ((Session.start t settings).resolver t).componentsFrom input (some text),
          c.directory ∈ d'.session.claimedBundles) := by
  unfold Discovery.walk at hok
  split at hok
  · next hkind => exact ⟨h.extractImports hok, by simp [hkind]⟩
  · next hkind => exact ⟨h.extractImports hok, by simp [hkind]⟩
  · obtain ⟨hend, hdirs⟩ := h.extractComponents htidy (.inl rfl) hcovers hok
    exact ⟨hend, fun _ => hdirs⟩
  · next hkind =>
    obtain rfl := Except.ok.inj hok
    exact ⟨h, by simp [hkind]⟩

/-- An input settles the bundles that it declares. -/
theorem ofInput (htidy : IsTidy t settings) {input : SourceFile} {bytes : ByteArray}
    (houtside : ¬input.path.HasTree) (hbytes : input.contents = some bytes)
    (hcovers : Covers t settings exempt past [] (fun _ => False) { session := s })
    (h : Bundles t settings exempt past (fun _ => False) (fun _ => False) { session := s })
    (hok : Discovery.ofInput t s input = .ok d) :
    Bundles t settings exempt (past ++ d.outputs) (fun _ => False) (fun _ => False)
        { session := d.session } ∧
      (∀ dir ∈ s.claimedBundles, dir ∈ d.session.claimedBundles) ∧
      (FileKind.ofPath input.path = .manifest →
        ∀ c ∈ ((Session.start t settings).resolver t).componentsFrom input.path
          (some (decodeLossy bytes)), c.directory ∈ d.session.claimedBundles) := by
  obtain ⟨next, hwalk, hdrained⟩ := ofInput_eq_ok hbytes hok
  obtain ⟨hcoversNext, -⟩ := hcovers.walkInput htidy houtside hwalk
  obtain ⟨hnext, hdirs⟩ := h.walkInput htidy hcovers hwalk
  obtain ⟨hpending, -⟩ := hcoversNext.drain htidy hdrained
  refine ⟨(hnext.drain htidy hcoversNext hdrained).next hpending, fun dir hdir => ?_,
    fun hkind c hc => ?_⟩
  · exact mem_claimedBundles_drain hdrained (mem_claimedBundles_walk hwalk hdir)
  · exact mem_claimedBundles_drain hdrained (hdirs hkind c hc)

theorem discovers (htidy : IsTidy t settings) {inputs : List SourceFile}
    {needed : List (List OutputFile)}
    (hinputs : ∀ input ∈ inputs, ¬input.path.HasTree)
    (hcovers : Covers t settings exempt past [] (fun _ => False) { session := s })
    (h : Bundles t settings exempt past (fun _ => False) (fun _ => False) { session := s })
    (hdiscovers : Discovers t inputs s needed s') :
    Bundles t settings exempt (past ++ needed.flatten) (fun _ => False) (fun _ => False)
        { session := s' } ∧
      (∀ dir ∈ s.claimedBundles, dir ∈ s'.claimedBundles) ∧
      ∀ input ∈ inputs, input.isNull = false → FileKind.ofPath input.path = .manifest →
        ∀ bytes, input.contents = some bytes →
          ∀ c ∈ ((Session.start t settings).resolver t).componentsFrom input.path
            (some (decodeLossy bytes)), c.directory ∈ s'.claimedBundles := by
  induction hdiscovers generalizing past with
  | nil => exact ⟨by simpa using h, fun dir hdir => hdir, by simp⟩
  | @null input rest s s' needed hnull _ ih =>
    obtain ⟨hend, hgrow, hdirs⟩ :=
      ih (fun i hi => hinputs i (List.mem_cons_of_mem _ hi)) hcovers h
    refine ⟨by simpa using hend, hgrow, fun i hi hfull => ?_⟩
    rcases List.mem_cons.1 hi with rfl | hi
    · simp [hnull] at hfull
    · exact hdirs i hi hfull
  | @cons input rest s s' d needed hfull hok _ ih =>
    obtain ⟨bytes, hbytes⟩ := input.exists_contents hfull
    have houtside := hinputs input (by simp)
    obtain ⟨hcoversNext, -, -⟩ := hcovers.ofInput htidy houtside hbytes hok
    obtain ⟨hnext, hgrow, hdirs⟩ := h.ofInput htidy houtside hbytes hcovers hok
    obtain ⟨hend, hgrow', hdirs'⟩ :=
      ih (fun i hi => hinputs i (List.mem_cons_of_mem _ hi)) hcoversNext hnext
    refine ⟨by simpa using hend, fun dir hdir => hgrow' dir (hgrow dir hdir), fun i hi hfull' => ?_⟩
    rcases List.mem_cons.1 hi with rfl | hi
    · intro hkind bytes' hbytes' c hc
      obtain rfl : bytes = bytes' := Option.some.inj (hbytes.symm.trans hbytes')
      exact hgrow' _ (hdirs hkind c hc)
    · exact hdirs' i hi hfull'

end Discovery.Bundles

/-- Every file of a bundle that a manifest at the path declares is emitted, if it belongs
to a package. Contents that are no text or no JSON object declare nothing. -/
def BuildOutput.HoldsBundlesAt (out : BuildOutput) (r : Resolver) (manifest : Path)
    (contents : ByteArray) : Prop :=
  ∀ text, decode? contents = some text → ∀ json, Json.parseObject? text = some json →
    ∀ declaration ∈ componentDeclarations json, ∀ c,
      r.resolveComponent? declaration.2 manifest = some c →
        ∀ q : Path, q.normalize = q → q.StartsWith c.directory → q.HasTree →
          r.tree.isFile q = true → out.Provides q

/-- What a manifest declares is emitted with all of its files once its bundles are claimed. -/
theorem Discovery.Bundles.holdsBundlesAt {t : FileTree} {settings : Settings}
    {exempt : OutputFile → Prop} {walked : List Path} {s : Session} {out : BuildOutput}
    {inputs : List SourceFile} {collected : List OutputFile} (htidy : IsTidy t settings)
    (hcovers : Covers t settings exempt collected walked (fun _ => False) { session := s })
    (h : Bundles t settings exempt collected (fun _ => False) (fun _ => False) { session := s })
    (hgathers : out.Gathers inputs collected) {manifest : Path} {contents : ByteArray}
    (hclaimed : ∀ text, decode? contents = some text → ∀ json, Json.parseObject? text = some json →
      ∀ c ∈ ((Session.start t settings).resolver t).componentsIn manifest json,
        c.directory ∈ s.claimedBundles) :
    out.HoldsBundlesAt ((Session.start t settings).resolver t) manifest contents := by
  intro text htext json hjson declaration hdeclaration c hresolve q hnormal hbelow htree hfile
  have hmem : c ∈ ((Session.start t settings).resolver t).componentsIn manifest json :=
    List.mem_filterMap.2 ⟨declaration, hdeclaration, hresolve⟩
  have hrooted := htidy.isRooted_of_mem_componentsIn hmem
  have hbundle := Resolver.isBundle_of_mem_componentsIn hmem
  have hplain : q.IsPlain := by
    rw [← hnormal]
    exact q.isPlain_normalize
  have hqRooted : q.IsRooted := by
    rw [← hnormal]
    refine Path.isRooted_normalize ?_
    obtain ⟨names, hnames⟩ := hrooted.directory
    rw [Path.StartsWith, hnames] at hbelow
    obtain ⟨steps, hsteps⟩ := hbelow
    rw [Path.isAbsolute_iff_head, ← hsteps]
    rfl
  -- the file lies in a claimed bundle, so it is claimed itself
  have hlisted := FileTree.mem_filesBelow_of_isFile hbundle.directory hrooted.directory
    hbundle.isDirectory hplain hqRooted hbelow hfile
  have hq := h.listed _ (hclaimed text htext json hjson c hmem) hbundle.directory id q hlisted
  exact hcovers.provides hgathers hq hplain htree

/-- A build that succeeds emits the bundles that are declared by its manifests and by
those that it takes over, save what only a manifest declares that was taken over under an
overlong path. -/
theorem Session.build_holdsBundles {t : FileTree} {settings : Settings}
    {inputs : List SourceFile} {out : BuildOutput} (htidy : IsTidy t settings)
    (hinputs : ∀ input ∈ inputs, input.path.isAbsolute = true ∧
      input.path.normalize = input.path ∧ ¬input.path.HasTree)
    (h : ((Session.start t settings).build t inputs).1 = .ok out) :
    (∀ input ∈ inputs, input.isNull = false → FileKind.ofPath input.path = .manifest →
      ∀ bytes, input.contents = some bytes →
        out.HoldsBundlesAt ((Session.start t settings).resolver t) input.path bytes) ∧
    ∀ f ∈ out.files, f.IsListedManifest → ¬f.IsOverlong t (.start t settings) →
      ∃ bytes, t.read f.source = .ok bytes ∧
        out.HoldsBundlesAt ((Session.start t settings).resolver t) f.source bytes := by
  obtain ⟨extracted, s₁, needed, s₂, hextracts, hdiscovers, hgathers⟩ := Session.exists_gathers h
  have hinputs' : ∀ input ∈ inputs, ¬input.path.HasTree := fun i hi => (hinputs i hi).2.2
  have hcoversStart := (Discovery.Covers.start t settings _).extracts htidy
    (List.nil_append _).symm (by simp) hextracts
  have hstart := (Discovery.Bundles.start t settings _).extracts htidy (List.nil_append _).symm
    (by simp) (Discovery.Covers.start t settings _) hextracts
  obtain ⟨hcovers, -, -⟩ := hcoversStart.discovers htidy hinputs' hdiscovers
  obtain ⟨hbundles, -, hdirs⟩ := hstart.discovers htidy hinputs' hcoversStart hdiscovers
  rw [List.nil_append] at hcovers hbundles
  constructor
  · intro input hinput hfull hkind bytes hbytes
    refine hbundles.holdsBundlesAt htidy hcovers hgathers fun text htext json hjson c hc => ?_
    refine hdirs input hinput hfull hkind bytes hbytes c ?_
    rw [decodeLossy_eq_of_decode? htext]
    simpa [Resolver.componentsFrom, hjson] using hc
  · intro f hf hlisted hshort
    have horigin : f.origin ≠ .input := by
      obtain ⟨place, horigin | horigin⟩ := hlisted.origin <;> simp [horigin]
    obtain ⟨g, hg, hsource, hgOrigin, bytes, hread⟩ := hcovers.exists_read hgathers hf horigin
    have hgListed : g.IsListedManifest :=
      { origin := hgOrigin ▸ hlisted.origin, kind := hsource ▸ hlisted.kind }
    refine ⟨bytes, hread, hbundles.holdsBundlesAt htidy hcovers hgathers
      fun text htext json hjson c hc => ?_⟩
    rcases hbundles.followed g hg hgListed with hexempt | ⟨p, hp, -⟩ | hfalse | hdirs
    · exact absurd (hexempt.congr hsource hgOrigin) hshort
    · simp at hp
    · exact hfalse.elim
    · refine hdirs c ?_
      have hobject : t.objectD g.source = json := by
        simp [FileTree.objectD, FileTree.object?, FileTree.readText, hsource, hread, htext, hjson]
      rw [Resolver.componentsOf, show ((Session.start t settings).resolver t).tree = t from rfl,
        hobject, hsource]
      exact hc

/-! ## A page with a bundle -/

theorem toList_twinTree : twinTree.entries.toList = [([], .directory),
    (["node_modules"], .directory), (["node_modules", "p"], .directory),
    (["node_modules", "p", "a.json"], .file "".toUTF8),
    (["node_modules", "p", "b.json"],
      .file "\x7b\"usingComponents\":\x7b\"x\":\"q/x\"\x7d\x7d".toUTF8),
    (["node_modules", "q"], .directory)] := by
  decide

theorem isTidy_twin : IsTidy twinTree (.forProject ⟨"/"⟩) := by
  refine .of_entries (by decide) (by decide) (by decide) (by decide) ?_
  rw [toList_twinTree]
  simp
  decide +kernel

/-- A page that uses a component of a package. -/
def twinPage : SourceFile := ⟨⟨"/page.json"⟩, ⟨"/"⟩, some (pageUsing "\"x\":\"p/b\"").toUTF8⟩

theorem Session.build_holdsBundles_twin :
    ∃ out, ((Session.start twinTree (.forProject ⟨"/"⟩)).build twinTree [twinPage]).1 = .ok out ∧
      out.HoldsBundlesAt ((Session.start twinTree (.forProject ⟨"/"⟩)).resolver twinTree)
        ⟨"/page.json"⟩ (pageUsing "\"x\":\"p/b\"").toUTF8 ∧
      ∀ f ∈ out.files, f.IsListedManifest →
        ¬f.IsOverlong twinTree (.start twinTree (.forProject ⟨"/"⟩)) →
          ∃ bytes, twinTree.read f.source = .ok bytes ∧ out.HoldsBundlesAt
            ((Session.start twinTree (.forProject ⟨"/"⟩)).resolver twinTree) f.source bytes := by
  have hok : ((Session.start twinTree (.forProject ⟨"/"⟩)).build twinTree [twinPage]).1.isOk =
      true := by
    decide +kernel
  cases hout : ((Session.start twinTree (.forProject ⟨"/"⟩)).build twinTree [twinPage]).1 with
  | error failure =>
    rw [hout] at hok
    simp [Except.isOk, Except.toBool] at hok
  | ok out =>
    have hinput : ∀ input ∈ [twinPage], input.path.isAbsolute = true ∧
        input.path.normalize = input.path ∧ ¬input.path.HasTree := by
      intro input hinput
      rw [List.mem_singleton.1 hinput]
      decide +kernel
    obtain ⟨hinputs, hfiles⟩ := Session.build_holdsBundles isTidy_twin hinput hout
    exact ⟨out, rfl, hinputs twinPage (by simp) (by decide +kernel) (by decide) _ rfl, hfiles⟩

/-! ## A manifest under an overlong path -/

/-- A package with a manifest two directories down that uses a component of the package. -/
def overlongPageTree : FileTree :=
  FileTree.ofEntries [(["node_modules"], .directory), (["node_modules", "p"], .directory),
    (["node_modules", "p", "index.js"], .file "".toUTF8), (["node_modules", "p", "s"], .directory),
    (["node_modules", "p", "s", "u"], .directory),
    (["node_modules", "p", "s", "u", "a.json"], .file (pageUsing "\"x\":\"p/x\"").toUTF8)]

theorem isNested_overlongPageTree :
    overlongPageTree.IsNested "a.json" (pageUsing "\"x\":\"p/x\"").toUTF8 where
  toList := by decide
  locate := by decide
  read := by
    have hloc : overlongPageTree.locate (nestedDir / "a.json") =
        .ok ["node_modules", "p", "s", "u", "a.json"] := by
      decide
    exact FileTree.read_of_locate hloc (by decide)
  get? := by decide

/-- The bundles that a manifest declares need not be emitted that was taken over under an
overlong path. -/
theorem Session.exists_not_holdsBundlesAt : ∃ out f,
    IsTidy overlongPageTree (overlongSettings 4076) ∧
    ((Session.start overlongPageTree (overlongSettings 4076)).build overlongPageTree []).1 =
      .ok out ∧
    f ∈ out.files ∧ f.IsListedManifest ∧
    ¬∃ bytes, overlongPageTree.read f.source = .ok bytes ∧ out.HoldsBundlesAt
      ((Session.start overlongPageTree (overlongSettings 4076)).resolver overlongPageTree)
        f.source bytes := by
  have hnested := isNested_overlongPageTree
  have hname : "a.json" ≠ packageTreeName := by decide
  have hcontents : ((decode? (pageUsing "\"x\":\"p/x\"").toUTF8).bind Json.parseObject?).all
      (fun json => (Manifest.ofJson json).alternateDirname?.all fun dirname =>
        ['.', '.'] ∉ splitOn '/' dirname.toList) = true := by
    decide +kernel
  obtain ⟨out, f, hout, hf, ⟨place, horigin⟩, hsources⟩ := hnested.build_overlong hname hcontents
  have hkind : FileKind.ofPath f.source = .manifest := by
    rw [hsources f hf]
    decide +kernel
  refine ⟨out, f, hnested.isTidy hname hcontents, hout, hf, ⟨⟨place, .inr horigin⟩, hkind⟩, ?_⟩
  rintro ⟨bytes, hread, hholds⟩
  rw [hsources f hf] at hread hholds
  obtain rfl := Except.ok.inj (hnested.read.symm.trans hread)
  obtain ⟨json, hjson, hdeclared⟩ : ∃ json,
      Json.parseObject? (pageUsing "\"x\":\"p/x\"") = some json ∧
        ("x", "p/x") ∈ componentDeclarations json := by
    have hsome : ((Json.parseObject? (pageUsing "\"x\":\"p/x\"")).any fun json =>
        ("x", "p/x") ∈ componentDeclarations json) = true := by
      decide +kernel
    obtain ⟨json, hjson, hdeclared⟩ := (Option.any_eq_true _ _).1 hsome
    exact ⟨json, hjson, of_decide_eq_true hdeclared⟩
  have hresolve : ((Session.start overlongPageTree (.forProject ⟨"/"⟩)).resolver
      overlongPageTree).resolveComponent? "p/x" (nestedDir / "a.json") = some
        { specifier := "p/x"
          package := "p"
          directory := ⟨"/node_modules/p"⟩
          manifest := ⟨"/node_modules/p/x.json"⟩ } := by
    decide +kernel
  obtain ⟨other, hother, -, hsource⟩ := hholds _ (by decide +kernel) json hjson _ hdeclared _
    hresolve ⟨"/node_modules/p/index.js"⟩ (by decide +kernel) (by decide +kernel)
    (by decide +kernel) (by decide +kernel)
  rw [hsources other hother] at hsource
  exact absurd hsource (by decide)

end Vendoring
