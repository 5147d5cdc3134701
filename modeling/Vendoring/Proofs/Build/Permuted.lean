/-
# What a build emits in any order

What a file is emitted as depends on the route by which it was reached first, and so on
the order of the inputs. If every route to a file agrees on what the file is, the order
has no say: the same files are emitted, to the same places.

What one run has claimed bounds every other. Its claims are closed, since whatever it
collected has been followed, and all of it could be read.
-/

import Vendoring.Proofs.Build.Bounds
import Vendoring.Proofs.Build.BundleClosure
import Vendoring.Proofs.Build.Once

namespace Vendoring

open Text

/-! ## Runs within bounds -/

namespace Bounds

variable {t : FileTree} {settings : Settings} {inputs given : List SourceFile} {b : Bounds}
variable {d : Discovery} {s s' : Session}

/-- The next discovery starts within the bounds. -/
theorem Holds.next (h : b.Holds t (.start t settings) d) :
    b.Holds t (.start t settings) { session := d.session } :=
  { h with recalls := .ok h.recalls.session (by simp), pending := by simp, outputs := by simp }

/-- What is collected after the start was found within the bounds. -/
theorem Holds.append {files : List OutputFile} (h : b.Holds t (.start t settings) d)
    (h' : b.Holds t (.start t settings) { session := s, outputs := files }) :
    b.Holds t (.start t settings) { session := s, outputs := d.outputs ++ files } :=
  { h' with
    recalls := .ok h'.recalls.session (by simp)
    outputs := fun f hf => (List.mem_append.1 hf).elim (h.outputs f) (h'.outputs f) }

/-- An entry of the full extraction is taken over within bounds that admit its files. -/
theorem Holds.ofEntry (htidy : IsTidy t settings)
    (hroutes : RoutesAgree t (.start t settings) inputs)
    (hclosed : b.IsClosed t (.start t settings) inputs) {entry : String}
    (hentry : entry ∈ settings.fullExtract)
    (hadmits : ∀ c : Candidate, (∀ p, c.origin p = .fullExtract p) →
      b.Admits t (.start t settings) c)
    (h : b.Holds t (.start t settings) { session := s }) :
    b.Contains t (.start t settings) (Discovery.ofEntry t s entry) := by
  have hdir? : Discovery.extractedDir? t s entry =
      Discovery.extractedDir? t (.start t settings) entry :=
    Discovery.extractedDir?_congr h.recalls.session.catalog_eq entry
  cases hdir : Discovery.extractedDir? t (.start t settings) entry with
  | none =>
    rw [Discovery.ofEntry, hdir?, hdir]
    exact .ok h
  | some found =>
    obtain ⟨package, dir⟩ := found
    rw [Discovery.ofEntry, hdir?, hdir]
    refine Contains.bind (h.foldlM fun file hfile d hd => ?_) fun d hd => ?_
    · exact hd.inject hclosed (hadmits _ fun p => rfl)
        (hroutes.listed entry hentry package dir hdir file hfile)
    · refine (hd.drain htidy hroutes hclosed).bind fun d hd => .ok ?_
      exact { hd with recalls := .ok hd.recalls.session hd.recalls.waiting }

theorem Holds.extracts (htidy : IsTidy t settings)
    (hroutes : RoutesAgree t (.start t settings) inputs)
    (hclosed : b.IsClosed t (.start t settings) inputs) {entries : List String}
    {files : List OutputFile} (hentries : ∀ entry ∈ entries, entry ∈ settings.fullExtract)
    (hadmits : ∀ c : Candidate, (∀ p, c.origin p = .fullExtract p) →
      b.Admits t (.start t settings) c)
    (h : b.Holds t (.start t settings) { session := s }) (hextracts : Extracts t entries s files s') :
    b.Holds t (.start t settings) { session := s', outputs := files } := by
  induction hextracts with
  | nil => exact h
  | @cons entry rest s s' d files hok _ ih =>
    have hd := h.ofEntry htidy hroutes hclosed (hentries entry (by simp)) hadmits
    rw [hok] at hd
    exact hd.holds.append (ih (fun e he => hentries e (List.mem_cons_of_mem _ he)) hd.holds.next)

/-- Inputs that are followed are followed within the bounds. -/
theorem Holds.discovers (htidy : IsTidy t settings)
    (hroutes : RoutesAgree t (.start t settings) inputs)
    (hclosed : b.IsClosed t (.start t settings) inputs) {needed : List (List OutputFile)}
    (hgiven : ∀ input ∈ given, input ∈ inputs)
    (h : b.Holds t (.start t settings) { session := s }) (hdiscovers : Discovers t given s needed s') :
    b.Holds t (.start t settings) { session := s', outputs := needed.flatten } := by
  induction hdiscovers with
  | nil => exact h
  | null _ _ ih => exact ih (fun i hi => hgiven i (List.mem_cons_of_mem _ hi)) h
  | @cons input rest s s' d needed hfull hok _ ih =>
    have hd := h.ofInput htidy hroutes hclosed (hgiven input (by simp)) hfull
    rw [hok] at hd
    exact hd.holds.append (ih (fun i hi => hgiven i (List.mem_cons_of_mem _ hi)) hd.holds.next)

/-- If all files within the bounds can be read, all inputs can be followed. -/
theorem Holds.exists_discovers (htidy : IsTidy t settings)
    (hroutes : RoutesAgree t (.start t settings) inputs)
    (hclosed : b.IsClosed t (.start t settings) inputs) (hread : ¬b.IsBlocked t)
    (hgiven : ∀ input ∈ given, input ∈ inputs)
    (h : b.Holds t (.start t settings) { session := s }) :
    ∃ needed s', Discovers t given s needed s' := by
  induction given generalizing s with
  | nil => exact ⟨[], s, .nil s⟩
  | cons input rest ih =>
    have hrest : ∀ i ∈ rest, i ∈ inputs := fun i hi => hgiven i (List.mem_cons_of_mem _ hi)
    cases hnull : input.isNull with
    | true =>
      obtain ⟨needed, s', hneeded⟩ := ih hrest h
      exact ⟨_, s', .null hnull hneeded⟩
    | false =>
      have hinput := h.ofInput htidy hroutes hclosed (hgiven input (by simp)) hnull
      cases hd : Discovery.ofInput t s input with
      | error halted =>
        rw [hd] at hinput
        cases hinput with
        | error hblocked => exact absurd hblocked hread
      | ok d =>
        rw [hd] at hinput
        obtain ⟨needed, s', hneeded⟩ := ih hrest hinput.holds.next
        exact ⟨_, s', .cons hnull hd hneeded⟩

end Bounds

theorem Resolver.declares_of_uses {r : Resolver} {inputs : List SourceFile} {c : ComponentRef}
    (h : r.Uses inputs c) : r.Declares c := by
  rcases h with ⟨input, -, bytes, -, hmem⟩ | ⟨file, hmem⟩
  · obtain ⟨json, hmem⟩ := Resolver.exists_of_mem_componentsFrom hmem
    exact Resolver.declares_of_mem_componentsIn c hmem
  · exact Resolver.declares_of_mem_componentsOf c hmem

/-! ## What a run has claimed -/

/-- What a session has claimed, where each file is emitted as what it is. -/
def Bounds.claimed (t : FileTree) (start s : Session) : Bounds where
  files p := p ∈ s.claimedFiles
  walked p := p ∈ s.claimedFiles ∧ p.HasTree
  bundles dir := dir ∈ s.claimedBundles
  emitted f := ∃ c : Candidate, c.IsOwned (start.resolver t) start.planner ∧
    c.Yields t start.planner f

/-- Everything, except for manifests that are emitted as imports. -/
def Bounds.withoutManifests : Bounds where
  files _ := True
  walked _ := True
  bundles _ := True
  emitted f := (∃ p, f.origin = .dependency p) → FileKind.ofPath f.source ≠ .manifest

theorem Candidate.IsOwned.source_sameAs {r : Resolver} {planner : Planner} {c : Candidate}
    (hc : c.IsOwned r planner) {t : FileTree} {f : OutputFile} (h : c.Yields t planner f) :
    f.source.SameAs c.file := by
  obtain ⟨place, contents, hplace, -, rfl⟩ := h
  show place.source.SameAs c.file
  rw [Planner.source_of_place? hplace]
  exact hc.isRooted.normalize_sameAs

theorem Bounds.isClosed_withoutManifests (t : FileTree) (s : Session) (inputs : List SourceFile) :
    Bounds.withoutManifests.IsClosed t s inputs where
  files_congr _ _ := trivial
  walked_congr _ _ := trivial
  bundles_congr _ _ := trivial
  inputImports _ _ _ _ _ _ _ := trivial
  inputBundles _ _ _ _ _ _ _ _ := trivial
  imported _ _ _ := trivial
  references _ _ _ _ := trivial
  components _ _ _ _ _ := trivial
  onward _ _ _ _ _ := trivial
  listed _ _ _ _ _ := ⟨trivial, trivial⟩
  owned c hc f hyields := by
    rintro ⟨p, horigin⟩
    rw [FileKind.ofPath_congr (hc.source_sameAs hyields)]
    obtain ⟨place, contents, -, -, rfl⟩ := hyields
    rcases hc.origin with hcomponent | ⟨-, hkind⟩
    · rw [show (c.output place contents).origin = c.origin place from rfl, hcomponent] at horigin
      simp at horigin
    · exact hkind

/-- The account of a run that has come to its end: everything that its inputs and the
files that it collected refer to is claimed. -/
structure IsSettled (t : FileTree) (settings : Settings) (inputs : List SourceFile)
    (files : List OutputFile) (s : Session) : Prop where
  covers : Discovery.Covers t settings (OutputFile.IsOverlong t (.start t settings)) files []
    (fun _ => False) { session := s }
  bundles : Discovery.Bundles t settings (OutputFile.IsOverlong t (.start t settings)) files
    (fun _ => False) (fun _ => False) { session := s }
  inputImports : ∀ input ∈ inputs, input.isNull = false → ∀ bytes, input.contents = some bytes →
    ∀ ref ∈ ((Session.start t settings).resolver t).referencesIn input.path (decodeLossy bytes),
      ref.target ∈ s.claimedFiles
  inputBundles : ∀ input ∈ inputs, input.isNull = false →
    FileKind.ofPath input.path = .manifest → ∀ bytes, input.contents = some bytes →
      ∀ c ∈ ((Session.start t settings).resolver t).componentsFrom input.path
        (some (decodeLossy bytes)), c.directory ∈ s.claimedBundles
  manifests : ∀ f ∈ files, (∃ p, f.origin = .dependency p) → FileKind.ofPath f.source ≠ .manifest

theorem IsSettled.of_run {t : FileTree} {settings : Settings} {inputs : List SourceFile}
    {extracted : List OutputFile} {needed : List (List OutputFile)} {s₁ s₂ : Session}
    (htidy : IsTidy t settings) (hroutes : RoutesAgree t (.start t settings) inputs)
    (hinputs : ∀ input ∈ inputs, ¬input.path.HasTree)
    (hextracts : Extracts t settings.fullExtract (.start t settings) extracted s₁)
    (hdiscovers : Discovers t inputs s₁ needed s₂) :
    IsSettled t settings inputs (extracted ++ needed.flatten) s₂ := by
  have hcoversStart := (Discovery.Covers.start t settings _).extracts htidy
    (List.nil_append _).symm (by simp) hextracts
  have hbundlesStart := (Discovery.Bundles.start t settings _).extracts htidy
    (List.nil_append _).symm (by simp) (Discovery.Covers.start t settings _) hextracts
  obtain ⟨hcovers, -, hrefs⟩ := hcoversStart.discovers htidy hinputs hdiscovers
  obtain ⟨hbundles, -, hdirs⟩ := hbundlesStart.discovers htidy hinputs hcoversStart hdiscovers
  have hclosed := Bounds.isClosed_withoutManifests t (.start t settings) inputs
  have hstart : Bounds.withoutManifests.Holds t (.start t settings)
      { session := .start t settings } :=
    { recalls := .ok (Session.recalls_start t settings) (by simp)
      files := fun _ _ => trivial
      bundles := fun _ _ => trivial
      pending := fun _ _ => trivial
      outputs := by simp }
  have hextracted := hstart.extracts htidy hroutes hclosed (fun _ he => he)
    (fun c horigin => ⟨trivial, trivial, ?_⟩) hextracts
  · have hneeded := hextracted.next.discovers htidy hroutes hclosed (fun _ hi => hi) hdiscovers
    exact ⟨hcovers, hbundles, hrefs, hdirs, (hextracted.append hneeded).outputs⟩
  · rintro f ⟨place, contents, -, -, rfl⟩ ⟨p, hp⟩
    rw [show (c.output place contents).origin = c.origin place from rfl, horigin] at hp
    simp at hp

namespace IsSettled

variable {t : FileTree} {settings : Settings} {inputs : List SourceFile}
variable {files : List OutputFile} {s : Session} {p : Path}

/-- What is claimed behind a package tree was collected. -/
theorem exists_collected (h : IsSettled t settings inputs files s) (hp : p ∈ s.claimedFiles)
    (htree : p.HasTree) :
    ∃ f ∈ files, f.source.SameAs p ∧ f.IsCollected t s.claimedFiles := by
  obtain ⟨f, hf, hsame⟩ := h.covers.emitted p hp htree
  rw [List.append_nil] at hf
  exact ⟨f, hf, hsame, h.covers.collected f (by simpa using hf)⟩

/-- What is listed readably was not taken over under an overlong path. -/
theorem not_isOverlong (hroutes : RoutesAgree t (.start t settings) inputs) {f : OutputFile}
    (hkind : FileKind.ofPath f.source ≠ .other) (hplain : f.source.IsPlain)
    (hread : ∃ contents, t.read f.source = .ok contents) :
    ¬f.IsOverlong t (.start t settings) := by
  rintro ⟨-, before, entry, after, hentries, -, q, ⟨package, dir, hdir, hq⟩, hsame, hlong⟩
  obtain ⟨contents, hread⟩ := hread
  have hentry : entry ∈ settings.fullExtract := by
    rw [show settings.fullExtract = _ from hentries]
    simp
  have hrewritable : (FileKind.ofPath q).isRewritable = true := by
    rw [FileKind.ofPath_congr hsame]
    simpa [FileKind.isRewritable] using hkind
  have hreads := hroutes.listed entry hentry package dir hdir q hq hrewritable
  exact hlong (FileTree.isShort_of_read (hreads _ contents hplain hsame hread))

theorem references
    (hroutes : RoutesAgree t (.start t settings) inputs) (h : IsSettled t settings inputs files s)
    (hp : p ∈ s.claimedFiles) (htree : p.HasTree) :
    ∀ ref ∈ ((Session.start t settings).resolver t).referencesOf p, ref.target ∈ s.claimedFiles := by
  intro ref href
  obtain ⟨f, hf, hsame, hcollected⟩ := h.exists_collected hp htree
  obtain ⟨hkind, -⟩ := Resolver.exists_read_of_mem_referencesOf _ href
  rw [← FileKind.ofPath_congr hsame] at hkind
  have href' := Resolver.mem_referencesOf_of_isPlain _ hsame.symm hcollected.isPlain href
  rcases h.covers.followed f (by simpa using hf) with hoverlong | ⟨q, hq, -⟩ | hfalse | htargets
  · exact absurd hoverlong (not_isOverlong hroutes hkind hcollected.isPlain hcollected.read)
  · simp at hq
  · exact hfalse.elim
  · exact htargets ref href'

/-- A manifest that is claimed waits for its declarations to be followed, since it was not
imported. -/
theorem components (hroutes : RoutesAgree t (.start t settings) inputs)
    (h : IsSettled t settings inputs files s) (hp : p ∈ s.claimedFiles) (htree : p.HasTree)
    (hkind : FileKind.ofPath p = .manifest) :
    ∀ c ∈ ((Session.start t settings).resolver t).componentsOf p,
      c.directory ∈ s.claimedBundles := by
  intro c hc
  obtain ⟨f, hf, hsame, hcollected⟩ := h.exists_collected hp htree
  rw [← FileKind.ofPath_congr hsame] at hkind
  have hc' := Resolver.mem_componentsOf_of_isPlain _ hsame.symm hcollected.isPlain hc
  have hlisted : f.IsListedManifest := by
    refine ⟨?_, hkind⟩
    cases horigin : f.origin with
    | input => exact absurd horigin hcollected.origin
    | dependency place => exact absurd hkind (h.manifests f hf ⟨place, horigin⟩)
    | component place => exact ⟨place, .inl rfl⟩
    | fullExtract place => exact ⟨place, .inr rfl⟩
  rcases h.bundles.followed f (by simpa using hf) hlisted with
    hoverlong | ⟨q, hq, -⟩ | hfalse | hdirs
  · refine absurd hoverlong (not_isOverlong hroutes ?_ hcollected.isPlain hcollected.read)
    simp [hkind]
  · simp at hq
  · exact hfalse.elim
  · exact hdirs c hc'

/-- The manifest of a bundle is claimed with the bundle, and followed. -/
theorem onward (htidy : IsTidy t settings) (hroutes : RoutesAgree t (.start t settings) inputs)
    (h : IsSettled t settings inputs files s) {c : ComponentRef}
    (hc : ((Session.start t settings).resolver t).Uses inputs c)
    (hdir : c.directory ∈ s.claimedBundles) :
    ∀ next ∈ ((Session.start t settings).resolver t).componentsOf c.manifest,
      next.directory ∈ s.claimedBundles := by
  intro next hnext
  obtain ⟨specifier, manifest, hresolve⟩ := Resolver.declares_of_uses hc
  obtain ⟨hplain, hdirPlain, hisDir⟩ := Resolver.bundle_of_resolveComponent? hresolve
  have hrooted := Bounds.isRooted_of_uses htidy hc
  obtain ⟨hbelow, hkind⟩ :=
    Resolver.manifest_of_resolveComponent? htidy.isEnclosed.isAnchored hresolve
  obtain ⟨contents, hread⟩ := Resolver.exists_read_of_mem_componentsOf _ hnext
  have hlisted := FileTree.mem_filesBelow_of_isFile hdirPlain hrooted.directory hisDir hplain
    hrooted.manifest hbelow (FileTree.isFile_of_read hread)
  refine h.components hroutes (h.bundles.listed _ hdir hdirPlain id _ hlisted) ?_ hkind next hnext
  exact (hroutes.bundled c hc).1.of_startsWith hbelow

/-- What a run has claimed is closed. -/
theorem isClosed (htidy : IsTidy t settings) (hroutes : RoutesAgree t (.start t settings) inputs)
    (h : IsSettled t settings inputs files s) :
    (Bounds.claimed t (.start t settings) s).IsClosed t (.start t settings) inputs where
  files_congr hsame hp := (PathMap.mem_congr _ hsame).1 hp
  walked_congr hsame hp := ⟨(PathMap.mem_congr _ hsame).1 hp.1, hsame.hasTree hp.2⟩
  bundles_congr hsame hp := (PathMap.mem_congr _ hsame).1 hp
  inputImports := h.inputImports
  inputBundles := h.inputBundles
  imported _ himports hfile := ⟨hfile, (Bounds.isInstalled_of_imports htidy himports).hasTree⟩
  references _ hp := h.references hroutes hp.1 hp.2
  components _ hp := h.components hroutes hp.1 hp.2
  onward _ hc hdir := h.onward htidy hroutes hc hdir
  listed c hc hdir file hfile := by
    have hplain := (Bounds.isRooted_of_uses htidy hc).isPlain
    have hclaimed := h.bundles.listed _ hdir hplain id file hfile
    exact ⟨hclaimed, hclaimed, (Bounds.isOwned_bundled htidy hroutes hc hfile).hasTree⟩
  owned c hc f hyields := ⟨c, hc, hyields⟩

/-- What a run has claimed could be read. -/
theorem not_isBlocked (h : IsSettled t settings inputs files s) :
    ¬(Bounds.claimed t (.start t settings) s).IsBlocked t := by
  rintro ⟨p, ⟨hp, htree⟩, hread⟩
  obtain ⟨f, -, hsame, hcollected⟩ := h.exists_collected hp htree
  obtain ⟨contents, hcontents⟩ := hcollected.read
  have hnormal := (hsame.isRooted hcollected.isRooted).normalize_sameAs
  have hsource := (hsame.trans hnormal.symm).eq_of_isPlain hcollected.isPlain p.isPlain_normalize
  exact hread contents (hsource ▸ hcontents)

end IsSettled

/-! ## Two runs -/

namespace Discovers

variable {t : FileTree} {inputs : List SourceFile} {s s' : Session}
variable {needed : List (List OutputFile)} {p : Path}

theorem mem_claimedFiles (h : Discovers t inputs s needed s') (hp : p ∈ s.claimedFiles) :
    p ∈ s'.claimedFiles := by
  induction h with
  | nil => exact hp
  | null _ _ ih => exact ih hp
  | @cons input _ _ _ _ _ hfull hok _ ih =>
    obtain ⟨bytes, hbytes⟩ := input.exists_contents hfull
    obtain ⟨walked, hwalk, hdrained⟩ := Discovery.ofInput_eq_ok hbytes hok
    exact ih (Discovery.mem_claimedFiles_drain hdrained
      (Discovery.mem_claimedFiles_walk hwalk hp))

theorem mem_claimedBundles (h : Discovers t inputs s needed s') (hp : p ∈ s.claimedBundles) :
    p ∈ s'.claimedBundles := by
  induction h with
  | nil => exact hp
  | null _ _ ih => exact ih hp
  | @cons input _ _ _ _ _ hfull hok _ ih =>
    obtain ⟨bytes, hbytes⟩ := input.exists_contents hfull
    obtain ⟨walked, hwalk, hdrained⟩ := Discovery.ofInput_eq_ok hbytes hok
    exact ih (Discovery.mem_claimedBundles_drain hdrained
      (Discovery.mem_claimedBundles_walk hwalk hp))

end Discovers

theorem Session.Recalls.extracts {t : FileTree} {start s s' : Session} {entries : List String}
    {files : List OutputFile} (h : s.Recalls t start)
    (hlisted : ∀ entry ∈ entries, start.ListsReadably t entry)
    (hextracts : Extracts t entries s files s') : s'.Recalls t start := by
  induction hextracts with
  | nil => exact h
  | @cons entry rest s s' d files hok _ ih =>
    have hd := Discovered.Recalls.ofEntry h (hlisted entry (by simp))
    rw [hok] at hd
    exact ih hd.session fun e he => hlisted e (List.mem_cons_of_mem _ he)

/-- What a run collects belongs to packages, and is collected once. -/
theorem IsEnclosed.exists_once {t : FileTree} {settings : Settings} {inputs : List SourceFile}
    {extracted : List OutputFile} {needed : List (List OutputFile)} {s₁ s₂ : Session}
    (h : IsEnclosed t settings)
    (hextracts : Extracts t settings.fullExtract (.start t settings) extracted s₁)
    (hdiscovers : Discovers t inputs s₁ needed s₂) :
    ∃ told, Discovery.Once t (.start t settings) (extracted ++ needed.flatten) told
      { session := s₂ } := by
  obtain ⟨events, hfull⟩ := Progress.extractFull_of_extracts hextracts []
  have hstart : Discovery.Once t (.start t settings) [] ([] ++ [])
      { session := .start t settings } := .start t settings
  have hextracted := hstart.extractFull h (fun _ he => he) hfull
  exact ⟨_, hextracted.discoverAll h.isAnchored hdiscovers 0⟩

/-- A file has one package, and is its main entry or not, so it has one place. -/
theorem Candidate.IsOwned.relative_eq {t : FileTree} {r : Resolver} {planner : Planner}
    {c c' : Candidate} (hc : c.IsOwned r planner) (hc' : c'.IsOwned r planner) {f f' : OutputFile}
    (hf : c.Yields t planner f) (hf' : c'.Yields t planner f') (hsource : f.source = f'.source) :
    f.relative = f'.relative := by
  have hsame : c.file.SameAs c'.file :=
    (hc.source_sameAs hf).symm.trans (hsource ▸ hc'.source_sameAs hf')
  have hpackage : c.package = c'.package := by
    have heq := hc.package
    rw [Resolver.packageOf?_congr r hsame, hc'.package] at heq
    exact (Option.some.inj heq).symm
  have hisMain : c.isMain = c'.isMain := by
    rw [hc.isMain, hc'.isMain, hpackage, Planner.isMainFile_congr hsame]
  obtain ⟨place, contents, hplace, -, rfl⟩ := hf
  obtain ⟨place', contents', hplace', -, rfl⟩ := hf'
  rw [hpackage, hisMain, Planner.place?_congr hsame, hplace'] at hplace
  exact congrArg Placement.relative (Option.some.inj hplace).symm

/-- After the same entries, whatever a run has claimed admits every run of the same
inputs. -/
theorem IsSettled.holds {t : FileTree} {settings : Settings} {inputs : List SourceFile}
    {extracted : List OutputFile} {needed : List (List OutputFile)} {s₁ s₂ : Session}
    (hroutes : RoutesAgree t (.start t settings) inputs)
    (hextracts : Extracts t settings.fullExtract (.start t settings) extracted s₁)
    (hdiscovers : Discovers t inputs s₁ needed s₂) :
    (Bounds.claimed t (.start t settings) s₂).Holds t (.start t settings) { session := s₁ } where
  recalls := .ok ((Session.recalls_start t settings).extracts hroutes.listed hextracts) (by simp)
  files _ hp := hdiscovers.mem_claimedFiles hp
  bundles _ hdir := hdiscovers.mem_claimedBundles hdir
  pending := by simp
  outputs := by simp

section Orders

variable {t : FileTree} {settings : Settings} {inputs inputs' : List SourceFile}
variable {extracted : List OutputFile} {needed needed' : List (List OutputFile)}
variable {s₁ s₂ s₂' : Session}

theorem RoutesAgree.perm {s : Session} (h : RoutesAgree t s inputs) (hperm : inputs.Perm inputs') :
    RoutesAgree t s inputs' where
  named ref href :=
    h.named ref (href.imp_left fun ⟨i, hi, himports⟩ => ⟨i, hperm.mem_iff.2 hi, himports⟩)
  manifests ref href :=
    h.manifests ref (href.imp_left fun ⟨i, hi, himports⟩ => ⟨i, hperm.mem_iff.2 hi, himports⟩)
  bundled c hc := h.bundled c (hc.imp_left fun ⟨i, hi, huses⟩ => ⟨i, hperm.mem_iff.2 hi, huses⟩)
  listed := h.listed

/-- The inputs can be followed in another order if they can be followed in one. -/
theorem Discovers.exists_perm (htidy : IsTidy t settings)
    (hroutes : RoutesAgree t (.start t settings) inputs)
    (hinputs : ∀ input ∈ inputs, ¬input.path.HasTree)
    (hextracts : Extracts t settings.fullExtract (.start t settings) extracted s₁)
    (hdiscovers : Discovers t inputs s₁ needed s₂) (hperm : inputs.Perm inputs') :
    ∃ needed' s₂', Discovers t inputs' s₁ needed' s₂' := by
  have hsettled := IsSettled.of_run htidy hroutes hinputs hextracts hdiscovers
  exact (IsSettled.holds hroutes hextracts hdiscovers).exists_discovers htidy hroutes
    (hsettled.isClosed htidy hroutes) hsettled.not_isBlocked fun i hi => hperm.mem_iff.2 hi

/-- Another order claims nothing else, and emits what it claims as what it is. -/
theorem Discovers.holds_perm (htidy : IsTidy t settings)
    (hroutes : RoutesAgree t (.start t settings) inputs)
    (hinputs : ∀ input ∈ inputs, ¬input.path.HasTree)
    (hextracts : Extracts t settings.fullExtract (.start t settings) extracted s₁)
    (hdiscovers : Discovers t inputs s₁ needed s₂) (hdiscovers' : Discovers t inputs' s₁ needed' s₂')
    (hperm : inputs.Perm inputs') :
    (Bounds.claimed t (.start t settings) s₂).Holds t (.start t settings)
      { session := s₂', outputs := needed'.flatten } := by
  have hsettled := IsSettled.of_run htidy hroutes hinputs hextracts hdiscovers
  exact (IsSettled.holds hroutes hextracts hdiscovers).discovers htidy hroutes
    (hsettled.isClosed htidy hroutes) (fun i hi => hperm.mem_iff.2 hi) hdiscovers'

/-- What one order collects every order collects, at the same place. -/
theorem Discovers.exists_collected_perm (htidy : IsTidy t settings)
    (hroutes : RoutesAgree t (.start t settings) inputs)
    (hinputs : ∀ input ∈ inputs, ¬input.path.HasTree)
    (hextracts : Extracts t settings.fullExtract (.start t settings) extracted s₁)
    (hdiscovers : Discovers t inputs s₁ needed s₂) (hdiscovers' : Discovers t inputs' s₁ needed' s₂')
    (hperm : inputs.Perm inputs') :
    ∀ f ∈ extracted ++ needed.flatten, ∃ f' ∈ extracted ++ needed'.flatten,
      f'.source = f.source ∧ f'.relative = f.relative := by
  intro f hf
  rcases List.mem_append.1 hf with hextracted | hneeded
  · exact ⟨f, List.mem_append_left _ hextracted, rfl, rfl⟩
  · have hroutes' := hroutes.perm hperm
    have hinputs' : ∀ input ∈ inputs', ¬input.path.HasTree :=
      fun i hi => hinputs i (hperm.mem_iff.2 hi)
    have hholds := holds_perm htidy hroutes hinputs hextracts hdiscovers hdiscovers' hperm
    have hholds' :=
      holds_perm htidy hroutes' hinputs' hextracts hdiscovers' hdiscovers hperm.symm
    have hsettled := IsSettled.of_run htidy hroutes hinputs hextracts hdiscovers
    have hsettled' := IsSettled.of_run htidy hroutes' hinputs' hextracts hdiscovers'
    obtain ⟨c, hc, hyields⟩ := hholds'.outputs f hneeded
    have hcollected := hsettled.covers.collected f (by simpa using hf)
    have htree := (hc.source_sameAs hyields).symm.hasTree hc.hasTree
    obtain ⟨f', hf', hsame, hcollected'⟩ :=
      hsettled'.exists_collected (hholds'.files _ hcollected.mem_claimed) htree
    have hsource := hsame.eq_of_isPlain hcollected'.isPlain hcollected.isPlain
    refine ⟨f', hf', hsource, ?_⟩
    rcases List.mem_append.1 hf' with hextracted | hneeded'
    · -- a file that the entries take over is not collected for an input
      obtain ⟨told, honce⟩ := htidy.isEnclosed.exists_once hextracts hdiscovers
      have hdistinct := honce.emits.distinct
      rw [List.append_nil] at hdistinct
      exact absurd hsame ((List.pairwise_append.1 hdistinct).2.2 f' hextracted f hneeded)
    · obtain ⟨c', hc', hyields'⟩ := hholds.outputs f' hneeded'
      exact hc'.relative_eq hc hyields' hyields hsource

end Orders

/-- Where the files of packages that leave the build were read, and where they are written. -/
def BuildOutput.placements (out : BuildOutput) : Set (Path × Path) :=
  {x | ∃ f ∈ out.files, f.isDependency = true ∧ (f.source, f.relative) = x}

theorem Session.mem_placements_iff {t : FileTree} {settings : Settings} {inputs : List SourceFile}
    {extracted : List OutputFile} {needed : List (List OutputFile)} {s₁ s₂ : Session}
    {out : BuildOutput} (henclosed : IsEnclosed t settings)
    (hextracts : Extracts t settings.fullExtract (.start t settings) extracted s₁)
    (hdiscovers : Discovers t inputs s₁ needed s₂)
    (h : ((Session.start t settings).build t inputs).1 = .ok out) (x : Path × Path) :
    x ∈ out.placements ↔ ∃ f ∈ extracted ++ needed.flatten, (f.source, f.relative) = x := by
  obtain ⟨extracted', s₁', needed', s₂', hextracts', hdiscovers', hgathers⟩ :=
    Session.exists_gathers h
  obtain ⟨rfl, rfl⟩ := hextracts.unique hextracts'
  obtain ⟨rfl, rfl⟩ := hdiscovers.unique hdiscovers'
  obtain ⟨told, honce⟩ := henclosed.exists_once hextracts hdiscovers
  constructor
  · rintro ⟨f, hf, hdependency, rfl⟩
    have horigin : f.origin ≠ .input := by simpa [OutputFile.isDependency] using hdependency
    obtain ⟨g, hg, hsource, hrelative, -⟩ := hgathers.exists_mem_collected hf horigin
    exact ⟨g, hg, by rw [hsource, hrelative]⟩
  · rintro ⟨f, hf, rfl⟩
    obtain ⟨g, hg, hsource, hrelative, horigin⟩ := hgathers.exists_mem_files hf
    refine ⟨g, hg, ?_, by rw [hsource, hrelative]⟩
    rw [OutputFile.isDependency, horigin]
    exact honce.origin f (by simpa using hf)

/-- A build that succeeds succeeds in any other order, with the same files of packages at
the same places. -/
theorem Session.exists_build_perm {t : FileTree} {settings : Settings}
    {inputs inputs' : List SourceFile} {out : BuildOutput} (htidy : IsTidy t settings)
    (hroutes : RoutesAgree t (.start t settings) inputs)
    (hinputs : ∀ input ∈ inputs, ¬input.path.HasTree) (hperm : inputs.Perm inputs')
    (h : ((Session.start t settings).build t inputs).1 = .ok out) :
    ∃ out', ((Session.start t settings).build t inputs').1 = .ok out' ∧
      out.placements = out'.placements := by
  obtain ⟨extracted, s₁, needed, s₂, hextracts, hdiscovers, -⟩ := Session.exists_gathers h
  obtain ⟨needed', s₂', hdiscovers'⟩ :=
    hdiscovers.exists_perm htidy hroutes hinputs hextracts hperm
  obtain ⟨out', hout'⟩ := Session.exists_build hextracts hdiscovers'
  have hroutes' := hroutes.perm hperm
  have hinputs' : ∀ input ∈ inputs', ¬input.path.HasTree :=
    fun i hi => hinputs i (hperm.mem_iff.2 hi)
  have henclosed := htidy.isEnclosed
  refine ⟨out', hout', Set.ext fun x => ?_⟩
  rw [Session.mem_placements_iff henclosed hextracts hdiscovers h,
    Session.mem_placements_iff henclosed hextracts hdiscovers' hout']
  constructor
  · rintro ⟨f, hf, rfl⟩
    obtain ⟨g, hg, hsource, hrelative⟩ := hdiscovers.exists_collected_perm htidy hroutes hinputs
      hextracts hdiscovers' hperm f hf
    exact ⟨g, hg, by rw [hsource, hrelative]⟩
  · rintro ⟨f, hf, rfl⟩
    obtain ⟨g, hg, hsource, hrelative⟩ := hdiscovers'.exists_collected_perm htidy hroutes' hinputs'
      hextracts hdiscovers hperm.symm f hf
    exact ⟨g, hg, by rw [hsource, hrelative]⟩

/-- The order of the inputs decides neither whether a build succeeds nor which files of
packages it emits to which places, if every file is reached as the same part of the same
package by whatever route. -/
theorem Session.placements_of_perm {t : FileTree} {settings : Settings}
    {inputs inputs' : List SourceFile} (htidy : IsTidy t settings)
    (hroutes : RoutesAgree t (.start t settings) inputs)
    (hinputs : ∀ input ∈ inputs, ¬input.path.HasTree) (hperm : inputs.Perm inputs') :
    ((Session.start t settings).build t inputs).1.toOption.map BuildOutput.placements =
      ((Session.start t settings).build t inputs').1.toOption.map BuildOutput.placements := by
  have hroutes' := hroutes.perm hperm
  have hinputs' : ∀ input ∈ inputs', ¬input.path.HasTree :=
    fun i hi => hinputs i (hperm.mem_iff.2 hi)
  cases hbuild : ((Session.start t settings).build t inputs).1 with
  | ok out =>
    obtain ⟨out', hbuild', heq⟩ := exists_build_perm htidy hroutes hinputs hperm hbuild
    simp [hbuild', Except.toOption, heq]
  | error failure =>
    cases hbuild' : ((Session.start t settings).build t inputs').1 with
    | ok out' =>
      obtain ⟨out, hok, -⟩ := exists_build_perm htidy hroutes' hinputs' hperm.symm hbuild'
      simp [hbuild] at hok
    | error failure' => rfl

end Vendoring
