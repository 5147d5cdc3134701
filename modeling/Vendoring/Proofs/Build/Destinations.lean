/-
# What a build writes to one destination

Two files of a build meet at one destination only where the rules for placing
files merge what they are told apart by: the package tree, the name of a main
entry, or the directory of a built variant. An input is kept apart from the files
of packages by the name of their output directory, unless that name is `.`, which
leaves no mark in a path.
-/

import Vendoring.FileTree.Edit
import Vendoring.Proofs.Build.Offers
import Vendoring.Proofs.Placement.Destinations
import Vendoring.Proofs.Settings

namespace Vendoring

open Catalog

namespace Candidate.IsOffered

variable {t : FileTree} {settings : Settings} {c : Candidate} {place : Placement}

/-- A file of a package is written to the output directory for packages. -/
theorem startsWith_dirname (hvalid : settings.IsValid) (hdot : settings.npmDirname ≠ ".")
    (h : c.IsOffered t (.start t settings))
    (hplace : (Session.start t settings).planner.place? c.file c.package c.isMain = some place) :
    place.relative.StartsWith ⟨settings.npmDirname⟩ := by
  obtain ⟨steps, hsteps, -⟩ :=
    Planner.components_relative hvalid.no_slash h.isPackageName.isAbsolute hplace
  have hsegments := Path.segments_of_name hvalid.no_slash
  rw [Path.StartsWith, hsteps, (Path.components_of_head hsegments (hvalid.not_padding hdot)).2, hsegments]
  exact List.prefix_append _ _

end Candidate.IsOffered

/-- Two files that a build writes to one destination are the same file, or files of
packages that the rules for placing files merge. Only under the name `.` can an input
meet a file of a package. -/
theorem Session.build_destinations {t : FileTree} {settings : Settings} {inputs : List SourceFile}
    {out : BuildOutput} (hvalid : settings.IsValid)
    (hdistinct : inputs.Pairwise fun input other => ¬input.relative.SameAs other.relative)
    (houtside : ∀ input ∈ inputs, ¬input.relative.StartsWith ⟨settings.npmDirname⟩)
    (h : ((Session.start t settings).build t inputs).1 = .ok out) :
    ∀ f ∈ out.files, ∀ g ∈ out.files, f.relative.SameAs g.relative →
      f.source.SameAs g.source ∨
      (∃ p q, f.origin.placement? = some p ∧ g.origin.placement? = some q ∧
        (Session.start t settings).planner.Merges p q) ∨
      settings.npmDirname = "." ∧ f.isDependency ≠ g.isDependency := by
  -- an input is not written to the output directory for packages
  have hmixed {input : SourceFile} {c : Candidate} {place : Placement} {f g : OutputFile}
      (hinput : input ∈ inputs) (hf : f.origin = .input) (hc : c.IsOffered t (.start t settings))
      (hplace : (Session.start t settings).planner.place? c.file c.package c.isMain = some place)
      (hg : g.origin = c.origin place) (hrelative : input.relative.SameAs place.relative) :
      settings.npmDirname = "." ∧ f.isDependency ≠ g.isDependency := by
    constructor
    · by_contra hdot
      have hstart := hc.startsWith_dirname hvalid hdot hplace
      rw [Path.StartsWith, ← hrelative] at hstart
      exact houtside input hinput hstart
    · have hplaced := hc.placement?_origin place
      have hne : g.origin ≠ .input := by
        intro horigin
        rw [← hg, horigin] at hplaced
        simp [Origin.placement?] at hplaced
      simp [OutputFile.isDependency, hf, hne]
  intro f hf g hg hrelative
  rcases Session.mem_files h hf with
    ⟨i, hi, hfSource, hfRelative, hfOrigin⟩ | ⟨c, p, hc, hp, hfSource, hfRelative, hfOrigin⟩ <;>
  rcases Session.mem_files h hg with
    ⟨j, hj, hgSource, hgRelative, hgOrigin⟩ | ⟨e, q, he, hq, hgSource, hgRelative, hgOrigin⟩ <;>
  rw [hfRelative, hgRelative] at hrelative
  · left
    have hsymm : Std.Symm fun input other : SourceFile => ¬input.relative.SameAs other.relative :=
      ⟨fun _ _ hne hsame => hne hsame.symm⟩
    by_cases hij : i = j
    · rw [hfSource, hgSource, hij]
      exact Path.SameAs.refl _
    · exact absurd hrelative (hdistinct.forall hi hj hij)
  · exact .inr (.inr (hmixed hi hfOrigin he hq hgOrigin hrelative))
  · obtain ⟨hdot, hne⟩ := hmixed hj hgOrigin hc hp hfOrigin hrelative.symm
    exact .inr (.inr ⟨hdot, hne.symm⟩)
  · have hdirs (package : Package) (dir : Path)
        (hpackage : (Session.start t settings).planner.packageFor? c.file.normalize c.package =
          some package) (hdir : package.alternateOutput = some dir) : dir.text ≠ "" := by
      have hentered := Planner.isEntered_of_packageFor? (isSurvey_survey t _ _) hpackage
      obtain ⟨loc, hloc, -⟩ := FileTree.exists_locate_of_isDirectory (hentered.alternateOutput hdir).1
      exact FileTree.text_ne_of_locate hloc
    rw [hfSource, hgSource]
    rcases Planner.sameAs_or_merges hvalid.no_slash hdirs hc.isPackageName.isAbsolute
      he.isPackageName.isAbsolute hp hq hrelative with hsame | hmerges
    · exact .inl hsame
    · refine .inr (.inl ⟨p, q, ?_, ?_, hmerges⟩)
      · rw [hfOrigin, hc.placement?_origin]
      · rw [hgOrigin, he.placement?_origin]

/-! ## Files that meet -/

/-- With valid settings, and inputs that are kept apart from each other and from the
output directory for packages, a build writes two files to one destination. -/
def Session.Overwrites (t : FileTree) (settings : Settings) (inputs : List SourceFile) : Prop :=
  settings.IsValid ∧
  (inputs.Pairwise fun input other => ¬input.relative.SameAs other.relative) ∧
  (∀ input ∈ inputs, ¬input.relative.StartsWith ⟨settings.npmDirname⟩) ∧
  ∃ out, ((Session.start t settings).build t inputs).1 = .ok out ∧
    ∃ f ∈ out.files, ∃ g ∈ out.files, f.relative.SameAs g.relative ∧ ¬f.source.SameAs g.source

/-- The texts of the sources and destinations of the files that leave a build. -/
def Session.texts? (t : FileTree) (settings : Settings) (inputs : List SourceFile) :
    Option (List (String × String)) :=
  ((Session.start t settings).build t inputs).1.toOption.map fun out =>
    out.files.map fun f => (f.source.text, f.relative.text)

theorem Session.overwrites_of_texts? {t : FileTree} {settings : Settings}
    {inputs : List SourceFile} {texts : List (String × String)} (a b relative : String)
    (h : texts? t settings inputs = some texts) (hvalid : settings.IsValid)
    (hdistinct : inputs.Pairwise fun input other => ¬input.relative.SameAs other.relative)
    (houtside : ∀ input ∈ inputs, ¬input.relative.StartsWith ⟨settings.npmDirname⟩)
    (ha : (a, relative) ∈ texts) (hb : (b, relative) ∈ texts) (hne : ¬(⟨a⟩ : Path).SameAs ⟨b⟩) :
    Session.Overwrites t settings inputs := by
  refine ⟨hvalid, hdistinct, houtside, ?_⟩
  obtain ⟨out, hout, rfl⟩ := exists_of_toOption_map h
  obtain ⟨f, hf, hfTexts⟩ := List.mem_map.1 ha
  obtain ⟨g, hg, hgTexts⟩ := List.mem_map.1 hb
  obtain ⟨rfl, rfl⟩ := Prod.mk.inj hfTexts
  obtain ⟨rfl, hrelative⟩ := Prod.mk.inj hgTexts
  exact ⟨out, hout, f, hf, g, hg, congrArg (fun text => (⟨text⟩ : Path).components) hrelative.symm,
    hne⟩

/-- A package whose main entry is not its index. -/
def mainTree : FileTree :=
  FileTree.ofEntries [(["node_modules"], .directory), (["node_modules", "p"], .directory),
    (["node_modules", "p", "package.json"], .file "\x7b\"main\":\"m\"\x7d".toUTF8),
    (["node_modules", "p", "m.js"], .file "require('./index.js')".toUTF8),
    (["node_modules", "p", "index.js"], .file "".toUTF8)]

/-- An input that imports the package. -/
def mainInput : SourceFile := ⟨⟨"/a.js"⟩, ⟨"/"⟩, some "require('p')".toUTF8⟩

theorem Session.overwrites_main :
    Session.Overwrites mainTree (.forProject ⟨"/"⟩) [mainInput] := by
  have htexts : texts? mainTree (.forProject ⟨"/"⟩) [mainInput] = some
      [("/a.js", "a.js"), ("/node_modules/p/index.js", "miniprogram_npm/p/index.js"),
        ("/node_modules/p/m.js", "miniprogram_npm/p/index.js")] := by
    decide +kernel
  refine overwrites_of_texts? "/node_modules/p/index.js" "/node_modules/p/m.js"
    "miniprogram_npm/p/index.js" htexts (Settings.isValid_forProject _) (by simp) ?_ (by simp)
    (by simp) (by decide)
  intro input hinput
  rw [List.mem_singleton.1 hinput]
  decide

/-- The main entry takes the place of the index of its package. -/
theorem Session.build_destinations_main :
    ∃ out, ((Session.start mainTree (.forProject ⟨"/"⟩)).build mainTree [mainInput]).1 = .ok out ∧
      ∃ f ∈ out.files, ∃ g ∈ out.files, f.relative.SameAs g.relative ∧ ¬f.source.SameAs g.source ∧
        ∃ p q, f.origin.placement? = some p ∧ g.origin.placement? = some q ∧
          (Session.start mainTree (.forProject ⟨"/"⟩)).planner.Merges p q := by
  obtain ⟨hvalid, hdistinct, houtside, out, hout, f, hf, g, hg, hrelative, hsource⟩ :=
    Session.overwrites_main
  refine ⟨out, hout, f, hf, g, hg, hrelative, hsource, ?_⟩
  rcases Session.build_destinations hvalid hdistinct houtside hout f hf g hg hrelative with
    hsame | hmerges | ⟨hdot, -⟩
  · exact absurd hsame hsource
  · exact hmerges
  · exact absurd hdot (by decide)

/-- A package that brings another one of its name. -/
def nestedTree : FileTree :=
  FileTree.ofEntries [(["node_modules"], .directory), (["node_modules", "p"], .directory),
    (["node_modules", "p", "x"], .file "".toUTF8),
    (["node_modules", "p", "node_modules"], .directory),
    (["node_modules", "p", "node_modules", "p"], .directory),
    (["node_modules", "p", "node_modules", "p", "x"], .file "".toUTF8)]

/-- A package with a built variant of one of its files. -/
def variantTree : FileTree :=
  FileTree.ofEntries [(["node_modules"], .directory), (["node_modules", "p"], .directory),
    (["node_modules", "p", "package.json"], .file "{}".toUTF8),
    (["node_modules", "p", "x"], .file "".toUTF8),
    (["node_modules", "p", "miniprogram_dist"], .directory),
    (["node_modules", "p", "miniprogram_dist", "x"], .file "".toUTF8)]

/-- A package with one file. -/
def singleTree : FileTree :=
  FileTree.ofEntries [(["node_modules"], .directory), (["node_modules", "p"], .directory),
    (["node_modules", "p", "x"], .file "".toUTF8)]

/-- An input that has the path of the file in its package. -/
def singleInput : SourceFile := ⟨⟨"/p/x"⟩, ⟨"/"⟩, none⟩

/-- The settings of a project that takes the given entries over completely. -/
def Settings.extracting (entries : List String) : Settings :=
  (forProject ⟨"/"⟩).withFullExtract entries

theorem Settings.isValid_extracting (entries : List String) : (extracting entries).IsValid :=
  (isValid_forProject _).withFullExtract _

/-- The sources and destinations of the files that three extractions take over. -/
theorem Session.texts?_extracting :
    texts? nestedTree (.extracting ["p"]) [] = some
        [("/node_modules/p/node_modules/p/x", "miniprogram_npm/p/x"),
          ("/node_modules/p/x", "miniprogram_npm/p/x")] ∧
      texts? variantTree (.extracting ["p/.."]) [] = some
        [("/node_modules/p/miniprogram_dist/x", "miniprogram_npm/p/x"),
          ("/node_modules/p/package.json", "miniprogram_npm/p/package.json"),
          ("/node_modules/p/x", "miniprogram_npm/p/x")] ∧
      texts? singleTree { Settings.extracting ["p"] with npmDirname := "." } [singleInput] = some
        [("/p/x", "p/x"), ("/node_modules/p/x", "p/x")] := by
  refine ⟨?nested, ?variant, ?dot⟩ <;> decide +kernel

theorem Session.overwrites_nested : Session.Overwrites nestedTree (.extracting ["p"]) [] :=
  overwrites_of_texts? "/node_modules/p/node_modules/p/x" "/node_modules/p/x"
    "miniprogram_npm/p/x" texts?_extracting.1 (Settings.isValid_extracting _) (by simp) (by simp)
    (by simp) (by simp) (by decide)

theorem Session.overwrites_variant : Session.Overwrites variantTree (.extracting ["p/.."]) [] :=
  overwrites_of_texts? "/node_modules/p/miniprogram_dist/x" "/node_modules/p/x"
    "miniprogram_npm/p/x" texts?_extracting.2.1 (Settings.isValid_extracting _) (by simp)
    (by simp) (by simp) (by simp) (by decide)

theorem Session.overwrites_dot :
    Session.Overwrites singleTree { Settings.extracting ["p"] with npmDirname := "." }
      [singleInput] := by
  have hnamed : (Settings.extracting ["p"]).withNpmDirname "." =
      .ok { Settings.extracting ["p"] with npmDirname := "." } := by
    decide
  refine overwrites_of_texts? "/p/x" "/node_modules/p/x" "p/x" texts?_extracting.2.2
    (Settings.isValid_withNpmDirname hnamed) (by simp) ?_ (by simp) (by simp)
    (by decide)
  intro input hinput
  rw [List.mem_singleton.1 hinput]
  decide

/-- Two sources can meet at one destination in each of the four ways. -/
theorem Session.exists_overwrites :
    Session.Overwrites mainTree (.forProject ⟨"/"⟩) [mainInput] ∧
    Session.Overwrites nestedTree (.extracting ["p"]) [] ∧
    Session.Overwrites variantTree (.extracting ["p/.."]) [] ∧
    Session.Overwrites singleTree { Settings.extracting ["p"] with npmDirname := "." }
      [singleInput] :=
  ⟨overwrites_main, overwrites_nested, overwrites_variant, overwrites_dot⟩

end Vendoring
