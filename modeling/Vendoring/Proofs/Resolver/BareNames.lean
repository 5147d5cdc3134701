/-
# Bare names

The bare name of a package is looked up twice. A survey follows it from the content root to
the main entry, and the resolver follows it again from every file that imports it. Both
searches see the same text at an absolute path, so they find the same file, and the owner of
that file recognises it as the main entry. What the two do not share is where they stop: the
survey keeps a main entry only below the content root, and the resolver asks for the package
of the file that was found, not for the package that was asked for.
-/

import Vendoring.Build.Session
import Vendoring.FileTree.Edit
import Vendoring.Proofs.Catalog.Nearest
import Vendoring.Proofs.Path.Below
import Vendoring.Proofs.Placement.Places
import Vendoring.Proofs.Resolver.Rooted

namespace Vendoring

open Catalog Text

/-! ## What a bare name leads to -/

/-- An absolute path is looked up as it is, wherever it is looked up from. -/
theorem Loader.resolve?_of_isAbsolute {l : Loader} {t : FileTree} {p : Path}
    (hp : p.isAbsolute = true) (base base' : Path) :
    l.resolve? t base p.text = l.resolve? t base' p.text := by
  obtain ⟨path, hparse⟩ := Specifier.exists_parse_eq_absolute hp
  simp only [resolve?, hparse]

/-- The owner of a file is asked about it, if it has the name that is asked for. -/
theorem Planner.packageFor?_of_owner? {planner : Planner} {file : Path} {name : String}
    {p : Package} (howner : planner.catalog.owner? file = some p) (hname : p.name = name) :
    planner.packageFor? file name = some p := by
  simp [packageFor?, howner, hname]

namespace Resolver

variable {t : FileTree} {l : Loader} {r : Resolver} {root dir file target : Path}
  {specifier : String} {p : Package}

/-- The bare name of a package leads into its content root: a built variant is not passed
over, and the file that is found lies in the root. -/
def EntersContent (r : Resolver) (p : Package) (dir target : Path) : Prop :=
  (p.alternateOutput = none ∨ r.loader.resolve? r.tree dir p.contentRoot.text ≠ none) ∧
    target.StartsWith p.contentRoot

instance (p : Package) (dir target : Path) : Decidable (r.EntersContent p dir target) :=
  inferInstanceAs (Decidable (_ ∧ _))

/-- A bare name is looked for in its package. -/
theorem intoPackage?_of_bare (hbare : (Specifier.parse specifier).packageName? = some specifier)
    (hp : r.catalog.nearest? specifier (file.parent?.getD ⟨"/"⟩) = some p)
    (htarget : r.target? specifier file = some target) :
    r.intoPackage? p none (file.parent?.getD ⟨"/"⟩) = some target := by
  rw [target?] at htarget
  rcases Specifier.eq_of_subpath?_eq_none hbare (Specifier.subpath?_eq_none hbare) with
    hparse | hparse
  · simpa [hparse, hp] using htarget
  · simpa [hparse, hp] using htarget

/-- Where the built variant is not passed over, the content root itself leads to the file. -/
theorem resolve?_contentRoot (hinto : r.intoPackage? p none dir = some target)
    (h : p.alternateOutput = none ∨ r.loader.resolve? r.tree dir p.contentRoot.text ≠ none) :
    r.loader.resolve? r.tree dir p.contentRoot.text = some target := by
  simp only [intoPackage?, inside] at hinto
  rcases Option.or_eq_some_iff.1 hinto with hfound | ⟨hnone, hfallback⟩
  · exact hfound
  · rcases h with halternate | hfound
    · simp [halternate] at hfallback
    · exact absurd hnone hfound

section

variable (hsurvey : IsSurvey r.tree r.loader root r.catalog) (habsolute : root.isAbsolute = true)
  (hbare : (Specifier.parse specifier).packageName? = some specifier)
  (hp : r.catalog.nearest? specifier (file.parent?.getD ⟨"/"⟩) = some p)
  (htarget : r.target? specifier file = some target)

include hsurvey habsolute hbare hp htarget

/-- The survey enters a main entry for a package whose bare name leads into its content
root. -/
theorem mainEntry_ne_none_of_bare
    (henters : r.EntersContent p (file.parent?.getD ⟨"/"⟩) target) : p.mainEntry ≠ none := by
  have hentered := hsurvey.nearest? hp
  have hroot := (hentered.isAbsolute habsolute).2
  have hfound := resolve?_contentRoot (intoPackage?_of_bare hbare hp htarget) henters.1
  -- what the file finds was found before, when the package was read
  rw [Loader.resolve?_of_isAbsolute hroot _ p.contentRoot] at hfound
  obtain ⟨rest, hrest, -⟩ := Path.exists_below? henters.2 (Path.components_ne_nil hroot)
  rw [hentered.mainEntry, hfound, Option.bind_some, hrest]
  exact Option.some_ne_none rest

/-- The bare name of a package with a main entry leads to the main entry. -/
theorem mainEntryPath?_of_bare (hmain : p.mainEntry ≠ none) :
    ∃ main, p.mainEntryPath? = some main ∧ main.SameAs target := by
  have hinto := intoPackage?_of_bare hbare hp htarget
  have hentered := hsurvey.nearest? hp
  have hroot := (hentered.isAbsolute habsolute).2
  obtain ⟨rest, hrest⟩ := Option.ne_none_iff_exists'.1 hmain
  obtain ⟨main, hfound, hbelow⟩ := Option.bind_eq_some_iff.1 (hentered.mainEntry.symm.trans hrest)
  -- what was found when the package was read is found again from the file
  rw [Loader.resolve?_of_isAbsolute hroot _ (file.parent?.getD ⟨"/"⟩)] at hfound
  obtain rfl : main = target := by
    simp only [intoPackage?, inside, hfound, Option.some_or, Option.some.injEq] at hinto
    exact hinto
  have hne := Path.components_ne_nil hroot
  obtain ⟨⟨steps, hsteps⟩, -⟩ := Path.below?_eq_some hbelow hne
  have hpath : p.mainEntryPath? = some (p.contentRoot.join rest) := by
    rw [Package.mainEntryPath?, hrest, Option.map_some]
  have hsame : (p.contentRoot.join rest).SameAs main := by
    rw [Path.SameAs, Path.components_join_below hbelow hne, ← hsteps, List.drop_left]
  exact ⟨_, hpath, hsame⟩

/-- So the file that a bare name leads to is recognised, if it is taken for a file of the
package. -/
theorem isMainFile_of_bare {planner : Planner} (hloader : r.loader.IsPlain)
    (hmain : p.mainEntry ≠ none) (hpackage : planner.packageFor? target specifier = some p) :
    planner.isMainFile target specifier = true := by
  obtain ⟨main, hentry, hsame⟩ :=
    mainEntryPath?_of_bare hsurvey habsolute hbare hp htarget hmain
  have hrooted := isRooted_of_target? hloader (hsurvey.isAnchored habsolute) htarget
  obtain ⟨base, text, hresolve⟩ := exists_resolve?_of_target? htarget
  have hnormal := hrooted.normalize_eq (Loader.resolve?_eq_some hloader hresolve).1
  simp only [Planner.isMainFile, hnormal, hpackage, Option.bind_some, hentry, decide_eq_true_eq]
  rw [hsame.normalize_eq, hnormal]
  exact Path.SameAs.refl _

end

/-- A file of the package that was asked for is found in that package. -/
theorem package_of_resolve? {ref : Reference} (h : r.resolve? specifier file = some ref)
    (howner : r.catalog.owner? ref.target = some p) : ref.package = p.name := by
  obtain ⟨-, -, hpackage, -⟩ := resolve?_eq_some h
  rw [packageOf?, howner] at hpackage
  exact (Option.some.inj hpackage).symm

end Resolver

namespace Session

variable {t : FileTree} {settings : Settings} {name : String} {file : Path} {p : Package}
  {ref : Reference}

/-- A bare name leads to the main entry of the package that is seen under it, and the file
belongs to the package if it is installed in it. -/
theorem resolve?_bareName (hroot : scopeAt? settings.packageTree.components = none)
    (hnamed : (Specifier.parse name).packageName? = some name)
    (hp : (start t settings).catalog.nearest? name (file.parent?.getD ⟨"/"⟩) = some p)
    (h : ((start t settings).resolver t).resolve? name file = some ref) :
    ref.isMain = true ∧
      ((start t settings).catalog.owner? ref.target = some p →
        ref.package = name ∧ (start t settings).planner.packageFor? ref.target name = some p) ∧
      (settings.packageTree.isAbsolute = true →
        ((start t settings).resolver t).EntersContent p (file.parent?.getD ⟨"/"⟩) ref.target →
        (∃ main, p.mainEntryPath? = some main ∧ main.SameAs ref.target) ∧
          ((start t settings).planner.packageFor? ref.target name = some p →
            (start t settings).planner.isMainFile ref.target name = true)) := by
  have hsurvey : IsSurvey ((start t settings).resolver t).tree ((start t settings).resolver t).loader
      settings.packageTree ((start t settings).resolver t).catalog :=
    isSurvey_survey t loader settings.packageTree
  have hname : p.name = name := hsurvey.name_of_nearest? hroot hnamed hp
  obtain ⟨-, htarget, -, hisMain⟩ := Resolver.resolve?_eq_some h
  refine ⟨hisMain.trans (decide_eq_true hnamed), fun howner => ?_, fun habsolute henters => ?_⟩
  · exact ⟨(Resolver.package_of_resolve? h howner).trans hname,
      Planner.packageFor?_of_owner? howner hname⟩
  · have hmain := Resolver.mainEntry_ne_none_of_bare hsurvey habsolute hnamed hp htarget henters
    exact ⟨Resolver.mainEntryPath?_of_bare hsurvey habsolute hnamed hp htarget hmain,
      Resolver.isMainFile_of_bare hsurvey habsolute hnamed hp htarget Loader.isPlain_default hmain⟩

/-- Settings under which packages are installed in the directory. -/
def installedIn (tree : Path) : Settings where
  projectRoot := ⟨"/"⟩
  packageTree := tree

/-- A package whose built variant holds its main entry. -/
def builtTree : FileTree :=
  FileTree.ofEntries [(["d"], .directory), (["d", "p"], .directory),
    (["d", "p", "package.json"], .file "\x7b\"miniprogram\":\"b\"\x7d".toUTF8),
    (["d", "p", "b"], .directory), (["d", "p", "b", "index.js"], .file "".toUTF8)]

theorem resolve?_bareName_built : ∃ p ref,
    (start builtTree (installedIn ⟨"/d"⟩)).catalog.nearest? "p" ⟨"/"⟩ = some p ∧
      ((start builtTree (installedIn ⟨"/d"⟩)).resolver builtTree).resolve? "p" ⟨"/a.js"⟩ =
        some ref ∧
      ref.isMain = true ∧ ref.package = "p" ∧
      (∃ main, p.mainEntryPath? = some main ∧ main.SameAs ref.target) ∧
      (start builtTree (installedIn ⟨"/d"⟩)).planner.isMainFile ref.target "p" = true := by
  have hrun : ∃ p ∈ (start builtTree (installedIn ⟨"/d"⟩)).catalog.nearest? "p"
      ((Path.mk "/a.js").parent?.getD ⟨"/"⟩),
      ∃ ref ∈ ((start builtTree (installedIn ⟨"/d"⟩)).resolver builtTree).resolve? "p" ⟨"/a.js"⟩,
        (start builtTree (installedIn ⟨"/d"⟩)).catalog.owner? ref.target = some p ∧
        ((start builtTree (installedIn ⟨"/d"⟩)).resolver builtTree).EntersContent p
          ((Path.mk "/a.js").parent?.getD ⟨"/"⟩) ref.target := by
    decide +kernel
  obtain ⟨p, hp, ref, href, howner, henters⟩ := hrun
  obtain ⟨hmain, hpackage, hentry⟩ := resolve?_bareName (by decide) (by decide) hp href
  obtain ⟨hname, hplanned⟩ := hpackage howner
  obtain ⟨hsame, hrecognised⟩ := hentry (by decide) henters
  exact ⟨p, ref, hp, href, hmain, hname, hsame, hrecognised hplanned⟩

/-! ## Where the three part -/

/-- The bare name, the catalog and the planner name one file of one package. -/
def BareNameAgrees (t : FileTree) (settings : Settings) (name : String) (file : Path) : Prop :=
  ∀ p ∈ (start t settings).catalog.nearest? name (file.parent?.getD ⟨"/"⟩),
    ∀ ref ∈ ((start t settings).resolver t).resolve? name file,
      ref.package = name ∧ ref.isMain = true ∧
        (∃ main ∈ p.mainEntryPath?, main.SameAs ref.target) ∧
        (start t settings).planner.isMainFile ref.target name = true

instance : Decidable (BareNameAgrees t settings name file) :=
  inferInstanceAs (Decidable (∀ p ∈ _, ∀ ref ∈ _, _ ∧ _ ∧ _ ∧ _))

/-- A package `p` whose main entry lies in the package `q` beside it. -/
def neighbourTree : FileTree :=
  FileTree.ofEntries [(["d"], .directory), (["d", "p"], .directory),
    (["d", "p", "package.json"], .file "\x7b\"main\":\"../q/a.js\"\x7d".toUTF8),
    (["d", "q"], .directory), (["d", "q", "a.js"], .file "".toUTF8)]

/-- A package `p` whose main entry lies in a package `q` that is installed in it. -/
def innerTree : FileTree :=
  FileTree.ofEntries [(["d"], .directory), (["d", "p"], .directory),
    (["d", "p", "package.json"], .file "\x7b\"main\":\"node_modules/q/a.js\"\x7d".toUTF8),
    (["d", "p", "node_modules"], .directory), (["d", "p", "node_modules", "q"], .directory),
    (["d", "p", "node_modules", "q", "a.js"], .file "".toUTF8)]

/-- A package `p`, and a directory called like it behind a blank. -/
def blankTree : FileTree :=
  FileTree.ofEntries [(["d"], .directory), (["d", "p"], .directory),
    (["d", "p", "index.js"], .file "".toUTF8), (["d", " p"], .directory)]

/-- A package `p` in a directory that is called like a scope. -/
def scopeTree : FileTree :=
  FileTree.ofEntries [(["node_modules"], .directory), (["node_modules", "@s"], .directory),
    (["node_modules", "@s", "p"], .directory),
    (["node_modules", "@s", "p", "index.js"], .file "".toUTF8)]

/-- A package `p` with a file where a loader that starts in its directory `x` looks for
`d/p`. -/
def relativeTree : FileTree :=
  FileTree.ofEntries [(["d"], .directory), (["d", "p"], .directory), (["d", "p", "x"], .directory),
    (["d", "p", "x", "node_modules"], .directory),
    (["d", "p", "x", "node_modules", "d"], .directory),
    (["d", "p", "x", "node_modules", "d", "p.js"], .file "".toUTF8)]

/-- They part where the main entry lies beside its package, where another package owns it,
where a text is read as another name, in a package tree that is called like a scope, and in
one at a relative path. -/
theorem exists_not_bareNameAgrees :
    ¬BareNameAgrees neighbourTree (installedIn ⟨"/d"⟩) "p" ⟨"/a.js"⟩ ∧
      ¬BareNameAgrees innerTree (installedIn ⟨"/d"⟩) "p" ⟨"/a.js"⟩ ∧
      ¬BareNameAgrees blankTree (installedIn ⟨"/d"⟩) " p" ⟨"/a.js"⟩ ∧
      ¬BareNameAgrees scopeTree (installedIn ⟨"/node_modules/@s"⟩) "@s/p" ⟨"/a.js"⟩ ∧
      ¬BareNameAgrees relativeTree (installedIn ⟨"d"⟩) "p" ⟨"d/p/x/a.js"⟩ := by
  refine ⟨?beside, ?inside, ?blank, ?scope, ?relative⟩ <;> decide +kernel

end Session

end Vendoring
