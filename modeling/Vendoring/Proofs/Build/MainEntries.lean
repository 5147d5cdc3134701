/-
# Main entries

The bare name of a package leads to the main entry in its content root. A file that is
reached as a part of its package is recognised as the main entry by its path, and under
the platform's own directory name it is written under the canonical name, which is where
the bare name is looked for then. So it does not matter which specifier reaches a main
entry first.

Only the content root is asked. A bare name that finds nothing in the built variant of a
package falls back to the package itself, and the file that it finds there keeps its name
if it has been claimed under another specifier.
-/

import Vendoring.FileTree.Edit
import Vendoring.Proofs.Build.Offers
import Vendoring.Proofs.Placement.Destinations
import Vendoring.Proofs.Resolver.BareNames

namespace Vendoring

open Catalog

variable {t : FileTree} {settings : Settings} {inputs : List SourceFile} {out : BuildOutput}

/-! ## Where main entries are written -/

namespace Session

variable {f : OutputFile} {place : Placement}

/-- A file that leaves a build as the main file of its package is written under the canonical
name, whatever it was reached by. -/
theorem relative_of_isMainFile (hdirname : settings.npmDirname = defaultNpmDirname)
    (h : ((Session.start t settings).build t inputs).1 = .ok out) (hf : f ∈ out.files)
    (horigin : f.origin = .dependency place ∨ f.origin = .component place)
    (hmain : (Session.start t settings).planner.isMainFile f.source place.package = true) :
    f.relative.SameAs
      ((⟨defaultNpmDirname⟩ : Path).join (Planner.canonicalEntry f.source place.package)) := by
  have hplaced : f.origin.placement? = some place := by
    rcases horigin with horigin | horigin <;> rw [horigin] <;> rfl
  rcases Session.mem_files h hf with ⟨-, -, -, -, hinput⟩ |
    ⟨c, place', hc, hplace, hsource, hrelative, hfrom⟩
  · rw [hinput] at hplaced
    cases hplaced
  · obtain rfl : place' = place := by
      rw [hfrom, hc.placement?_origin] at hplaced
      exact Option.some.inj hplaced
    obtain ⟨hnormal, hpackage, -⟩ := Planner.fields_of_place? hplace
    rw [hsource, hnormal, hpackage, Planner.isMainFile, Path.normalize_normalize,
      ← Planner.isMainFile] at hmain
    have hisMain : c.isMain = true := by
      cases hc with
      | imported => exact Bool.or_eq_true_iff.2 (.inr hmain)
      | bundled => exact hmain
      | extracted =>
        rw [hfrom] at horigin
        rcases horigin with horigin | horigin <;> cases horigin
    rw [hisMain] at hplace
    rw [hrelative, hsource, hnormal, hpackage]
    exact Planner.relative_of_isMain (decide_eq_true hdirname) hc.isPackageName.isAbsolute hplace

/-- The bare name of a package leads to a file that is written under the canonical name, if
the package has a main entry of its own and the file is emitted as a part of the package. -/
theorem relative_of_bare {specifier : String} {file : Path} {ref : Reference} {p : Package}
    (habsolute : settings.packageTree.isAbsolute = true)
    (hdirname : settings.npmDirname = defaultNpmDirname)
    (hresolve : ((Session.start t settings).resolver t).resolve? specifier file = some ref)
    (hbare : ref.isMain = true)
    (hp : (Session.start t settings).catalog.nearest? specifier (file.parent?.getD ⟨"/"⟩) = some p)
    (hmain : p.mainEntry ≠ none)
    (howner : (Session.start t settings).catalog.owner? ref.target = some p)
    (hname : p.name = specifier)
    (h : ((Session.start t settings).build t inputs).1 = .ok out) (hf : f ∈ out.files)
    (horigin : f.origin = .dependency place ∨ f.origin = .component place)
    (hpackage : place.package = specifier) (hsource : f.source.SameAs ref.target) :
    f.relative.SameAs
      ((⟨defaultNpmDirname⟩ : Path).join (Planner.canonicalEntry f.source specifier)) := by
  obtain ⟨-, htarget, -, hisMain⟩ := Resolver.resolve?_eq_some hresolve
  rw [hisMain, decide_eq_true_eq] at hbare
  have hsurvey : IsSurvey ((Session.start t settings).resolver t).tree
      ((Session.start t settings).resolver t).loader settings.packageTree
      ((Session.start t settings).resolver t).catalog :=
    isSurvey_survey t loader settings.packageTree
  have hplanned : (Session.start t settings).planner.packageFor? ref.target specifier = some p :=
    Planner.packageFor?_of_owner? howner hname
  have hrecognised := Resolver.isMainFile_of_bare hsurvey habsolute hbare hp htarget
    Loader.isPlain_default hmain hplanned
  rw [← Planner.isMainFile_congr hsource, ← hpackage] at hrecognised
  rw [← hpackage]
  exact relative_of_isMainFile hdirname h hf horigin hrecognised

/-! ## A package whose built variant has no main entry -/

/-- A package with a built variant whose main entry lies outside of the variant. -/
def fallbackTree : FileTree :=
  FileTree.ofEntries [(["node_modules"], .directory), (["node_modules", "p"], .directory),
    (["node_modules", "p", "package.json"], .file "\x7b\"main\":\"m.js\"\x7d".toUTF8),
    (["node_modules", "p", "m.js"], .file "".toUTF8),
    (["node_modules", "p", "miniprogram_dist"], .directory),
    (["node_modules", "p", "miniprogram_dist", "x.js"], .file "".toUTF8)]

/-- The bare name leads to a file of the package that is not recognised as its main file. -/
theorem exists_bare_unrecognised :
    (((Session.start fallbackTree (.forProject ⟨"/"⟩)).resolver fallbackTree).resolve? "p"
        ⟨"/a.js"⟩).any (fun ref => ref.target = ⟨"/node_modules/p/m.js"⟩ && ref.isMain &&
      !(Session.start fallbackTree (.forProject ⟨"/"⟩)).planner.isMainFile ref.target
        ref.package) = true := by
  have hresolve : ((Session.start fallbackTree (.forProject ⟨"/"⟩)).resolver fallbackTree).resolve?
      "p" ⟨"/a.js"⟩ = some
        { specifier := "p"
          target := ⟨"/node_modules/p/m.js"⟩
          package := "p"
          isMain := true } := by
    decide +kernel
  have hmain : (Session.start fallbackTree (.forProject ⟨"/"⟩)).planner.isMainFile
      ⟨"/node_modules/p/m.js"⟩ "p" = false := by
    decide +kernel
  rw [hresolve, Option.any_some, hmain]
  decide

end Session

end Vendoring
