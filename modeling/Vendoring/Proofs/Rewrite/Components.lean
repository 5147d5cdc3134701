/-
# Bare names of components

The value of a component declaration leaves out the extension of the manifest that it leads
to. Where a declaration can be followed to a manifest of the build, this is how its new value
is written, however the old one was spelled, and it is also how the bare name of a package is
read when the bundles of a build are looked for: as the main entry without its extension.

A bare name that cannot be followed to a manifest is pointed at the main entry that the table
of packages has for it, and this way keeps the extension. So the two ways to write the value
of a bare name agree exactly for a main entry that has no extension.
-/

import Vendoring.Proofs.Path.Canonical
import Vendoring.Proofs.Path.Keys
import Vendoring.Proofs.Specifier.Text
import Vendoring.Rewrite.Basic

namespace Vendoring

/-! ## Removing an extension -/

namespace Path

variable {p dir : Path} {cs : List Component} {name : String}

/-- A step up does not lead to an entry of the directory. -/
theorem advance_up_ne (walked : List Component) (name : String) :
    advance walked .up ≠ .name name :: walked := by
  intro h
  have hlength := congrArg List.length h
  cases walked with
  | nil => cases h
  | cons c before =>
    cases c with
    | root | here | up => cases h
    | name _ =>
      simp only [advance, List.length_cons] at hlength
      omega

theorem collapse_append_up_ne (hcs : IsSettled cs) (name : String) :
    collapse (cs ++ [.up]) ≠ cs ++ [.name name] := by
  intro h
  have hfold : cs.reverse.reverse.foldl advance [] = cs.reverse := by
    apply IsSettled.foldl_advance
    rwa [List.reverse_reverse]
  rw [List.reverse_reverse] at hfold
  rw [collapse, List.foldl_append, hfold, List.foldl_cons, List.foldl_nil,
    List.reverse_eq_iff, List.reverse_append] at h
  exact advance_up_ne cs.reverse name h

/-- Removing the extension of a normal path leads to the same place only if there is none. -/
theorem extension?_eq_none_of_normalize_eq (hnormal : p.normalize.SameAs p)
    (h : p.withoutExtension.normalize = p.normalize) : p.extension? = none := by
  cases hfile : p.fileName? with
  | none => rw [extension?, hfile, Option.bind_none]
  | some name =>
    obtain ⟨cs, hp⟩ := exists_of_fileName? hfile
    have hall := isSettled_of_name hp hnormal
    have hsettled := hall.of_append
    have hsame : collapse p.withoutExtension.components = cs ++ [.name name] := by
      rw [← collapse_normalize, h, collapse_normalize, hp, hall]
    rw [extension?_of_name hp, ← splitName_fst_eq_iff]
    rcases components_withoutExtension_of_name hp with hname | ⟨-, hup⟩
    · rw [hname, hsettled.append_names (by simp)] at hsame
      simpa using hsame
    · rw [hup] at hsame
      exact absurd hsame (collapse_append_up_ne hsettled name)

theorem SameAs.relativePath_eq {q : Path} (h : p.SameAs q) (dir : Path) :
    dir.relativePath p = dir.relativePath q := by
  simp only [relativePath, h.normalize_eq]

/-- From a directory of the output, a file is named as it is named without its extension
exactly if it has none. -/
theorem relativeSpecifier_withoutExtension_eq_iff (hdir : dir.isAbsolute = false)
    (hup : .up ∉ dir.components) (hrelative : p.isAbsolute = false)
    (hnormal : p.normalize.SameAs p) :
    (dir.relativePath p.withoutExtension).relativeSpecifier =
      (dir.relativePath p).relativeSpecifier ↔ p.extension? = none := by
  constructor
  · intro h
    -- equal specifiers lead to one place
    apply extension?_eq_none_of_normalize_eq hnormal
    rw [← normalize_join_relativePath hdir hup (isAbsolute_withoutExtension_of_relative hrelative),
      h, normalize_join_relativePath hdir hup hrelative]
  · intro h
    rw [(sameAs_withoutExtension h).relativePath_eq]

end Path

/-! ## Components that are followed -/

namespace Resolver

variable {r : Resolver} {specifier name : String} {manifest dir main : Path} {p : Package}

/-- When bundles are looked for, the bare name of a package is its main entry without the
extension. -/
theorem componentPath?_of_bareName (hname : (Specifier.parse specifier).packageName? = some name)
    (hbare : (Specifier.parse specifier).subpath? = none)
    (hp : r.catalog.nearest? name dir = some p) (hmain : p.mainEntryPath? = some main) :
    r.componentPath? specifier manifest dir = some (p, main.withoutExtension) := by
  rcases Specifier.eq_of_subpath?_eq_none hname hbare with hparse | hparse
  · simp [componentPath?, hparse, hp, hmain]
  · simp [componentPath?, hparse, hp, hmain]

end Resolver

namespace Rewriter

variable {w : Rewriter} {specifier name : String} {source dir output main : Path}
  {e : PackageEntry}

/-- A component that is followed to a manifest of the build is written without the extension
of the manifest, if it is written anew. -/
theorem rewriteSpecifier?_of_manifest (hlocate : w.locate? specifier .manifest source = some output)
    {text : String} (h : w.rewriteSpecifier? specifier .manifest source dir = some text) :
    text = (dir.relativePath output.withoutExtension).relativeSpecifier := by
  simp only [rewriteSpecifier?, hlocate] at h
  split at h
  · cases h
  · simpa [specifierFor] using h.symm

/-! ## Components that are not followed -/

/-- A bare name that leads to no manifest of the build is pointed at the main entry of the
package as the table has it. -/
theorem rewriteSpecifier?_of_bareName {kind : FileKind}
    (hname : (Specifier.parse specifier).packageName? = some name)
    (hbare : (Specifier.parse specifier).subpath? = none)
    (hlocate : w.locate? specifier kind source = none) (he : w.table.get? name = some e)
    (hmain : e.mainEntry = some main) :
    w.rewriteSpecifier? specifier kind source dir =
      some (dir.relativePath main).relativeSpecifier := by
  rcases Specifier.eq_of_subpath?_eq_none hname hbare with hparse | hparse
  · simp [rewriteSpecifier?, hlocate, hparse, he, specifierInto, hmain]
  · simp [rewriteSpecifier?, hlocate, hparse, he, specifierInto, hmain]

/-- Its new value is the one that a followed component would get exactly if the main entry has
no extension. -/
theorem rewriteSpecifier?_bareName_eq_iff
    (hname : (Specifier.parse specifier).packageName? = some name)
    (hbare : (Specifier.parse specifier).subpath? = none)
    (hlocate : w.locate? specifier .manifest source = none) (he : w.table.get? name = some e)
    (hmain : e.mainEntry = some main) (hdir : dir.isAbsolute = false)
    (hup : .up ∉ dir.components) (hrelative : main.isAbsolute = false)
    (hnormal : main.normalize.SameAs main) :
    w.rewriteSpecifier? specifier .manifest source dir =
      some (dir.relativePath main.withoutExtension).relativeSpecifier ↔
        main.extension? = none := by
  rw [rewriteSpecifier?_of_bareName hname hbare hlocate he hmain, Option.some.injEq, eq_comm]
  exact Path.relativeSpecifier_withoutExtension_eq_iff hdir hup hrelative hnormal

/-- A package whose main entry is a script. -/
def kitTable : PackageTable :=
  ({} : PackageTable).insert
    { name := "kit"
      outputRoot := ⟨"miniprogram_npm/kit"⟩
      mainEntry := some ⟨"miniprogram_npm/kit/index.js"⟩ }

/-- The bare name of the package is no name of a component once it is rewritten. -/
theorem exists_bareName_ne :
    rewriteSpecifier? ⟨kitTable, none⟩ "kit" .manifest ⟨"/src/a.json"⟩ ⟨"pages"⟩ =
        some "../miniprogram_npm/kit/index.js" ∧
      ((⟨"pages"⟩ : Path).relativePath
        (⟨"miniprogram_npm/kit/index.js"⟩ : Path).withoutExtension).relativeSpecifier =
          "../miniprogram_npm/kit/index" := by
  decide +kernel

end Rewriter

end Vendoring
