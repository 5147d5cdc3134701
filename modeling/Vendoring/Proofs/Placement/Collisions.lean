/-
# When destinations collide

Two plans that come to one output path for different files lose one of them. The rules of
placing leave three ways to this: the files lie in different package trees, so the destinations
are apart only by their bases; one of them is renamed as a main entry; or one lies in the built
variant of a package, so that it takes the place of a file beside the variant. The package is
the one that the planner asks about the file, which need not be the package that owns it.

Nothing is asked of the catalog but that the directories in it are normal paths from the root.
-/

import Vendoring.Proofs.Catalog.Names
import Vendoring.Proofs.Path.Canonical
import Vendoring.Proofs.Placement.Destinations

namespace Vendoring

/-- The directories of the package are normal paths from the root. -/
structure Package.IsNormal (p : Package) : Prop where
  root : p.root.IsNormal ∧ p.root.isAbsolute = true
  alternateOutput : ∀ dir ∈ p.alternateOutput, dir.IsNormal ∧ dir.isAbsolute = true

namespace Planner

variable {r : Planner} {file path path' : Path} {name name' : String} {isMain isMain' : Bool}
variable {place place' : Placement} {p : Package}

/-- The source lies in the built variant of the package that the planner asks about it. -/
def LiesInVariant (r : Planner) (place : Placement) : Prop :=
  ∃ p dir, r.packageFor? place.source place.package = some p ∧ p.alternateOutput = some dir ∧
    place.source.StartsWith dir

theorem liesInVariant_of_leftOut? (h : r.leftOut? place.source place.package = some p) :
    r.LiesInVariant place := by
  obtain ⟨dir, rest, hp, hdir, hrest, -⟩ := plainLayout_of_leftOut? h
  refine ⟨p, dir, hp, hdir, ?_⟩
  by_contra hstart
  rw [Path.below?_eq_none hstart] at hrest
  cases hrest

/-- A variant that is left out of one path only has a source in it. -/
theorem liesInVariant_of_leftOut?_ne
    (h : r.leftOut? place.source place.package ≠ r.leftOut? place'.source place'.package) :
    r.LiesInVariant place ∨ r.LiesInVariant place' := by
  cases hp : r.leftOut? place.source place.package with
  | some p => exact .inl (liesInVariant_of_leftOut? hp)
  | none =>
    cases hp' : r.leftOut? place'.source place'.package with
    | some p' => exact .inr (liesInVariant_of_leftOut? hp')
    | none => exact absurd (hp.trans hp'.symm) h

/-- A destination is seen from the output directory below the directory for packages. -/
theorem relative_startsWith (hdirname : (Component.name r.npmDirname).IsStep)
    (hname : (⟨name⟩ : Path).isAbsolute = false) (h : r.place? path name isMain = some place) :
    place.relative.StartsWith ⟨r.npmDirname⟩ := by
  obtain ⟨tree, within, -, -, -, hrelative⟩ :=
    exists_components_relative hdirname.no_slash hname h
  have hfront : Path.stepsOf [r.npmDirname.toList] = [.name r.npmDirname] :=
    Path.stepsOf_texts (List.forall_mem_singleton.2 hdirname)
  rw [Path.StartsWith, Path.components_name hdirname, hrelative, hfront]
  exact List.prefix_append _ _

/-- Different files collide only if their trees differ, one of them is renamed as a main entry,
or one of them lies in the variant of its package. Every destination lies in the directory for
packages below its base. -/
theorem place?_collides (hcatalog : ∀ p, r.catalog.Holds p → p.IsNormal)
    (hdirname : (Component.name r.npmDirname).IsStep)
    (hname : IsPackageName name) (hname' : IsPackageName name')
    (h : r.place? path name isMain = some place)
    (h' : r.place? path' name' isMain' = some place') :
    (place.relative.SameAs place'.relative → ¬place.source.SameAs place'.source →
      ¬place.base.SameAs place'.base ∨
      r.npmDirname = defaultNpmDirname ∧ (place.isMain = true ∨ place'.isMain = true) ∨
      r.LiesInVariant place ∨ r.LiesInVariant place') ∧
    (place.base.join place.relative).SameAs place.destination ∧
    place.relative.StartsWith ⟨r.npmDirname⟩ := by
  refine ⟨fun hrelative hsource => ?_, join_relative hdirname.no_slash hname.isAbsolute h,
    relative_startsWith hdirname hname.isAbsolute h⟩
  have hdirs (p : Package) (dir : Path) (hp : r.packageFor? path.normalize name = some p)
      (hdir : p.alternateOutput = some dir) : dir.text ≠ "" :=
    ((hcatalog p (holds_of_packageFor? hp)).alternateOutput dir hdir).1.nonempty
  have hmerges := (sameAs_or_merges hdirname.no_slash hdirs hname.isAbsolute hname'.isAbsolute
    h h' hrelative).resolve_left hsource
  cases hmerges with
  | trees hbase => exact .inl hbase
  | mains hrenames hmain => exact .inr (.inl ⟨by simpa [renamesMain] using hrenames, hmain⟩)
  | variants hleft => exact .inr (.inr (liesInVariant_of_leftOut?_ne hleft))

/-- A package with a built variant. -/
def variantPackage : Package :=
  { name := "p", root := ⟨"/node_modules/p"⟩, alternateOutput := some ⟨"/node_modules/p/dist"⟩ }

/-- A planner that knows this package, under a directory name where nothing is renamed. -/
def variantPlanner : Planner where
  catalog := [variantPackage].foldl Catalog.insert (Catalog.empty ⟨"/node_modules"⟩)
  npmDirname := "npm"

/-- A file of the variant takes the place of the file beside the variant. -/
theorem place?_collides_variant : ∃ place place',
    variantPlanner.place? ⟨"/node_modules/p/a.js"⟩ "p" true = some place ∧
      variantPlanner.place? ⟨"/node_modules/p/dist/a.js"⟩ "p" true = some place' ∧
      place.relative.SameAs place'.relative ∧ ¬place.source.SameAs place'.source ∧
      (variantPlanner.LiesInVariant place ∨ variantPlanner.LiesInVariant place') := by
  let place (source : Path) : Placement :=
    { source := source, destination := ⟨"/node_modules/npm/p/a.js"⟩, base := ⟨"/node_modules"⟩,
      package := "p", isMain := true }
  have hcatalog (p : Package) (hp : variantPlanner.catalog.Holds p) : p.IsNormal := by
    obtain rfl : p = variantPackage := List.mem_singleton.1 hp.mem
    exact ⟨by decide, by decide⟩
  have hplace : variantPlanner.place? ⟨"/node_modules/p/a.js"⟩ "p" true =
      some (place ⟨"/node_modules/p/a.js"⟩) := by decide +kernel
  have hplace' : variantPlanner.place? ⟨"/node_modules/p/dist/a.js"⟩ "p" true =
      some (place ⟨"/node_modules/p/dist/a.js"⟩) := by decide +kernel
  have hname : (Component.name "p").IsStep := ⟨by decide, by decide, by decide⟩
  have hsource : ¬(place ⟨"/node_modules/p/a.js"⟩).source.SameAs
      (place ⟨"/node_modules/p/dist/a.js"⟩).source := by decide
  obtain ⟨hways, -⟩ := place?_collides hcatalog ⟨by decide, by decide, by decide⟩ (.plain hname)
    (.plain hname) hplace hplace'
  refine ⟨_, _, hplace, hplace', Eq.refl _, hsource, ?_⟩
  rcases hways (Eq.refl _) hsource with hbase | hmain | hvariant
  · exact absurd (Eq.refl _) hbase
  · exact absurd hmain.1 (by decide)
  · exact hvariant

end Planner

end Vendoring
