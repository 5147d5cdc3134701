/-
# The kind of a file and the kind of its destination

A build looks for references in a file by the kind that its source has, and rewrites them by the
kind that its destination has. The two agree because a destination ends in the last component
of its source, with two exceptions. A main entry that is renamed keeps its extension, but where
it has none it is given the one of a script. And a path that is itself the directory of a
built variant is placed as the root of its package, under the name of that root.

Nothing is asked of the name of the package or of the directory for packages here: whatever is
joined, a destination ends in what was joined last.
-/

import Vendoring.Proofs.Path.Extensions
import Vendoring.Proofs.Path.Relative
import Vendoring.Proofs.Placement.Destinations

namespace Vendoring

namespace Path

variable {p q base rest : Path} {c : Component}

/-- Only the first component of a path can be a `.`. -/
theorem exists_getLast?_ne_here (h : c ∈ p.components) (hc : c ≠ .here) :
    ∃ d, p.components.getLast? = some d ∧ d ≠ .here := by
  have hspelled := p.isSpelled_components
  cases hcs : p.components with
  | nil => simp [hcs] at h
  | cons first steps =>
    rw [hcs] at h hspelled
    cases hlast : steps.getLast? with
    | none =>
      obtain rfl := List.getLast?_eq_none_iff.1 hlast
      obtain rfl := List.mem_singleton.1 h
      exact ⟨c, rfl, hc⟩
    | some d =>
      refine ⟨d, ?_, (hspelled.2 d (List.mem_of_getLast? hlast)).ne_here⟩
      rw [List.getLast?_cons, hlast]
      rfl

/-- A joined path ends in what was joined. -/
theorem getLast?_join (p : Path) (hq : q.components.getLast? = some c) (hc : c ≠ .here) :
    (p.join q).components.getLast? = some c := by
  by_cases htext : p.text = ""
  · rwa [join_of_empty htext]
  · cases habs : q.isAbsolute with
    | true => rwa [join_absolute habs]
    | false =>
      obtain ⟨before, hcs⟩ := List.getLast?_eq_some_iff.1 hq
      rw [components_join habs htext, stepsOf_segments habs, hcs, List.filter_append]
      simp [hc]

/-- What follows the front of a path is its end. -/
theorem isSuffix_of_below? (h : p.below? base = some rest) :
    rest.components <:+ p.components := by
  by_cases hbase : base.components = []
  · rw [sameAs_of_below? h hbase]
  · rw [(below?_eq_some h hbase).2.2.1]
    exact List.drop_suffix _ _

theorem getLast?_of_below? (h : p.below? base = some rest) (hrest : rest.components ≠ []) :
    p.components.getLast? = rest.components.getLast? := by
  obtain ⟨front, hfront⟩ := isSuffix_of_below? h
  rw [← hfront, List.getLast?_append_of_ne_nil _ hrest]

/-- Seen from a directory, a path that is not this directory ends as before. -/
theorem getLast?_belowD (hp : p.components.getLast? = some c)
    (hbase : base.components.getLast? ≠ some c) :
    (p.belowD base).components.getLast? = some c := by
  rw [belowD]
  cases h : p.below? base with
  | none => exact hp
  | some rest =>
    rw [Option.getD_some, ← hp]
    refine (getLast?_of_below? h fun hrest => ?_).symm
    by_cases hnil : base.components = []
    · rw [← sameAs_of_below? h hnil, hrest] at hp
      cases hp
    · obtain ⟨⟨more, hmore⟩, -, hcs, -⟩ := below?_eq_some h hnil
      rw [hrest, ← hmore, List.drop_left] at hcs
      rw [← hmore, ← hcs, List.append_nil] at hp
      exact hbase hp

end Path

namespace Planner

variable {r : Planner} {file path : Path} {name : String} {isMain : Bool} {place : Placement}
variable {p : Package}

/-! ## What a destination ends in -/

/-- What is kept of a file behind its package tree ends in the canonical name, if it is a renamed
main entry, and like the layout otherwise. -/
theorem exists_getLast?_kept (isMain : Bool) {tree within : List Component}
    (hsplit : Path.splitAtTree (r.plainLayout path.normalize name).components = some (tree, within))
    (hwithin : within ≠ []) :
    ∃ c, (r.kept path name isMain within).components.getLast? = some c ∧ c ≠ .here ∧
      c ≠ .name packageTreeName ∧
      some c = if isMain && r.renamesMain then
        some (.name (canonicalStem ++ Package.dottedExtension path.normalize))
      else (r.plainLayout path.normalize name).components.getLast? := by
  obtain ⟨hcs, -, hnone⟩ := Path.splitAtTree_eq_some hsplit
  unfold kept
  split
  · have hstep := isStep_canonicalName path.normalize
    refine ⟨_, ?_, hstep.ne_here, fun hname => ?_, rfl⟩
    · refine Path.getLast?_join _ ?_ hstep.ne_here
      rw [Path.components_name hstep]
      rfl
    · have hchars := congrArg String.toList (Component.name.inj hname)
      simp [canonicalStem, packageTreeName] at hchars
  · have hsteps := Path.isStep_of_splitAtTree hsplit
    obtain ⟨first, steps, rfl⟩ := List.exists_cons_of_ne_nil hwithin
    have hkept := Path.isSpelled_of_isStep hsteps
    have hlast := List.getLast?_eq_some_getLast (List.cons_ne_nil first steps)
    have hmem := List.mem_of_getLast? hlast
    refine ⟨_, ?_, (hsteps _ hmem).ne_here, fun hname => hnone (hname ▸ hmem), ?_⟩
    · rw [Path.components_ofComponents hkept, hlast]
    · rw [hcs, List.getLast?_append_of_ne_nil _ hwithin, hlast]

/-- A destination ends in the canonical name, if it is one of a renamed main entry, and in the
last component of the layout otherwise. -/
theorem getLast?_relative (h : r.place? path name isMain = some place) :
    place.relative.components.getLast? =
      if isMain && r.renamesMain then
        some (.name (canonicalStem ++ Package.dottedExtension path.normalize))
      else (r.plainLayout path.normalize name).components.getLast? := by
  obtain ⟨tree, within, hsplit, hwithin, rfl⟩ := place?_eq_some h
  obtain ⟨hcs, htree, -⟩ := Path.splitAtTree_eq_some hsplit
  obtain ⟨c, hkept, hhere, hname, hlast⟩ := exists_getLast?_kept isMain hsplit hwithin
  have hspelled := (r.plainLayout path.normalize name).isSpelled_components
  rw [hcs] at hspelled
  have hbase : (Path.ofComponents tree).components.getLast? = some (.name packageTreeName) := by
    rw [Path.components_ofComponents hspelled.of_append, htree]
  rw [← hlast]
  refine Path.getLast?_belowD (Path.getLast?_join _ hkept hhere) ?_
  rw [hbase]
  exact fun heq => hname (Option.some.inj heq).symm

/-! ## The kind of a destination -/

/-- The canonical name keeps an extension, and is the one of a script where there is none. -/
theorem ofPath_of_canonicalName {q : Path}
    (h : q.components.getLast? = some (.name (canonicalStem ++ Package.dottedExtension file))) :
    FileKind.ofPath q =
      if file.extension? = none then .script else FileKind.ofPath file := by
  have hname : q.fileName? = some (canonicalStem ++ Package.dottedExtension file) := by
    rw [Path.fileName?, h]
  unfold Package.dottedExtension at hname
  cases hextension : file.extension? with
  | none =>
    have hq : q.extension? = some "js" := by
      rw [Path.extension?, hname, hextension]
      decide
    rw [if_pos rfl, FileKind.ofPath, hq]
    decide
  | some extension =>
    have hsplit : canonicalStem ++ ("." ++ extension) =
        String.ofList (canonicalStem.toList ++ '.' :: extension.toList) :=
      String.toList_injective (by simp)
    rw [hextension, hsplit] at hname
    have hq := Path.extension?_of_fileName? hname (by decide)
      (Path.not_mem_of_extension? hextension).2
    rw [if_neg (by simp), FileKind.ofPath, FileKind.ofPath, hq, hextension, String.ofList_toList]

/-- The source is the directory of the built variant of the package that is asked about it:
nothing follows the directory in its path. -/
def IsVariantRoot (r : Planner) (place : Placement) (p : Package) : Prop :=
  r.packageFor? place.source place.package = some p ∧
    ∃ dir ∈ p.alternateOutput, ∃ rest, place.source.below? dir = some rest ∧
      ∀ c ∈ rest.components, c = .here

/-- The directory of a built variant is laid out as the root of its package. -/
theorem plainLayout_of_isVariantRoot (hroot : r.IsVariantRoot place p)
    (htree : (r.plainLayout place.source place.package).HasTree) :
    (r.plainLayout place.source place.package).SameAs p.root := by
  obtain ⟨hp, dir, hdir, rest, hrest, hhere⟩ := hroot
  have hdir : p.alternateOutput = some dir := hdir
  have hlayout : r.plainLayout place.source place.package = p.root.join rest := by
    simp [plainLayout, hp, Package.stripAlternateOutput, hdir, hrest]
  rw [hlayout] at htree ⊢
  by_cases htext : p.root.text = ""
  · rw [Path.join_of_empty htext] at htree
    cases hhere _ htree
  · cases habs : rest.isAbsolute with
    | true =>
      rw [Path.isAbsolute_iff_head] at habs
      cases hhere _ (List.mem_of_mem_head? habs)
    | false =>
      have hnone : rest.components.filter (· ≠ .here) = [] := by simpa using hhere
      rw [Path.SameAs, Path.components_join habs htext, Path.stepsOf_segments habs, hnone,
        List.append_nil]

/-- Any other file keeps its last component. -/
theorem getLast?_plainLayout (hroot : ∀ p, ¬r.IsVariantRoot place p) :
    (r.plainLayout place.source place.package).components.getLast? =
      place.source.components.getLast? := by
  rcases r.plainLayout_eq place.source place.package with
    heq | ⟨p, dir, rest, hp, hdir, hrest, heq⟩
  · rw [heq]
  · obtain ⟨c, hc, hhere⟩ : ∃ c ∈ rest.components, c ≠ .here := by
      by_contra hnone
      refine hroot p ⟨hp, dir, hdir, rest, hrest, fun c hc => ?_⟩
      by_contra hhere
      exact hnone ⟨c, hc, hhere⟩
    obtain ⟨last, hlast, hne⟩ := Path.exists_getLast?_ne_here hc hhere
    rw [heq, Path.getLast?_join _ hlast hne,
      Path.getLast?_of_below? hrest (List.ne_nil_of_mem hc), hlast]

/-- A renamed main entry keeps its kind if it has an extension, and becomes a script if it has
none. Any other destination has the kind of its source, unless the source is the directory of a
built variant, which takes the name of its package's root. -/
theorem kind_relative (h : r.place? path name isMain = some place) :
    (isMain = true ∧ r.npmDirname = defaultNpmDirname →
      FileKind.ofPath place.relative =
        if place.source.extension? = none then .script else FileKind.ofPath place.source) ∧
    (¬(isMain = true ∧ r.npmDirname = defaultNpmDirname) →
      (∀ p, r.IsVariantRoot place p → FileKind.ofPath place.relative = FileKind.ofPath p.root) ∧
      ((∀ p, ¬r.IsVariantRoot place p) →
        FileKind.ofPath place.relative = FileKind.ofPath place.source)) := by
  have hlast := getLast?_relative h
  obtain ⟨hsource, hpackage, -⟩ := fields_of_place? h
  rw [← hsource, ← hpackage] at hlast
  constructor
  · rintro ⟨rfl, hdirname⟩
    rw [if_pos (by simp [renamesMain, hdirname])] at hlast
    exact ofPath_of_canonicalName hlast
  · intro hkeeps
    rw [if_neg (by simpa [renamesMain] using hkeeps)] at hlast
    rw [FileKind.ofPath_of_getLast? hlast]
    refine ⟨fun p hroot => ?_, fun hroot => ?_⟩
    · have htree : (r.plainLayout place.source place.package).HasTree := by
        obtain ⟨tree, within, hsplit, -⟩ := place?_eq_some h
        rw [← hsource, ← hpackage] at hsplit
        by_contra hnot
        rw [Path.splitAtTree_eq_none_iff.2 hnot] at hsplit
        cases hsplit
      have hsame := plainLayout_of_isVariantRoot hroot htree
      exact FileKind.ofPath_of_getLast? (by rw [hsame])
    · exact FileKind.ofPath_of_getLast? (getLast?_plainLayout hroot)

/-- A stylesheet that is the main entry of its package stays a stylesheet. -/
theorem kind_relative_stylesheet :
    let r : Planner := ⟨.empty ⟨"/node_modules"⟩, defaultNpmDirname⟩
    ∃ place, r.place? ⟨"/node_modules/p/all.wxss"⟩ "p" true = some place ∧
      place.relative = ⟨"miniprogram_npm/p/index.wxss"⟩ ∧
      FileKind.ofPath place.relative = FileKind.ofPath place.source := by
  intro r
  have hplace : r.place? ⟨"/node_modules/p/all.wxss"⟩ "p" true = some
      { source := ⟨"/node_modules/p/all.wxss"⟩
        destination := ⟨"/node_modules/miniprogram_npm/p/index.wxss"⟩
        base := ⟨"/node_modules"⟩, package := "p", isMain := true } := by decide +kernel
  obtain ⟨hrenamed, -⟩ := kind_relative hplace
  refine ⟨_, hplace, by decide +kernel, ?_⟩
  rw [hrenamed ⟨rfl, rfl⟩, if_neg (by decide)]

/-- The kinds part where a main entry without an extension is renamed, and where a path is itself
the directory of a built variant and its package is called like a script. -/
theorem exists_kind_relative_ne :
    (∃ place : Placement,
      Planner.place? ⟨.empty ⟨"/node_modules"⟩, defaultNpmDirname⟩
        ⟨"/node_modules/p/main"⟩ "p" true = some place ∧
      FileKind.ofPath place.source = .other ∧ FileKind.ofPath place.relative = .script) ∧
    ∃ place : Placement,
      Planner.place? ⟨(Catalog.empty ⟨"/node_modules"⟩).insert
          { name := "p.js", root := ⟨"/node_modules/p.js"⟩
            alternateOutput := some ⟨"/node_modules/p.js/dist"⟩ }, defaultNpmDirname⟩
        ⟨"/node_modules/p.js/dist"⟩ "p.js" false = some place ∧
      FileKind.ofPath place.source = .other ∧ FileKind.ofPath place.relative = .script := by
  constructor
  · refine ⟨{ source := ⟨"/node_modules/p/main"⟩
              destination := ⟨"/node_modules/miniprogram_npm/p/index.js"⟩
              base := ⟨"/node_modules"⟩, package := "p", isMain := true }, ?_⟩
    decide +kernel
  · refine ⟨{ source := ⟨"/node_modules/p.js/dist"⟩
              destination := ⟨"/node_modules/miniprogram_npm/p.js"⟩
              base := ⟨"/node_modules"⟩, package := "p.js", isMain := false }, ?_⟩
    decide +kernel

end Planner

end Vendoring
