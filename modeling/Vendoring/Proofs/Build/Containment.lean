/-
# Where the files of packages end up

A file of a package is written to the output directory for packages and never above it: its
destination is the name of that directory and then names only. For the directory this takes a
name that leads somewhere, so neither `.` nor `..`, both of which the settings accept. For the
packages it takes a package tree behind which no step up is written, as it is wherever the tree
is a directory of that name.
-/

import Vendoring.Proofs.Build.Destinations
import Vendoring.Proofs.Path.Descent

namespace Vendoring

open Catalog Text

namespace Catalog

variable {t : FileTree} {l : Loader} {root : Path}

/-- What stands in for the root of a package is reached by a name or from the root. -/
theorem IsEntered.exists_name_alternateOutput {p : Package} (h : IsEntered t l root p) {dir : Path}
    (hdir : p.alternateOutput = some dir) :
    ∃ c ∈ dir.components, c = .root ∨ ∃ s, c = .name s := by
  obtain ⟨-, -, dirname, -, -, rfl⟩ := h.alternateOutput hdir
  cases habs : (⟨dirname⟩ : Path).isAbsolute with
  | true =>
    refine ⟨.root, ?_, .inl rfl⟩
    show _ ∈ (p.root.join ⟨dirname⟩).components
    rw [Path.join_absolute habs]
    exact List.mem_of_mem_head? (Path.isAbsolute_iff_head.1 habs)
  | false =>
    obtain ⟨names, hne, hnames⟩ := h.exists_names
    obtain ⟨name, names, rfl⟩ := List.exists_cons_of_ne_nil hne
    have hmem : Component.name name ∈ p.root.components := by simp [hnames]
    refine ⟨.name name, ?_, .inr ⟨name, rfl⟩⟩
    show _ ∈ (p.root.join ⟨dirname⟩).components
    rw [Path.components_join habs (Path.components_ne_nil_iff.1 (List.ne_nil_of_mem hmem))]
    exact List.mem_append_left _ hmem

end Catalog

namespace Planner

variable {r : Planner} {t : FileTree} {l : Loader} {root path file : Path} {name : String}
variable {isMain : Bool} {place : Placement}

/-- The built variant that is left out of a path is left out together with every step up. -/
theorem descends_plainLayout (hsurvey : IsSurvey t l root r.catalog)
    (htree : Path.Descends root.components) (path : Path) (name : String) :
    Path.Descends (r.plainLayout path.normalize name).components := by
  rcases r.plainLayout_eq path.normalize name with heq | ⟨p, dir, rest, hp, hdir, hrest, heq⟩
  · rw [heq]
    exact path.descends_normalize
  · have hentered := isEntered_of_packageFor? hsurvey hp
    have hmem := hentered.exists_name_alternateOutput hdir
    obtain ⟨names, -, hnames⟩ := hentered.exists_names
    obtain ⟨below, hbelow⟩ := Path.exists_names_below hrest hmem
    obtain ⟨c, hc, -⟩ := hmem
    rw [heq, Path.components_join_below hrest (List.ne_nil_of_mem hc), hnames, hbelow,
      List.append_assoc, ← List.map_append]
    exact htree.append_names _

theorem exists_stepsOf_canonicalEntry (hname : IsPackageName name) (file : Path) :
    ∃ names : List String, Path.stepsOf (canonicalEntry file name).segments = names.map .name := by
  have hslash : '/' ∉ (canonicalStem ++ Package.dottedExtension file).toList :=
    (isStep_canonicalName file).no_slash
  obtain ⟨names, hnames⟩ := hname.exists_stepsOf
  have hup : ['.', '.'] ∉ [(canonicalStem ++ Package.dottedExtension file).toList] := by
    simp [canonicalStem]
  obtain ⟨more, hmore⟩ := Path.exists_names_of_stepsOf hup
  refine ⟨names ++ more, ?_⟩
  show Path.stepsOf ((⟨name⟩ : Path).join _).segments = _
  rw [Path.stepsOf_segments_join (Path.isAbsolute_of_name hslash) hname.ne_empty, hnames,
    Path.segments_of_name hslash, hmore, List.map_append]

/-- The destination of a file of a package goes down from the output directory for packages. -/
theorem exists_names_relative (hsurvey : IsSurvey t l root r.catalog)
    (htree : Path.Descends root.components) (hdirname : (Component.name r.npmDirname).IsStep)
    (hname : IsPackageName name) (h : r.place? path name isMain = some place) :
    ∃ names : List String, place.relative.components = (r.npmDirname :: names).map .name := by
  obtain ⟨tree, within, hsplit, -, hwithin, hrelative⟩ :=
    exists_components_relative hdirname.no_slash hname.isAbsolute h
  have hfront : Path.stepsOf [r.npmDirname.toList] = [.name r.npmDirname] :=
    Path.stepsOf_texts (List.forall_mem_singleton.2 hdirname)
  have hkept : ∃ names : List String,
      Path.stepsOf (r.kept path name isMain within).segments = names.map .name := by
    unfold kept
    split
    · exact exists_stepsOf_canonicalEntry hname _
    · rw [(Path.stepsOf_segments_ofComponents hwithin).2]
      exact descends_plainLayout hsurvey htree path name tree within hsplit
  obtain ⟨names, hnames⟩ := hkept
  refine ⟨names, ?_⟩
  rw [hrelative, hfront, hnames]
  rfl

end Planner

/-- Wherever the project lies, its package tree has nothing behind it. -/
theorem Settings.descends_forProject (root : Path) :
    Path.Descends (Settings.forProject root).packageTree.components := by
  show Path.Descends (root / packageTreeName).components
  rw [isName_packageTreeName.components_div]
  exact Path.descends_concat_packageTreeName _

/-- A file of a package is written to the output directory for packages, wherever the files of
the build are written to: behind the name of that directory its destination goes down by names
only. -/
theorem Session.build_contains {t : FileTree} {settings : Settings} {inputs : List SourceFile}
    {out : BuildOutput} (hvalid : settings.IsValid) (hdot : settings.npmDirname ≠ ".")
    (hup : settings.npmDirname ≠ "..") (htree : Path.Descends settings.packageTree.components)
    (h : ((Session.start t settings).build t inputs).1 = .ok out) :
    ∀ f ∈ out.files, f.isDependency = true → ∃ names : List String,
      f.relative.normalize.components = (settings.npmDirname :: names).map .name ∧
        ∀ dest : Path, (dest.join f.relative).components =
          dest.components ++ (settings.npmDirname :: names).map .name := by
  intro f hf hdependency
  rcases Session.mem_files h hf with ⟨-, -, -, -, horigin⟩ | ⟨c, place, hc, hplace, -, hrelative, -⟩
  · simp [OutputFile.isDependency, horigin] at hdependency
  · have hdirname := Path.isStep_name hvalid.no_slash (hvalid.not_padding hdot) hup
    obtain ⟨names, hnames⟩ := Planner.exists_names_relative (isSurvey_survey t _ _) htree hdirname
      hc.isPackageName hplace
    rw [← hrelative] at hnames
    refine ⟨names, ?_, fun dest => ?_⟩
    · rw [Path.components_normalize_of_names hnames]
      exact hnames
    · rw [Path.components_join_of_names dest hnames]
      exact congrArg (dest.components ++ ·) hnames

/-- The settings accept the name `..`, and then a package is written beside the output
directory. -/
theorem Session.exists_escape : ∃ settings out,
    (Settings.extracting ["p"]).withNpmDirname ".." = .ok settings ∧
      ((Session.start singleTree settings).build singleTree []).1 = .ok out ∧
        ∃ f ∈ out.files, f.isDependency = true ∧
          f.relative.normalize.components = [.up, .name "p", .name "x"] := by
  have hnamed : (Settings.extracting ["p"]).withNpmDirname ".." =
      .ok { Settings.extracting ["p"] with npmDirname := ".." } := by
    decide
  have hview : ((Session.start singleTree
      { Settings.extracting ["p"] with npmDirname := ".." }).build singleTree []).1.toOption.map
        (fun out => out.files.map fun f => (f.isDependency, f.relative.normalize.components)) =
      some [(true, [.up, .name "p", .name "x"])] := by
    decide +kernel
  obtain ⟨out, hout, hfiles⟩ := exists_of_toOption_map hview
  obtain ⟨f, hf, hseen⟩ := List.mem_map.1 (hfiles ▸ List.mem_singleton.2 rfl)
  obtain ⟨hdependency, hcomponents⟩ := Prod.mk.inj hseen
  exact ⟨_, out, hnamed, hout, f, hf, hdependency, hcomponents⟩

end Vendoring
