/-
# Projects whose packages stay in their tree

A path that is declared or configured with a step up can lead out of the package
that it belongs to. Without such steps, whatever a build of the project looks up
lies under a path from the root, and behind the outermost package tree if no file
stands in the way.
-/

import Vendoring.Build.Discovery
import Vendoring.Proofs.Graph.Dependency
import Vendoring.Proofs.Placement.Places
import Vendoring.Proofs.Resolver.Rooted

namespace Vendoring

open Catalog Text

/-- The package tree is reached from the root, and nothing that is configured or declared
has a step up. -/
structure IsEnclosed (t : FileTree) (settings : Settings) : Prop where
  isAbsolute : settings.packageTree.isAbsolute = true
  normalize_eq : settings.packageTree.normalize = settings.packageTree
  entries : ∀ entry ∈ settings.fullExtract, ['.', '.'] ∉ splitOn '/' (Specifier.clean entry)
  declared : ∀ (dir : Path) (m : Manifest), t.manifest? (dir / packageManifestName) = some m →
    ∀ dirname, m.alternateDirname? = some dirname → ['.', '.'] ∉ splitOn '/' dirname.toList

/-- The package tree is reached from the root, no file stands where a package tree
should be, and nothing that is configured or declared has a step up. -/
structure IsTidy (t : FileTree) (settings : Settings) : Prop where
  isAbsolute : settings.packageTree.isAbsolute = true
  normalize_eq : settings.packageTree.normalize = settings.packageTree
  endsWithName : settings.packageTree.endsWithName packageTreeName = true
  noFile : ∀ loc contents, t.entry? (loc ++ [packageTreeName]) ≠ some (.file contents)
  entries : ∀ entry ∈ settings.fullExtract, ['.', '.'] ∉ splitOn '/' (Specifier.clean entry)
  declared : ∀ (dir : Path) (m : Manifest), t.manifest? (dir / packageManifestName) = some m →
    ∀ dirname, m.alternateDirname? = some dirname → ['.', '.'] ∉ splitOn '/' dirname.toList

/-- The reference leads to a file behind a package tree. -/
structure Reference.IsInstalled (t : FileTree) (ref : Reference) : Prop where
  isPlain : ref.target.IsPlain
  isFile : t.isFile ref.target = true
  isRooted : ref.target.IsRooted
  hasTree : ref.target.HasTree

/-- The component has its bundle and its manifest at paths from the root. -/
structure ComponentRef.IsRooted (ref : ComponentRef) : Prop where
  isPlain : ref.directory.IsPlain
  directory : ref.directory.IsRooted
  manifest : ref.manifest.IsRooted

/-- A project is tidy if its configuration is and no JSON object in it has a step up where
a manifest declares its built variant. -/
theorem IsTidy.of_entries {t : FileTree} {settings : Settings}
    (habsolute : settings.packageTree.isAbsolute = true)
    (hnormal : settings.packageTree.normalize = settings.packageTree)
    (hends : settings.packageTree.endsWithName packageTreeName = true)
    (hentries : ∀ entry ∈ settings.fullExtract, ['.', '.'] ∉ splitOn '/' (Specifier.clean entry))
    (hfiles : ∀ x ∈ t.entries.toList, ∀ contents, x.2 = .file contents →
      x.1.getLast? ≠ some packageTreeName ∧
        ((decode? contents).bind Json.parseObject?).all (fun json =>
          (Manifest.ofJson json).alternateDirname?.all fun dirname =>
            ['.', '.'] ∉ splitOn '/' dirname.toList) = true) : IsTidy t settings where
  isAbsolute := habsolute
  normalize_eq := hnormal
  endsWithName := hends
  entries := hentries
  noFile loc contents hentry := by
    have hmem := Std.TreeMap.mem_toList_iff_getElem?_eq_some.2 hentry
    exact (hfiles _ hmem contents rfl).1 (by simp)
  declared dir m hm dirname hdirname := by
    obtain ⟨json, hjson, rfl⟩ := Option.map_eq_some_iff.1 hm
    unfold FileTree.object? FileTree.readText at hjson
    cases hread : t.read (dir / packageManifestName) with
    | error cause => simp [hread] at hjson
    | ok contents =>
      obtain ⟨loc, -, hentry⟩ := FileTree.exists_locate_of_read hread
      have hmem := Std.TreeMap.mem_toList_iff_getElem?_eq_some.2 hentry
      have hall := (hfiles _ hmem contents rfl).2
      cases htext : decode? contents with
      | none => simp [hread, htext] at hjson
      | some text =>
        simp only [hread, htext] at hjson
        simpa [htext, hjson, hdirname] using hall

namespace IsEnclosed

variable {t : FileTree} {settings : Settings} (h : IsEnclosed t settings)

include h

theorem isRooted : settings.packageTree.IsRooted := by
  rw [← h.normalize_eq]
  exact Path.isRooted_normalize h.isAbsolute

theorem isAnchored : (Session.start t settings).catalog.IsAnchored :=
  (isSurvey_survey t _ _).isAnchored h.isAbsolute

/-- What is taken over completely is a directory from the root. -/
theorem isRooted_of_extractedDir? {entry : String} (hentry : entry ∈ settings.fullExtract)
    {p : Package} {dir : Path}
    (hdir : Discovery.extractedDir? t (Session.start t settings) entry = some (p, dir)) :
    dir.IsRooted ∧ t.isDirectory dir = true := by
  unfold Discovery.extractedDir? at hdir
  simp only [Option.pure_def, Option.bind_eq_bind, Option.bind_eq_some_iff] at hdir
  obtain ⟨name, -, q, hq, hdir⟩ := hdir
  split at hdir
  · next hisDir =>
    obtain ⟨rfl, rfl⟩ := Prod.mk.inj (Option.some.inj hdir)
    refine ⟨?_, hisDir⟩
    have hroot :=
      ((isSurvey_survey t _ _).get? hq).2.isRooted_contentRoot h.isRooted h.declared
    unfold Resolver.inside
    split
    · next sub hsub =>
      refine hroot.join fun hup => h.entries entry hentry ?_
      exact Specifier.mem_splitOn_of_subpath? hsub hup
    · exact hroot
  · simp at hdir

end IsEnclosed

namespace IsTidy

variable {t : FileTree} {settings : Settings} (h : IsTidy t settings)

include h

theorem isEnclosed : IsEnclosed t settings :=
  { h with }

theorem isRooted : settings.packageTree.IsRooted :=
  h.isEnclosed.isRooted

theorem hasTree : settings.packageTree.HasTree := by
  have hlast := h.endsWithName
  rw [Path.endsWithName, decide_eq_true_eq] at hlast
  exact List.mem_of_getLast? hlast

theorem isInstalled_of_mem_referencesIn {file : Path} {content : String} {ref : Reference}
    (hmem : ref ∈ ((Session.start t settings).resolver t).referencesIn file content) :
    ref.IsInstalled t := by
  obtain ⟨specifier, -, hresolve⟩ := List.mem_filterMap.1 hmem
  obtain ⟨hplain, hisFile⟩ := Resolver.target_of_resolve? Loader.isPlain_default hresolve
  have hrooted :=
    Resolver.isRooted_of_resolve? Loader.isPlain_default h.isEnclosed.isAnchored hresolve
  exact ⟨hplain, hisFile, hrooted, Resolver.hasTree_of_packageOf? (isSurvey_survey t _ _) h.isRooted
    h.hasTree (Resolver.resolve?_eq_some hresolve).2.2.1⟩

theorem isInstalled_of_mem_referencesOf {file : Path} {ref : Reference}
    (hmem : ref ∈ ((Session.start t settings).resolver t).referencesOf file) :
    ref.IsInstalled t := by
  unfold Resolver.referencesOf at hmem
  split at hmem
  · simp at hmem
  · split at hmem
    · exact h.isInstalled_of_mem_referencesIn hmem
    · simp at hmem

variable {m : Memo Reference} {entry : Path} {content : Option String}

theorem isInstalled_startingReferences (hm : m.All (Reference.IsInstalled t)) :
    ∀ ref ∈ ((Session.start t settings).resolver t).startingReferences entry content m,
      ref.IsInstalled t := by
  cases content with
  | some text => exact fun ref hmem => h.isInstalled_of_mem_referencesIn hmem
  | none => exact hm.answer fun ref hmem => h.isInstalled_of_mem_referencesOf hmem

theorem isInstalled_startingMemo (hm : m.All (Reference.IsInstalled t)) :
    (((Session.start t settings).resolver t).startingMemo entry content m).All
      (Reference.IsInstalled t) := by
  cases content with
  | some text => exact hm
  | none => exact hm.fetch fun ref hmem => h.isInstalled_of_mem_referencesOf hmem

/-- A walk of imports comes across installed files only. -/
theorem isInstalled_dependencyGraph (content : Option String)
    (hm : m.All (Reference.IsInstalled t)) :
    let built := ((Session.start t settings).resolver t).dependencyGraph entry content m
    built.1.All (Reference.IsInstalled t) ∧ built.2.All (Reference.IsInstalled t) := by
  intro built
  simp only [built, Resolver.dependencyGraph_eq]
  refine Graph.all_build (fun ref href => ?_) (h.isInstalled_startingMemo hm)
    (h.isInstalled_startingReferences hm)
  exact fun next hmem => h.isInstalled_of_mem_referencesOf hmem

theorem isInstalled_of_reached (hm : m.All (Reference.IsInstalled t)) {ref : Reference}
    (hreached : (((Session.start t settings).resolver t).imports entry).Reached
      ((((Session.start t settings).resolver t).startingMemo entry content m).answer
        ((Session.start t settings).resolver t).referencesOf)
      (((Session.start t settings).resolver t).startingReferences entry content m) ref) :
    ref.IsInstalled t := by
  induction hreached with
  | start hmem => exact h.isInstalled_startingReferences hm _ hmem
  | onward _ _ hmem ih =>
    refine (h.isInstalled_startingMemo hm).answer (fun next hnext => ?_) _ hmem
    exact h.isInstalled_of_mem_referencesOf hnext

theorem isRooted_of_mem_componentsIn {manifest : Path} {json : Json} {ref : ComponentRef}
    (hmem : ref ∈ ((Session.start t settings).resolver t).componentsIn manifest json) :
    ref.IsRooted := by
  obtain ⟨⟨label, specifier⟩, -, hresolve⟩ := List.mem_filterMap.1 hmem
  obtain ⟨hdir, hmanifest⟩ :=
    Resolver.isRooted_of_resolveComponent? h.isEnclosed.isAnchored hresolve
  exact ⟨(Resolver.bundle_of_resolveComponent? hresolve).2.1, hdir, hmanifest⟩

/-- A walk of components comes across bundles at paths from the root only. -/
theorem isRooted_componentGraph (content : Option String) {manifest : Path}
    {m : Memo ComponentRef} (hm : m.All ComponentRef.IsRooted) :
    let built := ((Session.start t settings).resolver t).componentGraph manifest content m
    built.1.All ComponentRef.IsRooted ∧ built.2.All ComponentRef.IsRooted := by
  intro built
  have hlook (p : Path) : ∀ ref ∈ ((Session.start t settings).resolver t).componentsOf p,
      ref.IsRooted := fun ref hmem => h.isRooted_of_mem_componentsIn hmem
  cases content with
  | some text =>
    refine Graph.all_build (fun ref _ => hlook ref.manifest) hm fun ref hmem => ?_
    cases hjson : Json.parseObject? text with
    | none => simp [hjson] at hmem
    | some json =>
      rw [hjson] at hmem
      exact h.isRooted_of_mem_componentsIn hmem
  | none =>
    exact Graph.all_build (fun ref _ => hlook ref.manifest) (hm.fetch (hlook manifest))
      (hm.answer (hlook manifest))

theorem isRooted_of_extractedDir? {entry : String} (hentry : entry ∈ settings.fullExtract)
    {p : Package} {dir : Path}
    (hdir : Discovery.extractedDir? t (Session.start t settings) entry = some (p, dir)) :
    dir.IsRooted ∧ t.isDirectory dir = true :=
  h.isEnclosed.isRooted_of_extractedDir? hentry hdir

end IsTidy

end Vendoring
