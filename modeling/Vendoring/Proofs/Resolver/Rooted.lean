/-
# References between packages

References lead to paths from the root, from whatever file they are followed: a package
is found at such a path, and a step is followed from the files of packages only. The same
holds of the bundles of components.
-/

import Vendoring.Graph.Component
import Vendoring.Proofs.Catalog.Installed
import Vendoring.Proofs.Path.Extensions
import Vendoring.Proofs.Resolver.Targets
import Vendoring.Proofs.Specifier.Text

namespace Vendoring

namespace Loader

variable {l : Loader} {t : FileTree} {p q base : Path} {specifier : String}

theorem isRooted_of_mem_fileCandidates (hl : l.IsPlain) (hp : p.IsRooted)
    (h : q ∈ l.fileCandidates p) : q.IsRooted := by
  rcases List.mem_cons.1 h with rfl | h
  · exact hp
  · obtain ⟨extension, hmem, rfl⟩ := List.mem_map.1 h
    obtain ⟨hslash, hlen⟩ := hl extension hmem
    have happend := hp.append hslash fun s hs => by
      have := congrArg List.length hs
      simp only [List.length_append, List.length_cons, List.length_nil] at this
      omega
    simpa using happend

theorem isRooted_of_mem_indexCandidates (hl : l.IsFlat) (hp : p.IsRooted)
    (h : q ∈ l.indexCandidates p) : q.IsRooted := by
  obtain ⟨extension, hmem, rfl⟩ := List.mem_map.1 h
  refine hp.join ?_
  have hname : (canonicalStem ++ extension).toList =
      'i' :: 'n' :: 'd' :: 'e' :: 'x' :: extension.toList := by simp [canonicalStem]
  rw [Path.segments_of_name]
  · rw [hname]
    simp
  · rw [hname]
    simpa using hl extension hmem

theorem isRooted_of_mem_candidates (hl : l.IsPlain) (hp : p.isAbsolute = true)
    (h : q ∈ l.candidates t p) : q.IsRooted := by
  have hnormal := Path.isRooted_normalize hp
  rcases List.mem_append.1 h with h | h
  · exact isRooted_of_mem_fileCandidates hl hnormal h
  · obtain ⟨-, h⟩ := mem_directoryCandidates_iff.1 h
    have hmain (main : String) : (p.normalize / main : Path).normalize.IsRooted :=
      Path.isRooted_normalize (Path.isAbsolute_join hnormal.isAbsolute _)
    rcases h with ⟨main, -, h | h⟩ | h
    · exact isRooted_of_mem_fileCandidates hl (hmain main) h
    · exact isRooted_of_mem_indexCandidates hl.isFlat (hmain main) h
    · exact isRooted_of_mem_indexCandidates hl.isFlat hnormal h

theorem isRooted_of_loadPath? (hl : l.IsPlain) (hp : p.isAbsolute = true)
    (h : l.loadPath? t p = some q) : q.IsRooted :=
  isRooted_of_mem_candidates hl hp (List.mem_of_find?_eq_some (loadPath?_eq p ▸ h))

/-- An absolute path is looked up as it is, wherever it is looked up from. -/
theorem isRooted_of_resolve?_absolute (hl : l.IsPlain) (hp : p.isAbsolute = true)
    (h : l.resolve? t base p.text = some q) : q.IsRooted := by
  obtain ⟨path, hparse⟩ := Specifier.exists_parse_eq_absolute hp
  simp only [resolve?, hparse] at h
  exact isRooted_of_loadPath? hl (Specifier.isAbsolute_of_parse hparse) h

theorem isRooted_of_resolve? (hl : l.IsPlain) (hbase : base.isAbsolute = true)
    (h : l.resolve? t base specifier = some q) : q.IsRooted := by
  have hplaces (h : (installPlaces base specifier).findSome? (l.loadPath? t) = some q) :
      q.IsRooted := by
    obtain ⟨p, hp, h⟩ := List.exists_of_findSome?_eq_some h
    refine isRooted_of_loadPath? hl ?_ h
    obtain ⟨dir, hdir, rfl⟩ := List.mem_map.1 hp
    have hdir := Path.isAbsolute_of_mem_ancestors hbase (List.mem_filter.1 hdir).1
    exact Path.isAbsolute_join (Path.isAbsolute_join hdir _) _
  unfold resolve? at h
  split at h
  · simp at h
  · next path hparse => exact isRooted_of_loadPath? hl (Specifier.isAbsolute_of_parse hparse) h
  · exact isRooted_of_loadPath? hl (Path.isAbsolute_join hbase _) h
  · exact hplaces h
  · exact hplaces h

end Loader

namespace Resolver

variable {r : Resolver} {specifier : String} {file q : Path}

theorem isAbsolute_inside {root : Path} (hroot : root.isAbsolute = true)
    (subpath : Option String) : (inside root subpath).isAbsolute = true := by
  cases subpath with
  | none => exact hroot
  | some sub => exact Path.isAbsolute_join hroot _

/-- What a specifier leads to lies at a path from the root, since the packages do, and a step
is followed from files of packages only. -/
theorem isRooted_of_target? (hl : r.loader.IsPlain) (hc : r.catalog.IsAnchored)
    (h : r.target? specifier file = some q) : q.IsRooted := by
  have hinto (name : String) (p : Package) (subpath : Option String) (dir : Path)
      (hp : r.catalog.nearest? name dir = some p) (h : r.intoPackage? p subpath dir = some q) :
      q.IsRooted := by
    unfold intoPackage? at h
    rcases Option.or_eq_some_iff.1 h with h | ⟨-, h⟩
    · exact Loader.isRooted_of_resolve?_absolute hl
        (isAbsolute_inside (hc.contentRoot name dir p hp) subpath) h
    · obtain ⟨_, -, h⟩ := Option.bind_eq_some_iff.1 h
      exact Loader.isRooted_of_resolve?_absolute hl
        (isAbsolute_inside (hc.root name dir p hp) subpath) h
  unfold target? at h
  split at h
  · obtain ⟨p, hp, h⟩ := Option.bind_eq_some_iff.1 h
    exact hinto _ p _ _ hp h
  · obtain ⟨p, hp, h⟩ := Option.bind_eq_some_iff.1 h
    exact hinto _ p _ _ hp h
  · obtain ⟨p, hp, h⟩ := Option.bind_eq_some_iff.1 h
    exact Loader.isRooted_of_resolve? hl (Path.isAbsolute_parent?_getD (hc.owned file p hp)) h
  · simp at h
  · simp at h

theorem isRooted_of_resolve? (hl : r.loader.IsPlain) (hc : r.catalog.IsAnchored)
    {ref : Reference} (h : r.resolve? specifier file = some ref) : ref.target.IsRooted :=
  isRooted_of_target? hl hc (resolve?_eq_some h).2.1

/-! ## Bundles -/

theorem isAbsolute_of_componentPath? {manifest dir path : Path} {p : Package}
    (hc : r.catalog.IsAnchored) (hdir : manifest.parent? = some dir)
    (h : r.componentPath? specifier manifest dir = some (p, path)) : path.isAbsolute = true := by
  rcases componentPath?_eq_some h with ⟨name, hp, ⟨inside, rfl⟩ | ⟨main, hmain, rfl⟩⟩ |
    ⟨hp, step, rfl⟩
  · exact Path.isAbsolute_join (hc.contentRoot name dir p hp) _
  · obtain ⟨entry, -, rfl⟩ := Option.map_eq_some_iff.1 hmain
    exact Path.isAbsolute_withoutExtension
      (Path.isAbsolute_join (hc.contentRoot name dir p hp) _)
  · have hdirAbs := Path.isAbsolute_of_mem_ancestors (hc.owned manifest p hp)
      (List.mem_cons_of_mem manifest (List.mem_of_mem_head? hdir))
    exact Path.isAbsolute_join hdirAbs _

/-- A component stands at a path from the root, without the extension of its manifest. -/
theorem exists_isRooted_of_resolveComponent? {manifest : Path} {ref : ComponentRef}
    (hc : r.catalog.IsAnchored) (h : r.resolveComponent? specifier manifest = some ref) :
    ∃ path : Path, path.IsRooted ∧ path.IsPlain ∧ path.parent? = some ref.directory ∧
      ref.manifest = ⟨path.text ++ String.ofList ".json".toList⟩ := by
  unfold resolveComponent? at h
  simp only [Option.pure_def, Option.bind_eq_bind, Option.bind_eq_some_iff] at h
  obtain ⟨dir, hdir, ⟨p, path⟩, hpath, directory, hparent, h⟩ := h
  have hpathAbs := isAbsolute_of_componentPath? hc hdir hpath
  split at h
  · obtain rfl := Option.some.inj h
    exact ⟨path.normalize, Path.isRooted_normalize hpathAbs, path.isPlain_normalize, hparent, by simp⟩
  · simp at h

/-- A component has its bundle in a directory from the root, and its own manifest there
too. -/
theorem isRooted_of_resolveComponent? {manifest : Path} {ref : ComponentRef}
    (hc : r.catalog.IsAnchored) (h : r.resolveComponent? specifier manifest = some ref) :
    ref.directory.IsRooted ∧ ref.manifest.IsRooted := by
  obtain ⟨path, hrooted, -, hparent, hmanifest⟩ := exists_isRooted_of_resolveComponent? hc h
  refine ⟨hrooted.parent? hparent, ?_⟩
  rw [hmanifest]
  refine hrooted.append (by decide) fun s hs => ?_
  have hlen := congrArg List.length hs
  simp at hlen

/-- The manifest of a component lies in its bundle, under the name of a manifest. -/
theorem manifest_of_resolveComponent? {manifest : Path} {ref : ComponentRef}
    (hc : r.catalog.IsAnchored) (h : r.resolveComponent? specifier manifest = some ref) :
    ref.manifest.StartsWith ref.directory ∧ FileKind.ofPath ref.manifest = .manifest := by
  obtain ⟨path, hrooted, hplain, hparent, hmanifest⟩ := exists_isRooted_of_resolveComponent? hc h
  obtain ⟨name, hne, hcs⟩ := hrooted.components_append hplain hparent
    (u := ".json".toList) (by decide) (by decide)
  rw [← hmanifest] at hcs
  refine ⟨?_, FileKind.ofPath_of_json hne ?_⟩
  · rw [Path.StartsWith, hcs]
    exact List.prefix_append _ _
  · simp [Path.fileName?, hcs]

end Resolver

end Vendoring
