/-
# Where references lead

A reference that resolves leads to a file, and a component that resolves to a
directory, each under its plain spelling. So two references to one place name it
by one text, and what is remembered about the place is found again.
-/

import Vendoring.Graph.Component
import Vendoring.Proofs.Resolver.Candidates

namespace Vendoring

/-- Extensions that make the plain spelling of a file longer without adding a
piece to it. -/
def Loader.IsPlain (l : Loader) : Prop :=
  ∀ extension ∈ l.extensions, '/' ∉ extension.toList ∧ 3 ≤ extension.toList.length

theorem Loader.isPlain_default : ({} : Loader).IsPlain := by
  unfold Loader.IsPlain
  decide

/-- No extension holds a slash, so behind the name of a file each makes a name again. -/
def Loader.IsFlat (l : Loader) : Prop := ∀ extension ∈ l.extensions, '/' ∉ extension.toList

theorem Loader.IsPlain.isFlat {l : Loader} (h : l.IsPlain) : l.IsFlat :=
  fun extension hmem => (h extension hmem).1

namespace Loader

variable {l : Loader} {t : FileTree} {p q dir base : Path} {specifier : String}

theorem isPlain_of_mem_fileCandidates (hl : l.IsPlain) (hp : p.IsPlain)
    (h : q ∈ l.fileCandidates p) : q.IsPlain := by
  rcases List.mem_cons.1 h with rfl | h
  · exact hp
  · obtain ⟨extension, hmem, rfl⟩ := List.mem_map.1 h
    obtain ⟨hslash, hlen⟩ := hl extension hmem
    simpa using hp.append hslash (by omega)

theorem isPlain_of_mem_indexCandidates (hl : l.IsFlat) (hp : p.IsPlain) (hne : p.text ≠ "")
    (h : q ∈ l.indexCandidates p) : q.IsPlain := by
  obtain ⟨extension, hmem, rfl⟩ := List.mem_map.1 h
  have hname : (canonicalStem ++ extension).toList =
      'i' :: 'n' :: 'd' :: 'e' :: 'x' :: extension.toList := by simp [canonicalStem]
  refine hp.join_name hne ?_ ?_
  · rw [hname]
    simpa using hl extension hmem
  · simp [hname, Path.isPadding]

theorem isPlain_of_mem_directoryCandidates (hl : l.IsPlain) (hp : p.IsPlain) (hne : p.text ≠ "")
    (h : q ∈ l.directoryCandidates t p) : q.IsPlain := by
  obtain ⟨-, ⟨main, -, h | h⟩ | h⟩ := mem_directoryCandidates_iff.1 h
  · exact isPlain_of_mem_fileCandidates hl (Path.isPlain_normalize _) h
  · exact isPlain_of_mem_indexCandidates hl.isFlat (Path.isPlain_normalize _)
      (Path.text_normalize_ne _) h
  · exact isPlain_of_mem_indexCandidates hl.isFlat hp hne h

theorem loadPath?_eq_some (hl : l.IsPlain) (h : l.loadPath? t p = some q) :
    q.IsPlain ∧ t.isFile q = true := by
  rw [loadPath?_eq] at h
  have hmem := List.mem_of_find?_eq_some h
  refine ⟨?_, List.find?_some h⟩
  rcases List.mem_append.1 hmem with hmem | hmem
  · exact isPlain_of_mem_fileCandidates hl p.isPlain_normalize hmem
  · exact isPlain_of_mem_directoryCandidates hl p.isPlain_normalize p.text_normalize_ne hmem

/-- A loader finds files by the places that it looks at. -/
theorem exists_loadPath?_of_resolve? (h : l.resolve? t base specifier = some q) :
    ∃ p, l.loadPath? t p = some q := by
  unfold resolve? at h
  split at h
  · simp at h
  · exact ⟨_, h⟩
  · exact ⟨_, h⟩
  all_goals
    obtain ⟨p, -, hp⟩ := List.exists_of_findSome?_eq_some h
    exact ⟨p, hp⟩

theorem resolve?_eq_some (hl : l.IsPlain) (h : l.resolve? t base specifier = some q) :
    q.IsPlain ∧ t.isFile q = true := by
  obtain ⟨p, hp⟩ := exists_loadPath?_of_resolve? h
  exact loadPath?_eq_some hl hp

end Loader

namespace Resolver

variable {r : Resolver} {specifier : String} {file q : Path}

/-- The target of a specifier is found by the loader. -/
theorem exists_resolve?_of_target? (h : r.target? specifier file = some q) :
    ∃ base text, r.loader.resolve? r.tree base text = some q := by
  have hinto (p : Package) (subpath : Option String) (dir : Path)
      (h : r.intoPackage? p subpath dir = some q) :
      ∃ base text, r.loader.resolve? r.tree base text = some q := by
    unfold intoPackage? at h
    rcases Option.or_eq_some_iff.1 h with h | ⟨-, h⟩
    · exact ⟨_, _, h⟩
    · obtain ⟨_, -, h⟩ := Option.bind_eq_some_iff.1 h
      exact ⟨_, _, h⟩
  unfold target? at h
  split at h
  · obtain ⟨p, -, h⟩ := Option.bind_eq_some_iff.1 h
    exact hinto p _ _ h
  · obtain ⟨p, -, h⟩ := Option.bind_eq_some_iff.1 h
    exact hinto p _ _ h
  · obtain ⟨p, -, h⟩ := Option.bind_eq_some_iff.1 h
    exact ⟨_, _, h⟩
  · simp at h
  · simp at h

/-- What a reference tells of its target. -/
theorem resolve?_eq_some {ref : Reference} (h : r.resolve? specifier file = some ref) :
    ref.specifier = specifier ∧ r.target? specifier file = some ref.target ∧
      r.packageOf? ref.target = some ref.package ∧
      ref.isMain = decide ((Specifier.parse specifier).packageName? = some specifier) := by
  unfold resolve? at h
  simp only [Option.pure_def, Option.bind_eq_bind, Option.bind_eq_some_iff, Option.some.injEq] at h
  obtain ⟨target, htarget, package, hpackage, rfl⟩ := h
  refine ⟨rfl, htarget, hpackage, ?_⟩
  -- the two sides decide the equality by different instances
  congr

theorem target_of_resolve? (hl : r.loader.IsPlain) {ref : Reference}
    (h : r.resolve? specifier file = some ref) :
    ref.target.IsPlain ∧ r.tree.isFile ref.target = true := by
  obtain ⟨base, text, hresolve⟩ := exists_resolve?_of_target? (resolve?_eq_some h).2.1
  exact Loader.resolve?_eq_some hl hresolve

theorem target_of_mem_referencesIn (hl : r.loader.IsPlain) {content : String} {ref : Reference}
    (h : ref ∈ r.referencesIn file content) :
    ref.target.IsPlain ∧ r.tree.isFile ref.target = true := by
  obtain ⟨specifier, -, hresolve⟩ := List.mem_filterMap.1 h
  exact target_of_resolve? hl hresolve

theorem target_of_mem_referencesOf (hl : r.loader.IsPlain) {ref : Reference}
    (h : ref ∈ r.referencesOf file) : ref.target.IsPlain ∧ r.tree.isFile ref.target = true := by
  unfold referencesOf at h
  split at h
  · simp at h
  · split at h
    · exact target_of_mem_referencesIn hl h
    · simp at h

/-! ## Components -/

/-- The path of a component lies in the package that it names, or is the main entry there, or
is a step from the directory of the manifest. -/
theorem componentPath?_eq_some {manifest dir path : Path} {p : Package}
    (h : r.componentPath? specifier manifest dir = some (p, path)) :
    (∃ name, r.catalog.nearest? name dir = some p ∧
      ((∃ inside : String, path = p.contentRoot / inside) ∨
        ∃ main, p.mainEntryPath? = some main ∧ path = main.withoutExtension)) ∨
      r.catalog.owner? manifest = some p ∧ ∃ step : String, path = dir / step := by
  unfold componentPath? at h
  split at h
  case h_3 step _ =>
    obtain ⟨q, hq, h⟩ := Option.map_eq_some_iff.1 h
    obtain ⟨rfl, rfl⟩ := Prod.mk.inj h
    exact .inr ⟨hq, step, rfl⟩
  case h_4 => simp at h
  case h_5 => simp at h
  -- the two forms in which a package is named
  all_goals
    obtain ⟨q, hq, h⟩ := Option.map_eq_some_iff.1 h
    split at h
    · next sub _ _ =>
      obtain ⟨rfl, rfl⟩ := Prod.mk.inj h
      exact .inl ⟨_, hq, .inl ⟨sub, rfl⟩⟩
    · split at h
      · next main hmain =>
        obtain ⟨rfl, rfl⟩ := Prod.mk.inj h
        exact .inl ⟨_, hq, .inr ⟨main, hmain, rfl⟩⟩
      · obtain ⟨rfl, rfl⟩ := Prod.mk.inj h
        exact .inl ⟨_, hq, .inl ⟨canonicalStem, rfl⟩⟩

/-- What a component declaration tells of its bundle. -/
theorem resolveComponent?_eq_some {manifest : Path} {ref : ComponentRef}
    (h : r.resolveComponent? specifier manifest = some ref) :
    ∃ path : Path, path.normalize.parent? = some ref.directory ∧
      ref.manifest = ⟨path.normalize.text ++ ".json"⟩ ∧ r.tree.isDirectory ref.directory = true := by
  unfold resolveComponent? at h
  simp only [Option.pure_def, Option.bind_eq_bind, Option.bind_eq_some_iff] at h
  obtain ⟨dir, -, ⟨p, path⟩, -, directory, hparent, h⟩ := h
  split at h
  · next hdir =>
    obtain rfl := Option.some.inj h
    exact ⟨path, hparent, rfl, hdir⟩
  · simp at h

theorem bundle_of_resolveComponent? {manifest : Path} {ref : ComponentRef}
    (h : r.resolveComponent? specifier manifest = some ref) :
    ref.manifest.IsPlain ∧ ref.directory.IsPlain ∧ r.tree.isDirectory ref.directory = true := by
  obtain ⟨path, hparent, hmanifest, hdir⟩ := resolveComponent?_eq_some h
  refine ⟨?_, path.isPlain_normalize.parent? hparent, hdir⟩
  rw [hmanifest, show ".json" = String.ofList ".json".toList by simp]
  exact path.isPlain_normalize.append (by decide) (by decide)

theorem bundle_of_mem_componentsIn {manifest : Path} {json : Json} {ref : ComponentRef}
    (h : ref ∈ r.componentsIn manifest json) :
    ref.manifest.IsPlain ∧ ref.directory.IsPlain ∧ r.tree.isDirectory ref.directory = true := by
  obtain ⟨⟨label, specifier⟩, -, hresolve⟩ := List.mem_filterMap.1 h
  exact bundle_of_resolveComponent? hresolve

end Resolver

end Vendoring
