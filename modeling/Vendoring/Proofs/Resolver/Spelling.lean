/-
# References and the spelling of a file

Where a reference leads is looked up around the file that it stands in, and every
such look-up goes by components. So two spellings of one file resolve the same
specifiers to the same targets, and differ in their references only if one of
them cannot be read.
-/

import Vendoring.Graph.Component
import Vendoring.Proofs.FileTree.Spelling
import Vendoring.Proofs.Path.Ancestors

namespace Vendoring

namespace Path

variable {p q r : Path}

theorem SameAs.text_eq_empty (h : p.SameAs q) (hp : p.text = "") : q.text = "" := by
  by_cases hq : q.text = ""
  · exact hq
  · have hne : q.components ≠ [] := components_ne_nil_iff.2 hq
    rw [← h] at hne
    exact absurd hp (components_ne_nil_iff.1 hne)

/-- What is seen from a directory does not depend on how the directory is spelled. -/
theorem SameAs.join (h : p.SameAs q) (r : Path) : (p.join r).SameAs (q.join r) := by
  by_cases hp : p.text = ""
  · rw [join_of_empty hp, join_of_empty (h.text_eq_empty hp)]
    exact Eq.refl r.components
  · exact h.join_left hp

theorem SameAs.div (h : p.SameAs q) (name : String) : (p / name).SameAs (q / name) :=
  h.join ⟨name⟩

theorem SameAs.map_parents (h : p.SameAs q) :
    p.parents.map components = q.parents.map components := by
  rw [map_components_parents, map_components_parents, h]

theorem SameAs.map_parent? (h : p.SameAs q) :
    p.parent?.map components = q.parent?.map components := by
  have hmap := congrArg List.head? h.map_parents
  rwa [List.head?_map, List.head?_map] at hmap

theorem SameAs.exists_parent? (h : p.SameAs q) {dir : Path} (hp : p.parent? = some dir) :
    ∃ dir', q.parent? = some dir' ∧ dir.SameAs dir' := by
  have hmap := h.map_parent?
  rw [hp] at hmap
  obtain ⟨dir', hq, hdir⟩ := Option.map_eq_some_iff.1 hmap.symm
  exact ⟨dir', hq, hdir.symm⟩

theorem SameAs.parent?_getD (h : p.SameAs q) (d : Path) :
    (p.parent?.getD d).SameAs (q.parent?.getD d) := by
  cases hp : p.parent? with
  | none =>
    have hq : q.parent? = none := by simpa [hp] using h.map_parent?.symm
    rw [hq]
    exact Eq.refl d.components
  | some dir =>
    obtain ⟨dir', hq, hdir⟩ := h.exists_parent? hp
    rw [hq]
    exact hdir

theorem map_components_filter {l l' : List Path} (h : l.map components = l'.map components)
    {f : Path → Bool} (hf : ∀ p q, p.SameAs q → f p = f q) :
    (l.filter f).map components = (l'.filter f).map components := by
  induction l generalizing l' with
  | nil =>
    cases l' with
    | nil => rfl
    | cons q l' => simp at h
  | cons p l ih =>
    cases l' with
    | nil => simp at h
    | cons q l' =>
      obtain ⟨hpq, hrest⟩ : p.components = q.components ∧ l.map components = l'.map components := by
        simpa using h
      rw [List.filter_cons, List.filter_cons, hf p q hpq]
      split
      · rw [List.map_cons, List.map_cons, hpq, ih hrest]
      · exact ih hrest

theorem map_components_map {l l' : List Path} (h : l.map components = l'.map components)
    {f : Path → Path} (hf : ∀ p q, p.SameAs q → (f p).SameAs (f q)) :
    (l.map f).map components = (l'.map f).map components := by
  induction l generalizing l' with
  | nil =>
    cases l' with
    | nil => rfl
    | cons q l' => simp at h
  | cons p l ih =>
    cases l' with
    | nil => simp at h
    | cons q l' =>
      obtain ⟨hpq, hrest⟩ : p.components = q.components ∧ l.map components = l'.map components := by
        simpa using h
      have hfpq : (f p).components = (f q).components := hf p q hpq
      rw [List.map_cons, List.map_cons, List.map_cons, List.map_cons, hfpq, ih hrest]

theorem SameAs.extension? (h : p.SameAs q) : p.extension? = q.extension? := by
  rw [Path.extension?, Path.extension?, h.fileName?]

/-- The directories around two spellings of a path in which packages may be
installed. -/
theorem SameAs.map_places (h : p.SameAs q) (name : String) :
    (p.ancestors.filter fun d => !d.endsWithName name).map components =
      (q.ancestors.filter fun d => !d.endsWithName name).map components :=
  map_components_filter h.map_ancestors fun _ _ hsame => by rw [hsame.endsWithName]

end Path

namespace FileKind

theorem ofPath_congr {p q : Path} (h : p.SameAs q) : ofPath p = ofPath q := by
  rw [ofPath, ofPath, h.extension?]

end FileKind

namespace Catalog

variable (c : Catalog) {p q : Path}

theorem nearest?_congr (h : p.SameAs q) (name : String) : c.nearest? name p = c.nearest? name q := by
  have hplaces := Path.findSome?_congr (f := fun d => c.byRoot[d / packageTreeName / name]?)
    (h.map_places packageTreeName) fun d _ d' hsame => ((hsame.div _).div _).getElem? _
  simp only [nearest?, hplaces]

theorem owner?_congr (h : p.SameAs q) : c.owner? p = c.owner? q :=
  Path.findSome?_congr h.map_ancestors fun _ _ _ hsame => hsame.getElem? _

end Catalog

namespace Loader

variable (l : Loader) (t : FileTree) {p q : Path}

theorem loadPath?_congr (h : p.SameAs q) : l.loadPath? t p = l.loadPath? t q := by
  rw [loadPath?, loadPath?, h.normalize_eq]

theorem map_components_installPlaces (h : p.SameAs q) (specifier : String) :
    (installPlaces p specifier).map Path.components =
      (installPlaces q specifier).map Path.components :=
  Path.map_components_map (h.map_places packageTreeName) fun _ _ hsame => (hsame.div _).div _

theorem resolve?_congr (h : p.SameAs q) (specifier : String) :
    l.resolve? t p specifier = l.resolve? t q specifier := by
  have hplaces : (installPlaces p specifier).findSome? (l.loadPath? t) =
      (installPlaces q specifier).findSome? (l.loadPath? t) :=
    Path.findSome?_congr (map_components_installPlaces h specifier)
      fun d _ d' hsame => loadPath?_congr l t hsame
  unfold resolve?
  split
  · rfl
  · rfl
  · exact loadPath?_congr l t (h.join _)
  · exact hplaces
  · exact hplaces

end Loader

namespace Resolver

variable (r : Resolver) {p q : Path}

theorem target?_congr (h : p.SameAs q) (specifier : String) :
    r.target? specifier p = r.target? specifier q := by
  have hdir := h.parent?_getD ⟨"/"⟩
  have hinto (package : Package) (subpath : Option String) :
      r.intoPackage? package subpath (p.parent?.getD ⟨"/"⟩) =
        r.intoPackage? package subpath (q.parent?.getD ⟨"/"⟩) := by
    simp only [intoPackage?, r.loader.resolve?_congr r.tree hdir]
  simp only [target?, hinto, r.catalog.nearest?_congr hdir, r.catalog.owner?_congr h,
    r.loader.resolve?_congr r.tree hdir]

theorem resolve?_congr (h : p.SameAs q) (specifier : String) :
    r.resolve? specifier p = r.resolve? specifier q := by
  rw [resolve?, resolve?, r.target?_congr h]

theorem packageOf?_congr (h : p.SameAs q) : r.packageOf? p = r.packageOf? q := by
  rw [packageOf?, packageOf?, r.catalog.owner?_congr h, h.packageName?]

theorem referencesIn_congr (h : p.SameAs q) (content : String) :
    r.referencesIn p content = r.referencesIn q content := by
  simp only [referencesIn, Scan.dependencies, FileKind.ofPath_congr h, r.resolve?_congr h]

/-- The references of a file are those in its text. -/
theorem referencesOf_of_read {contents : ByteArray} (h : r.tree.read p = .ok contents) :
    r.referencesOf p = r.referencesIn p (Text.decodeLossy contents) := by
  rw [referencesOf, h]
  split
  · next hkind => simp [referencesIn, Scan.dependencies, hkind]
  · rfl

/-- Two spellings of a file under which the same is read have the same references. -/
theorem referencesOf_congr (h : p.SameAs q) (hread : r.tree.read p = r.tree.read q) :
    r.referencesOf p = r.referencesOf q := by
  simp only [referencesOf, FileKind.ofPath_congr h, hread, r.referencesIn_congr h]

/-! ## Components -/

/-- The directory of a manifest decides where its declarations lead. -/
theorem resolveComponent?_congr (h : p.SameAs q) (specifier : String) :
    r.resolveComponent? specifier p = r.resolveComponent? specifier q := by
  cases hp : p.parent? with
  | none =>
    have hq : q.parent? = none := by simpa [hp] using h.map_parent?.symm
    simp [resolveComponent?, hp, hq]
  | some dir =>
    obtain ⟨dir', hq, hdir⟩ := h.exists_parent? hp
    -- a step from the directory keeps the spelling of it until it is normalized
    have hpath : (r.componentPath? specifier p dir).map (fun x => (x.1, x.2.normalize)) =
        (r.componentPath? specifier q dir').map (fun x => (x.1, x.2.normalize)) := by
      have hstep (step : String) : (dir / step).normalize = (dir' / step).normalize :=
        (hdir.div step).normalize_eq
      unfold componentPath?
      rw [r.catalog.owner?_congr h]
      split <;> simp [r.catalog.nearest?_congr hdir, hstep, Function.comp_def]
    cases hfound : r.componentPath? specifier p dir with
    | none =>
      have hfound' : r.componentPath? specifier q dir' = none := by simpa [hfound] using hpath.symm
      simp [resolveComponent?, hp, hq, hfound, hfound']
    | some x =>
      obtain ⟨y, hfound', hy⟩ := Option.map_eq_some_iff.1 (hpath.symm.trans (by rw [hfound]; rfl))
      obtain ⟨hpackage, hnormal⟩ := Prod.mk.inj hy
      simp [resolveComponent?, hp, hq, hfound, hfound', hpackage, hnormal]

theorem componentsIn_congr (h : p.SameAs q) (manifest : Json) :
    r.componentsIn p manifest = r.componentsIn q manifest := by
  simp only [componentsIn, r.resolveComponent?_congr h]

theorem componentsOf_congr (h : p.SameAs q) (hread : r.tree.read p = r.tree.read q) :
    r.componentsOf p = r.componentsOf q := by
  simp only [componentsOf, FileTree.objectD, FileTree.object?, FileTree.readText, hread,
    r.componentsIn_congr h]

/-! ## Files that read as their plain spelling -/

theorem referencesOf_of_readsAsPlain (h : r.tree.ReadsAsPlain p) (hq : q.IsPlain)
    (hsame : p.SameAs q) : r.referencesOf p = r.referencesOf q := by
  have hread := h.read_iff hq hsame
  cases hp : r.tree.read p with
  | ok contents =>
    have hq := (hread contents).1 hp
    exact r.referencesOf_congr hsame (hp.trans hq.symm)
  | error cause =>
    cases hq' : r.tree.read q with
    | ok contents =>
      rw [(hread contents).2 hq'] at hp
      simp at hp
    | error cause' => simp [referencesOf, FileKind.ofPath_congr hsame, hp, hq']

theorem objectD_of_readsAsPlain {t : FileTree} (h : t.ReadsAsPlain p) (hq : q.IsPlain)
    (hsame : p.SameAs q) : t.objectD p = t.objectD q := by
  have hread := h.read_iff hq hsame
  have hobject : t.object? p = t.object? q := by
    unfold FileTree.object? FileTree.readText
    cases hp : t.read p with
    | ok contents => rw [(hread contents).1 hp]
    | error cause =>
      cases hq : t.read q with
      | ok contents =>
        rw [(hread contents).2 hq] at hp
        simp at hp
      | error cause' => rfl
  rw [FileTree.objectD, hobject, FileTree.objectD]

theorem componentsOf_of_readsAsPlain (h : r.tree.ReadsAsPlain p) (hq : q.IsPlain)
    (hsame : p.SameAs q) : r.componentsOf p = r.componentsOf q := by
  rw [componentsOf, componentsOf, objectD_of_readsAsPlain h hq hsame, r.componentsIn_congr hsame]

/-! ## Plain spellings -/

/-- Only a file that can be read refers to something, and it is a file of a kind that
has references. -/
theorem exists_read_of_mem_referencesOf {ref : Reference} (h : ref ∈ r.referencesOf p) :
    FileKind.ofPath p ≠ .other ∧ ∃ contents, r.tree.read p = .ok contents := by
  unfold referencesOf at h
  split at h
  · simp at h
  · next hkind =>
    split at h
    · next contents hread => exact ⟨hkind, contents, hread⟩
    · simp at h

theorem exists_read_of_mem_componentsOf {c : ComponentRef} (h : c ∈ r.componentsOf p) :
    ∃ contents, r.tree.read p = .ok contents := by
  cases hread : r.tree.read p with
  | ok contents => exact ⟨contents, rfl⟩
  | error cause =>
    have hnone : r.tree.objectD p = .object [] := by
      simp [FileTree.objectD, FileTree.object?, FileTree.readText, hread]
    rw [componentsOf, componentsIn, hnone, show componentDeclarations (.object []) = [] from rfl] at h
    simp at h

/-- The plain spelling shows whatever any spelling shows. -/
theorem mem_referencesOf_of_isPlain (hsame : p.SameAs q) (hq : q.IsPlain) {ref : Reference}
    (h : ref ∈ r.referencesOf p) : ref ∈ r.referencesOf q := by
  obtain ⟨-, contents, hread⟩ := r.exists_read_of_mem_referencesOf h
  have hread' := FileTree.read_of_isPlain hsame hq hread
  rwa [← r.referencesOf_congr hsame (hread.trans hread'.symm)]

theorem mem_componentsOf_of_isPlain (hsame : p.SameAs q) (hq : q.IsPlain) {c : ComponentRef}
    (h : c ∈ r.componentsOf p) : c ∈ r.componentsOf q := by
  obtain ⟨contents, hread⟩ := r.exists_read_of_mem_componentsOf h
  have hread' := FileTree.read_of_isPlain hsame hq hread
  rwa [← r.componentsOf_congr hsame (hread.trans hread'.symm)]

end Resolver

end Vendoring
