/-
# The bundles that a manifest uses

The component graph of a manifest, built with nothing remembered, has a node for
the directory of each reference that is followed in depth. A bundle is known by
its directory, so of the references to one directory only the first is followed,
and a second component of a bundle, with a manifest of its own beside the first,
adds nothing to the graph. Where a directory decides the manifest, the graph holds
all that can be reached.
-/

import Vendoring.Catalog.Survey
import Vendoring.FileTree.Edit
import Vendoring.Proofs.Graph.Memory
import Vendoring.Proofs.Graph.Order
import Vendoring.Proofs.Resolver.Spelling
import Vendoring.Proofs.Resolver.Targets

namespace Vendoring

/-- The component has its manifest and its bundle under plain spellings, and the bundle
is a directory. -/
structure ComponentRef.IsBundle (t : FileTree) (c : ComponentRef) : Prop where
  manifest : c.manifest.IsPlain
  directory : c.directory.IsPlain
  isDirectory : t.isDirectory c.directory = true

namespace ComponentGraph

/-- The references reached from some references when what their manifests declare
is followed. -/
inductive Reachable (declared : Path → List ComponentRef) (refs : List ComponentRef) :
    ComponentRef → Prop
  | root {c : ComponentRef} : c ∈ refs → Reachable declared refs c
  | step {c next : ComponentRef} : Reachable declared refs c → next ∈ declared c.manifest →
      Reachable declared refs next

/-- The graph shows some references: their directories, and for each directory
what the manifests of the references with that directory declare. -/
structure Shows (declared : Path → List ComponentRef) (P : ComponentRef → Prop)
    (g : ComponentGraph) : Prop where
  mem_nodes : ∀ p, p ∈ g.nodes ↔ ∃ c, P c ∧ c.directory.SameAs p
  mem_children : ∀ (p : Path) (n : Node ComponentRef), g.nodes[p]? = some n →
    ∀ q, q ∈ n.children ↔ ∃ c, P c ∧ c.directory.SameAs p ∧
      ∃ next ∈ declared c.manifest, next.directory.SameAs q

end ComponentGraph

namespace Resolver

open ComponentGraph

variable {r : Resolver} {manifest : Path} {content : Option String} {m : Memo ComponentRef}

/-- The components that a manifest declares, or the text given in its place. -/
def componentsFrom (r : Resolver) (manifest : Path) (content : Option String) :
    List ComponentRef :=
  match content with
  | some text => ((Json.parseObject? text).map (r.componentsIn manifest)).getD []
  | none => r.componentsOf manifest

/-- The components that a starting manifest declares, as far as they are remembered. -/
def startingComponents (r : Resolver) (manifest : Path) (content : Option String)
    (m : Memo ComponentRef) : List ComponentRef :=
  match content with
  | some _ => r.componentsFrom manifest content
  | none => m.answer r.componentsOf manifest

/-- What is remembered once the components of the starting manifest are known. -/
def startingComponentMemo (r : Resolver) (manifest : Path) (content : Option String)
    (m : Memo ComponentRef) : Memo ComponentRef :=
  match content with
  | some _ => m
  | none => (m.fetch manifest r.componentsOf).2

/-- What is remembered of other manifests than the starting one does not change. -/
theorem answer_startingComponentMemo {m : Memo ComponentRef} {q : Path}
    (hq : content = none → ¬manifest.SameAs q) :
    (r.startingComponentMemo manifest content m).answer r.componentsOf q =
      m.answer r.componentsOf q := by
  cases content with
  | some text => rfl
  | none => exact m.answer_fetch_of_not_sameAs r.componentsOf (hq rfl)

theorem componentGraph_eq (m : Memo ComponentRef) : r.componentGraph manifest content m =
    Graph.build r.declarations (r.startingComponents manifest content m)
      (r.startingComponentMemo manifest content m) := by
  cases content <;> rfl

/-- The graph of a walk that ends shows the references that are followed in depth. -/
theorem shows_of_walk? {refs : List ComponentRef} {bound : Nat} {g : ComponentGraph}
    (h : Graph.walk? r.declarations r.componentsOf bound (refs.map (·, true))
      { roots := Graph.targets r.declarations refs } = some g) :
    ∃ followed, r.declarations.InDepth r.componentsOf [] refs followed ∧
      (∀ c ∈ followed, Reachable r.componentsOf refs c) ∧
      g.Shows r.componentsOf (· ∈ followed) := by
  obtain ⟨done, hexplored⟩ := Graph.explored_nil.walk? h
  have hstart : Graph.KnownBy r.declarations []
      { roots := Graph.targets r.declarations refs } := by
    intro p
    simp
  obtain ⟨followed, hdepth, hknown⟩ := hstart.walk? h
  rw [List.map_map, show Prod.fst ∘ (fun c : ComponentRef => (c, true)) = id from rfl,
    List.map_id] at hdepth
  refine ⟨followed, hdepth, ?_, fun p => hknown.mem_nodes_iff, ?_⟩
  · exact hdepth.forall_mem (fun c hc _ next hnext => .step hc hnext) (by simp)
      fun c hc => .root hc
  · intro p n hn q
    obtain ⟨hfirst, hleads⟩ := hknown.first_mem hn
    rw [(hexplored.describes p n hn).children, Graph.mem_targets]
    constructor
    · rintro ⟨next, hnext, -, hsame⟩
      exact ⟨n.first, hfirst, hleads, next, hnext, hsame⟩
    · rintro ⟨c, hc, hdir, next, hnext, hsame⟩
      obtain rfl : c = n.first := hknown.eq_first (hdepth.pairwise .nil) hn hc hdir
      exact ⟨next, hnext, rfl, hsame⟩

theorem reached_iff {refs : List ComponentRef} {c : ComponentRef} :
    r.declarations.Reached r.componentsOf refs c ↔ Reachable r.componentsOf refs c := by
  constructor
  · intro h
    induction h with
    | start hmem => exact .root hmem
    | onward _ _ hmem ih => exact .step ih hmem
  · intro h
    induction h with
    | root hmem => exact .start hmem
    | step _ hmem ih => exact .onward ih rfl hmem

/-- The graph of a walk that ends shows all that is reached, if directories decide
manifests. -/
theorem shows_reachable_of_walk? {refs : List ComponentRef} {bound : Nat} {g : ComponentGraph}
    (h : Graph.walk? r.declarations r.componentsOf bound (refs.map (·, true))
      { roots := Graph.targets r.declarations refs } = some g)
    (hdecides : ∀ c c', Reachable r.componentsOf refs c → Reachable r.componentsOf refs c' →
      c.directory.SameAs c'.directory → c.manifest = c'.manifest) :
    g.Shows r.componentsOf (Reachable r.componentsOf refs) := by
  obtain ⟨done, hexplored⟩ := Graph.explored_nil.walk? h
  constructor
  · intro p
    rw [hexplored.mem_nodes_iff fun c c' hc hc' => hdecides c c' (reached_iff.1 hc) (reached_iff.1 hc')]
    constructor
    · rintro ⟨c, hc, -, hsame⟩
      exact ⟨c, reached_iff.1 hc, hsame⟩
    · rintro ⟨c, hc, hsame⟩
      exact ⟨c, reached_iff.2 hc, rfl, hsame⟩
  · intro p n hn q
    have hdescribes := hexplored.describes p n hn
    have hfirst := reached_iff.1 hdescribes.reached
    rw [hdescribes.children, Graph.mem_targets]
    constructor
    · rintro ⟨next, hnext, -, hsame⟩
      exact ⟨n.first, hfirst, hdescribes.leads.2, next, hnext, hsame⟩
    · rintro ⟨c, hc, hdir, next, hnext, hsame⟩
      have hmanifest := hdecides c n.first hc hfirst (hdir.trans hdescribes.leads.2.symm)
      rw [hmanifest] at hnext
      exact ⟨next, hnext, rfl, hsame⟩

/-! ## Building the graph -/

/-- What is known of the starting manifest is what it declares. -/
theorem startingComponents_of_agrees (hm : m.Agrees r.componentsOf)
    (hstart : content = none → r.tree.ReadsAsPlain manifest) :
    r.startingComponents manifest content m = r.componentsFrom manifest content ∧
      (r.startingComponentMemo manifest content m).Agrees r.componentsOf := by
  cases content with
  | some text => exact ⟨rfl, hm⟩
  | none =>
    obtain ⟨q, hq, hsame⟩ := manifest.exists_isPlain
    have hlook := r.componentsOf_of_readsAsPlain (hstart rfl) hq hsame
    exact ⟨hm.answer hq hsame hlook, hm.fetch hq hsame hlook⟩

theorem exists_of_mem_componentsFrom {c : ComponentRef}
    (h : c ∈ r.componentsFrom manifest content) : ∃ json, c ∈ r.componentsIn manifest json := by
  cases content with
  | some text =>
    simp only [componentsFrom] at h
    cases hparse : Json.parseObject? text with
    | none => simp [hparse] at h
    | some json => exact ⟨json, by simpa [hparse] using h⟩
  | none => exact ⟨_, h⟩

theorem isBundle_of_mem_componentsIn {json : Json} {c : ComponentRef}
    (h : c ∈ r.componentsIn manifest json) : c.IsBundle r.tree := by
  obtain ⟨hmanifest, hplain, hdir⟩ := bundle_of_mem_componentsIn h
  exact ⟨hmanifest, hplain, hdir⟩

theorem isBundle_of_mem_componentsFrom {c : ComponentRef}
    (h : c ∈ r.componentsFrom manifest content) : c.IsBundle r.tree := by
  obtain ⟨json, hmem⟩ := exists_of_mem_componentsFrom h
  exact isBundle_of_mem_componentsIn hmem

/-- The graph accounts for the components of the starting manifest and of everything that
they lead to, and building it changes no answer about a plain path. -/
theorem explored_componentGraph (hm : m.All (ComponentRef.IsBundle r.tree)) (manifest : Path)
    (content : Option String) :
    (∃ done, Graph.Explored r.declarations
      ((r.startingComponentMemo manifest content m).answer r.componentsOf)
      (r.startingComponents manifest content m) done [] (r.componentGraph manifest content m).1) ∧
    (∀ q, q.IsPlain → (r.componentGraph manifest content m).2.answer r.componentsOf q =
      (r.startingComponentMemo manifest content m).answer r.componentsOf q) ∧
    (r.componentGraph manifest content m).1.All (ComponentRef.IsBundle r.tree) ∧
    (r.componentGraph manifest content m).2.All (ComponentRef.IsBundle r.tree) := by
  have hlook (p : Path) : ∀ c ∈ r.componentsOf p, c.IsBundle r.tree :=
    fun c hc => isBundle_of_mem_componentsIn hc
  have hstart : (r.startingComponentMemo manifest content m).All (ComponentRef.IsBundle r.tree) := by
    cases content with
    | some text => exact hm
    | none => exact hm.fetch (hlook manifest)
  have hrefs : ∀ c ∈ r.startingComponents manifest content m, c.IsBundle r.tree := by
    cases content with
    | some text =>
      exact fun c (hc : c ∈ r.componentsFrom manifest (some text)) =>
        isBundle_of_mem_componentsFrom hc
    | none => exact hm.answer (hlook manifest)
  have hshort (c : ComponentRef) (hc : c.IsBundle r.tree) :
      (r.declarations.source c).IsPlain ∧ FileTree.IsShort (r.declarations.key c) :=
    ⟨hc.manifest, FileTree.isShort_of_isDirectory hc.isDirectory⟩
  rw [componentGraph_eq]
  obtain ⟨hexplored, hanswer⟩ := Graph.explored_build hshort hlook hstart hrefs
  exact ⟨hexplored, hanswer, Graph.all_build (fun c _ => hlook c.manifest) hstart hrefs⟩

theorem mem_componentsFrom {c : ComponentRef} (h : c ∈ r.componentsFrom manifest content) :
    (r.declarations.source c).IsPlain ∧ FileTree.IsShort (r.declarations.key c) := by
  have hbundle : c.IsBundle r.tree := isBundle_of_mem_componentsFrom h
  exact ⟨hbundle.manifest, FileTree.isShort_of_isDirectory hbundle.isDirectory⟩

/-- A memory that agrees with the tree goes on to agree, and the graph is that of the
walk that always looks up. -/
theorem componentGraph_of_agrees (hm : m.Agrees r.componentsOf)
    (hstart : content = none → r.tree.ReadsAsPlain manifest) :
    (∃ bound, Graph.walk? r.declarations r.componentsOf bound
      ((r.componentsFrom manifest content).map (·, true))
      { roots := Graph.targets r.declarations (r.componentsFrom manifest content) } =
        some (r.componentGraph manifest content m).1) ∧
      (r.componentGraph manifest content m).2.Agrees r.componentsOf := by
  obtain ⟨hrefs, hmemo⟩ := startingComponents_of_agrees hm hstart
  have hlook (p : Path) (c : ComponentRef) (hc : c ∈ r.componentsFrom p none) :=
    mem_componentsFrom hc
  rw [componentGraph_eq, hrefs]
  exact Graph.build_of_agrees hmemo hlook fun c => mem_componentsFrom

/-- A manifest that cannot be read declares nothing. -/
theorem componentsOf_of_not_readsAsPlain (h : ¬r.tree.ReadsAsPlain manifest) :
    r.componentsOf manifest = [] := by
  cases hread : r.tree.read manifest with
  | ok contents =>
    refine absurd ?_ h
    intro q contents' hq hsame hread'
    rw [FileTree.read_of_isPlain hsame hq hread] at hread'
    rwa [← hread']
  | error cause =>
    simp [componentsOf, componentsIn, FileTree.objectD, FileTree.object?, FileTree.readText, hread,
      componentDeclarations, Json.get?]

/-- The component graph of a manifest shows the references that are followed in
depth, and all that can be reached if the manifests of references to one directory
are the same. -/
theorem componentGraph_shows (t : FileTree) (c : Catalog) (manifest : Path)
    (content : Option String) :
    let r : Resolver := { tree := t, catalog := c }
    let refs := r.componentsFrom manifest content
    let g := (r.componentGraph manifest content ∅).1
    (∃ followed, r.declarations.InDepth r.componentsOf [] refs followed ∧
      (∀ c ∈ followed, Reachable r.componentsOf refs c) ∧
      g.Shows r.componentsOf (· ∈ followed)) ∧
    ((∀ c c', Reachable r.componentsOf refs c → Reachable r.componentsOf refs c' →
        c.directory.SameAs c'.directory → c.manifest = c'.manifest) →
      g.Shows r.componentsOf (Reachable r.componentsOf refs)) := by
  intro r refs g
  obtain ⟨bound, hwalk⟩ : ∃ bound, Graph.walk? r.declarations r.componentsOf bound
      (refs.map (·, true)) { roots := Graph.targets r.declarations refs } = some g := by
    by_cases hstart : content = none → r.tree.ReadsAsPlain manifest
    · exact (componentGraph_of_agrees (Memo.agrees_empty r.componentsOf) hstart).1
    · -- what cannot be read under this spelling leads nowhere
      obtain ⟨rfl, hread⟩ := Classical.not_imp.1 hstart
      have hnil : r.componentsOf manifest = [] := componentsOf_of_not_readsAsPlain hread
      refine ⟨0, ?_⟩
      rw [show g = _ from congrArg Prod.fst (componentGraph_eq ∅), startingComponents,
        Memo.answer_empty, show refs = r.componentsOf manifest from rfl, hnil, Graph.build_nil]
      exact Graph.walk?_of_none rfl
  exact ⟨shows_of_walk? hwalk, shows_reachable_of_walk? hwalk⟩

end Resolver

/-! ## Two components in one directory -/

/-- A package with two components, of which the second uses another package. -/
def twinTree : FileTree :=
  FileTree.ofEntries [(["node_modules"], .directory), (["node_modules", "p"], .directory),
    (["node_modules", "p", "a.json"], .file "".toUTF8),
    (["node_modules", "p", "b.json"],
      .file "\x7b\"usingComponents\":\x7b\"x\":\"q/x\"\x7d\x7d".toUTF8),
    (["node_modules", "q"], .directory)]

/-- The packages of that tree. -/
def twinCatalog : Catalog :=
  Catalog.survey twinTree {} ⟨"/node_modules"⟩

/-- A page that uses the given components. -/
def pageUsing (members : String) : String :=
  "\x7b\"usingComponents\":\x7b" ++ members ++ "\x7d\x7d"

namespace ComponentRef

/-- The first component of the package. -/
def twinA : ComponentRef := ⟨"p/a", "p", ⟨"/node_modules/p"⟩, ⟨"/node_modules/p/a.json"⟩⟩

/-- The second component of the package. -/
def twinB : ComponentRef := ⟨"p/b", "p", ⟨"/node_modules/p"⟩, ⟨"/node_modules/p/b.json"⟩⟩

/-- The component that the second one uses. -/
def twinX : ComponentRef := ⟨"q/x", "q", ⟨"/node_modules/q"⟩, ⟨"/node_modules/q/x.json"⟩⟩

end ComponentRef

open ComponentGraph ComponentRef

theorem componentsOf_twinB :
    Resolver.componentsOf { tree := twinTree, catalog := twinCatalog } twinB.manifest = [twinX] := by
  decide +kernel

/-- A page that uses the second component only has a graph with all that it
reaches. -/
theorem Resolver.componentGraph_shows_twin :
    let r : Resolver := { tree := twinTree, catalog := twinCatalog }
    (r.componentGraph ⟨"/page.json"⟩ (some (pageUsing "\"b\":\"p/b\"")) ∅).1.Shows r.componentsOf
      (Reachable r.componentsOf [twinB]) := by
  intro r
  have hrefs : r.componentsFrom ⟨"/page.json"⟩ (some (pageUsing "\"b\":\"p/b\"")) = [twinB] := by
    decide +kernel
  have hlast : r.componentsOf twinX.manifest = [] := by decide +kernel
  have hall (c : ComponentRef) (hc : Reachable r.componentsOf [twinB] c) : c = twinB ∨ c = twinX := by
    induction hc with
    | root hmem => exact .inl (List.mem_singleton.1 hmem)
    | step _ hmem ih =>
      rcases ih with rfl | rfl
      · rw [componentsOf_twinB] at hmem
        exact .inr (List.mem_singleton.1 hmem)
      · simp [hlast] at hmem
  have hshows := (componentGraph_shows twinTree twinCatalog ⟨"/page.json"⟩
    (some (pageUsing "\"b\":\"p/b\""))).2
  rw [show Resolver.componentsFrom _ _ _ = _ from hrefs] at hshows
  refine hshows fun c c' hc hc' hsame => ?_
  rcases hall c hc with rfl | rfl <;> rcases hall c' hc' with rfl | rfl
  · rfl
  · exact absurd hsame (by decide)
  · exact absurd hsame (by decide)
  · rfl

/-- What only the second component of a directory declares can be reached, but is
missing from the graph. -/
theorem Resolver.exists_not_shows_reachable :
    ∃ (t : FileTree) (c : Catalog) (manifest : Path) (content : Option String),
      let r : Resolver := { tree := t, catalog := c }
      ¬(r.componentGraph manifest content ∅).1.Shows r.componentsOf
        (Reachable r.componentsOf (r.componentsFrom manifest content)) := by
  refine ⟨twinTree, twinCatalog, ⟨"/page.json"⟩,
    some (pageUsing "\"a\":\"p/a\",\"b\":\"p/b\""), ?_⟩
  intro r hshows
  have hrefs : r.componentsFrom ⟨"/page.json"⟩
      (some (pageUsing "\"a\":\"p/a\",\"b\":\"p/b\"")) = [twinA, twinB] := by
    decide +kernel
  have hmissing : (r.componentGraph ⟨"/page.json"⟩
      (some (pageUsing "\"a\":\"p/a\",\"b\":\"p/b\"")) ∅).1.nodes.contains twinX.directory =
        false := by
    decide +kernel
  have hreached : Reachable r.componentsOf [twinA, twinB] twinX :=
    .step (.root (List.mem_cons_of_mem _ (List.mem_singleton.2 rfl)))
      (by rw [componentsOf_twinB]; exact List.mem_singleton.2 rfl)
  rw [hrefs] at hshows
  have hmem := Std.TreeMap.contains_iff_mem.2 ((hshows.mem_nodes _).2 ⟨twinX, hreached, rfl⟩)
  rw [hmissing] at hmem
  exact absurd hmem (by decide)

end Vendoring
