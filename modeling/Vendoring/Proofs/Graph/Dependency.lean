/-
# The files that a file depends on

The dependency graph of a file, built with nothing remembered, holds exactly the
files that can be reached from its references without passing through the file
itself. Its roots, children and flags are those of the references between them.

The starting file need not be given under its plain spelling. What is remembered
about it then answers for its plain spelling too, but the graph leaves that place
out and never asks for it.
-/

import Vendoring.Graph.Dependency
import Vendoring.Proofs.Graph.Closure
import Vendoring.Proofs.Graph.Memory
import Vendoring.Proofs.Resolver.Spelling
import Vendoring.Proofs.Resolver.Targets

namespace Vendoring

namespace DependencyGraph

/-- The files reached from some references when those of each file are followed,
except those of the starting file. -/
inductive Reachable (edges : Path → List Reference) (entry : Path) (refs : List Reference) :
    Path → Prop
  | root {ref : Reference} : ref ∈ refs → ¬ref.target.SameAs entry →
      Reachable edges entry refs ref.target
  | step {p : Path} {ref : Reference} : Reachable edges entry refs p → ref ∈ edges p →
      ¬ref.target.SameAs entry → Reachable edges entry refs ref.target

/-- The graph shows what can be reached, and what the references on the way say. -/
structure IsExact (edges : Path → List Reference) (entry : Path) (refs : List Reference)
    (g : DependencyGraph) : Prop where
  mem_nodes : ∀ p, p ∈ g.nodes ↔ ∃ q, Reachable edges entry refs q ∧ q.SameAs p
  mem_roots : ∀ p, p ∈ g.roots ↔
    ∃ ref ∈ refs, ¬ref.target.SameAs entry ∧ ref.target.SameAs p
  /-- A place is known by a reference that leads there. -/
  first : ∀ (p : Path) (n : Node Reference), g.nodes[p]? = some n →
    Reachable edges entry refs n.first.target ∧ n.first.target.SameAs p
  mem_children : ∀ (p : Path) (n : Node Reference), g.nodes[p]? = some n → ∀ q, q ∈ n.children ↔
    ∃ ref ∈ edges n.first.target, ¬ref.target.SameAs entry ∧ ref.target.SameAs q
  isRootLevel : ∀ (p : Path) (n : Node Reference), g.nodes[p]? = some n →
    (n.isRootLevel = true ↔ ∃ ref ∈ refs, ref.target.SameAs p)
  isMain : ∀ (p : Path) (n : Node Reference), g.nodes[p]? = some n → (n.isMain = true ↔
    ∃ ref, (ref ∈ refs ∨ ∃ (q : Path) (m : Node Reference), g.nodes[q]? = some m ∧
      ref ∈ edges m.first.target) ∧ ref.target.SameAs p ∧ ref.isMain = true)

end DependencyGraph

namespace Resolver

open DependencyGraph

variable {r : Resolver} {entry : Path} {content : Option String}

/-- The references of a starting file whose text may be given apart from the
tree. -/
def startingReferences (r : Resolver) (entry : Path) (content : Option String)
    (m : Memo Reference) : List Reference :=
  match content with
  | some text => r.referencesIn entry text
  | none => m.answer r.referencesOf entry

/-- What is remembered once the references of the starting file are known. -/
def startingMemo (r : Resolver) (entry : Path) (content : Option String)
    (m : Memo Reference) : Memo Reference :=
  match content with
  | some _ => m
  | none => (m.fetch entry r.referencesOf).2

theorem dependencyGraph_eq (m : Memo Reference) : r.dependencyGraph entry content m =
    Graph.build (r.imports entry) (r.startingReferences entry content m)
      (r.startingMemo entry content m) := by
  cases content <;> rfl

/-- What is remembered of other files than the starting one does not change. -/
theorem answer_startingMemo {m : Memo Reference} {q : Path}
    (hq : content = none → ¬entry.SameAs q) :
    (r.startingMemo entry content m).answer r.referencesOf q = m.answer r.referencesOf q := by
  cases content with
  | some text => rfl
  | none => exact m.answer_fetch_of_not_sameAs r.referencesOf (hq rfl)

/-- What is remembered leads to files under their plain spellings. -/
def Remembers (r : Resolver) (m : Memo Reference) : Prop :=
  m.All fun ref => ref.target.IsPlain ∧ r.tree.isFile ref.target = true

variable {m : Memo Reference}

theorem Remembers.answer (hl : r.loader.IsPlain) (hm : r.Remembers m) {p : Path}
    {ref : Reference} (h : ref ∈ m.answer r.referencesOf p) :
    ref.target.IsPlain ∧ r.tree.isFile ref.target = true :=
  Memo.All.answer hm (fun _ hmem => target_of_mem_referencesOf hl hmem) ref h

theorem Remembers.fetch (hl : r.loader.IsPlain) (hm : r.Remembers m) (p : Path) :
    r.Remembers (m.fetch p r.referencesOf).2 :=
  Memo.All.fetch hm fun _ hmem => target_of_mem_referencesOf hl hmem

theorem Remembers.startingMemo (hl : r.loader.IsPlain) (hm : r.Remembers m) (entry : Path)
    (content : Option String) : r.Remembers (r.startingMemo entry content m) := by
  cases content with
  | some text => exact hm
  | none => exact hm.fetch hl entry

theorem target_of_mem_startingReferences (hl : r.loader.IsPlain) (hm : r.Remembers m)
    {ref : Reference} (h : ref ∈ r.startingReferences entry content m) :
    ref.target.IsPlain ∧ r.tree.isFile ref.target = true := by
  cases content with
  | some text => exact target_of_mem_referencesIn hl h
  | none => exact hm.answer hl h

/-- The graph accounts for the references of the starting file and of everything
that they lead to, and building it changes no answer about a plain path. -/
theorem explored_dependencyGraph (hl : r.loader.IsPlain) (hm : r.Remembers m) (entry : Path)
    (content : Option String) :
    (∃ done, Graph.Explored (r.imports entry)
      ((r.startingMemo entry content m).answer r.referencesOf)
      (r.startingReferences entry content m) done [] (r.dependencyGraph entry content m).1) ∧
    ∀ q, q.IsPlain → (r.dependencyGraph entry content m).2.answer r.referencesOf q =
      (r.startingMemo entry content m).answer r.referencesOf q := by
  rw [dependencyGraph_eq]
  refine Graph.explored_build ?_ ?_ (hm.startingMemo hl entry content)
    fun ref hmem => target_of_mem_startingReferences hl hm hmem
  · exact fun ref href => ⟨href.1, FileTree.isShort_of_isFile href.2⟩
  · exact fun p ref hmem => target_of_mem_referencesOf hl hmem

theorem leadsTo_imports_iff {ref : Reference} {p : Path} :
    (r.imports entry).LeadsTo ref p ↔ ¬ref.target.SameAs entry ∧ ref.target.SameAs p := by
  simp [Links.LeadsTo, imports]

section Known

variable {edges known : Path → List Reference} {refs : List Reference} {ref : Reference}

theorem isPlain_of_reached (hrefs : ∀ ref ∈ refs, ref.target.IsPlain)
    (hplain : ∀ q, ∀ ref ∈ known q, ref.target.IsPlain)
    (h : (r.imports entry).Reached known refs ref) : ref.target.IsPlain := by
  cases h with
  | start hmem => exact hrefs ref hmem
  | onward _ _ hmem => exact hplain _ ref hmem

/-- Files that are reached by what is known of the files on the way can be reached. -/
theorem reachable_of_reached (hknown : ∀ ref, (r.imports entry).Reached known refs ref →
      ¬ref.target.SameAs entry → known ref.target = edges ref.target)
    (h : (r.imports entry).Reached known refs ref) (hentry : ¬ref.target.SameAs entry) :
    Reachable edges entry refs ref.target := by
  induction h with
  | start hmem => exact .root hmem hentry
  | @onward ref next href homits hmem ih =>
    have homits : ¬ref.target.SameAs entry := by simpa [imports] using homits
    refine .step (ih homits) ?_ hentry
    rw [← hknown ref href homits]
    exact hmem

/-- Files that can be reached are reached by what is known of the files on the way. -/
theorem exists_reached_of_reachable (hknown : ∀ ref, (r.imports entry).Reached known refs ref →
      ¬ref.target.SameAs entry → known ref.target = edges ref.target)
    {q : Path} (h : Reachable edges entry refs q) :
    ∃ ref, (r.imports entry).Reached known refs ref ∧ ¬ref.target.SameAs entry ∧
      ref.target = q := by
  induction h with
  | root hmem hentry => exact ⟨_, .start hmem, hentry, rfl⟩
  | @step p ref _ hmem hentry ih =>
    obtain ⟨before, hbefore, hbeforeEntry, rfl⟩ := ih
    rw [← hknown before hbefore hbeforeEntry] at hmem
    exact ⟨ref, .onward hbefore (by simpa [imports] using hbeforeEntry) hmem, hentry, rfl⟩

end Known

/-- Only what is known about the places of the graph decides what it shows. -/
theorem isExact_of_explored {edges known : Path → List Reference} {refs : List Reference}
    {done : List (Reference × Bool)} {g : DependencyGraph}
    (hknown : ∀ q, q.IsPlain → ¬q.SameAs entry → known q = edges q)
    (hrefs : ∀ ref ∈ refs, ref.target.IsPlain)
    (hplain : ∀ q, ∀ ref ∈ known q, ref.target.IsPlain)
    (h : Graph.Explored (r.imports entry) known refs done [] g) :
    IsExact edges entry refs g := by
  have hreached (ref : Reference) (href : (r.imports entry).Reached known refs ref) :
      ref.target.IsPlain := isPlain_of_reached hrefs hplain href
  -- the places of the graph are followed from files that `edges` answers for
  have hedges (ref : Reference) (href : (r.imports entry).Reached known refs ref)
      (hentry : ¬ref.target.SameAs entry) : known ref.target = edges ref.target :=
    hknown _ (hreached ref href) hentry
  have hdescribes (p : Path) (n : Node Reference) (hn : g.nodes[p]? = some n) :
      Reachable edges entry refs n.first.target ∧ n.first.target.SameAs p ∧
        known n.first.target = edges n.first.target ∧ ¬p.SameAs entry := by
    have hn' := h.describes p n hn
    obtain ⟨hentry, hsame⟩ := leadsTo_imports_iff.1 hn'.leads
    exact ⟨reachable_of_reached hedges hn'.reached hentry, hsame, hedges _ hn'.reached hentry,
      fun hp => hentry (hsame.trans hp)⟩
  have hleads (p : Path) (n : Node Reference) (hn : g.nodes[p]? = some n) (ref : Reference) :
      (r.imports entry).LeadsTo ref p ↔ ref.target.SameAs p := by
    refine leadsTo_imports_iff.trans ⟨And.right, fun hsame => ⟨fun hentry => ?_, hsame⟩⟩
    exact (hdescribes p n hn).2.2.2 (hsame.symm.trans hentry)
  constructor
  · intro p
    rw [h.mem_nodes_iff fun ref ref' href href' hsame =>
      hsame.eq_of_isPlain (hreached ref href) (hreached ref' href')]
    constructor
    · rintro ⟨ref, href, hlead⟩
      obtain ⟨hentry, hsame⟩ := leadsTo_imports_iff.1 hlead
      exact ⟨ref.target, reachable_of_reached hedges href hentry, hsame⟩
    · rintro ⟨q, hq, hsame⟩
      obtain ⟨ref, href, hentry, rfl⟩ := exists_reached_of_reachable hedges hq
      exact ⟨ref, href, leadsTo_imports_iff.2 ⟨hentry, hsame⟩⟩
  · intro p
    rw [h.roots, Graph.mem_targets]
    simp only [leadsTo_imports_iff]
  · intro p n hn
    exact ⟨(hdescribes p n hn).1, (hdescribes p n hn).2.1⟩
  · intro p n hn q
    rw [(h.describes p n hn).children, Graph.mem_targets]
    simp only [leadsTo_imports_iff]
    rw [show (r.imports entry).source n.first = n.first.target from rfl,
      (hdescribes p n hn).2.2.1]
  · intro p n hn
    rw [h.isRootLevel_iff hn]
    simp only [hleads p n hn]
  · intro p n hn
    rw [h.isMain_iff hn]
    simp only [hleads p n hn]
    refine exists_congr fun ref => and_congr_left fun _ => or_congr_right ?_
    refine exists_congr fun q => exists_congr fun m => and_congr_right fun hm => ?_
    rw [← (hdescribes q m hm).2.2.1]
    rfl

theorem remembers_empty (r : Resolver) : r.Remembers ∅ := Memo.all_empty

/-- The graph is exact also when some references are remembered, as long as these
are the ones that would be looked up. -/
theorem isExact_of_remembers (hl : r.loader.IsPlain) (hm : r.Remembers m)
    (hanswer : ∀ q, q.IsPlain → m.answer r.referencesOf q = r.referencesOf q) :
    (r.dependencyGraph entry content m).1.IsExact r.referencesOf entry
      (r.startingReferences entry content m) := by
  obtain ⟨⟨done, hexplored⟩, -⟩ := explored_dependencyGraph hl hm entry content
  refine isExact_of_explored ?_ ?_ ?_ hexplored
  · intro q hq hentry
    rw [answer_startingMemo fun _ hsame => hentry hsame.symm, hanswer q hq]
  · exact fun ref hmem => (target_of_mem_startingReferences hl hm hmem).1
  · exact fun q ref hmem => ((hm.startingMemo hl entry content).answer hl hmem).1

/-- The dependency graph of a file is exactly what its references lead to. -/
theorem dependencyGraph_isExact (t : FileTree) (c : Catalog) (entry : Path)
    (content : Option String) :
    let r : Resolver := { tree := t, catalog := c }
    (r.dependencyGraph entry content ∅).1.IsExact r.referencesOf entry
      (content.elim (r.referencesOf entry) (r.referencesIn entry)) := by
  intro r
  have hrefs : content.elim (r.referencesOf entry) (r.referencesIn entry) =
      r.startingReferences entry content ∅ := by
    cases content with
    | some text => rfl
    | none => exact (Memo.answer_empty r.referencesOf entry).symm
  rw [hrefs]
  exact isExact_of_remembers Loader.isPlain_default (remembers_empty r)
    fun q _ => Memo.answer_empty _ _

/-! ## Building the graph with a memory -/

/-- The references of a file, or of the text given in its place. -/
def referencesFrom (r : Resolver) (entry : Path) (content : Option String) : List Reference :=
  match content with
  | some text => r.referencesIn entry text
  | none => r.referencesOf entry

theorem target_of_mem_referencesFrom (hl : r.loader.IsPlain) {ref : Reference}
    (h : ref ∈ r.referencesFrom entry content) :
    ((r.imports entry).source ref).IsPlain ∧ FileTree.IsShort ((r.imports entry).key ref) := by
  have htarget : ref.target.IsPlain ∧ r.tree.isFile ref.target = true := by
    cases content with
    | some text => exact target_of_mem_referencesIn hl h
    | none => exact target_of_mem_referencesOf hl h
  exact ⟨htarget.1, FileTree.isShort_of_isFile htarget.2⟩

/-- What is known of the starting file is what it shows. -/
theorem startingReferences_of_agrees (hm : m.Agrees r.referencesOf)
    (hstart : content = none → r.tree.ReadsAsPlain entry) :
    r.startingReferences entry content m = r.referencesFrom entry content ∧
      (r.startingMemo entry content m).Agrees r.referencesOf := by
  cases content with
  | some text => exact ⟨rfl, hm⟩
  | none =>
    obtain ⟨q, hq, hsame⟩ := entry.exists_isPlain
    have hlook := r.referencesOf_of_readsAsPlain (hstart rfl) hq hsame
    exact ⟨hm.answer hq hsame hlook, hm.fetch hq hsame hlook⟩

/-- A memory that agrees with the tree goes on to agree, and the graph is that of the
walk that always looks up. -/
theorem dependencyGraph_of_agrees (hl : r.loader.IsPlain) (hm : m.Agrees r.referencesOf)
    (hstart : content = none → r.tree.ReadsAsPlain entry) :
    (∃ bound, Graph.walk? (r.imports entry) r.referencesOf bound
      ((r.referencesFrom entry content).map (·, true))
      { roots := Graph.targets (r.imports entry) (r.referencesFrom entry content) } =
        some (r.dependencyGraph entry content m).1) ∧
      (r.dependencyGraph entry content m).2.Agrees r.referencesOf := by
  obtain ⟨hrefs, hmemo⟩ := startingReferences_of_agrees hm hstart
  have hlook (p : Path) (ref : Reference) (hmem : ref ∈ r.referencesFrom p none) :=
    target_of_mem_referencesFrom hl hmem
  rw [dependencyGraph_eq, hrefs]
  exact Graph.build_of_agrees hmemo hlook fun ref => target_of_mem_referencesFrom hl

end Resolver

end Vendoring
