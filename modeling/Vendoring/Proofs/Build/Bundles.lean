/-
# What a discovery owes to manifests

A bundle is claimed once, and all of its files are claimed with it. A manifest that
was found by listing a directory waits until its own declarations are followed, and
by then every bundle that it declares is claimed. So at any time a manifest that was
collected has its bundles claimed, waits in the queue, or is owed by the walk under
way, unless it was listed under a path too long to be read.

This account is kept beside that of `Covers`, which tells how the files that wait can
be read.
-/

import Vendoring.Proofs.Build.Coverage
import Vendoring.Proofs.Graph.Component

namespace Vendoring

open Catalog Text

/-- The file was found by listing a directory, and declares components. -/
structure OutputFile.IsListedManifest (f : OutputFile) : Prop where
  origin : ∃ place, f.origin = .component place ∨ f.origin = .fullExtract place
  kind : FileKind.ofPath f.source = .manifest

/-- What a file fulfils that is offered to a discovery: it is imported, or it was listed
and waits if it has references. -/
inductive Candidate.IsWaited (c : Candidate) : Prop
  | imported : (∀ p, c.origin p = .dependency p) → IsWaited c
  | listed : c.file.normalize.SameAs c.file →
      c.queued = (FileKind.ofPath c.file).isRewritable → IsWaited c

namespace Discovery

/-- The account of the bundles in a discovery under way. -/
structure Bundles (t : FileTree) (settings : Settings) (exempt : OutputFile → Prop)
    (past : List OutputFile) (owed opened : Path → Prop) (d : Discovery) : Prop where
  bundles : d.session.components.All (ComponentRef.IsBundle t)
  /-- What is remembered of a manifest that is unclaimed or waits is what it shows. -/
  known : ∀ q, q.IsPlain → (q ∉ d.session.claimedFiles ∨ ∃ p ∈ d.pending, p.SameAs q) →
    d.session.components.answer ((Session.start t settings).resolver t).componentsOf q =
      ((Session.start t settings).resolver t).componentsOf q
  /-- The files of a claimed bundle are claimed, save those of a bundle just opened. -/
  listed : ∀ dir ∈ d.session.claimedBundles, dir.IsPlain → ¬opened dir →
    ∀ p ∈ t.filesBelow dir, p ∈ d.session.claimedFiles
  followed : ∀ f ∈ past ++ d.outputs, f.IsListedManifest →
    exempt f ∨ (∃ p ∈ d.pending, p.SameAs f.source) ∨ owed f.source ∨
      ∀ c ∈ ((Session.start t settings).resolver t).componentsOf f.source,
        c.directory ∈ d.session.claimedBundles

namespace Bundles

variable {t : FileTree} {settings : Settings} {exempt : OutputFile → Prop}
variable {past : List OutputFile} {walked : List Path} {owed owed' opened : Path → Prop}
variable {d d' : Discovery}

/-- What is owed can be exchanged for something else, if what no longer is owed has been
dealt with. -/
theorem settle (h : Bundles t settings exempt past owed opened d)
    (hsettled : ∀ f ∈ past ++ d.outputs, f.IsListedManifest → owed f.source →
      exempt f ∨ owed' f.source ∨
        ∀ c ∈ ((Session.start t settings).resolver t).componentsOf f.source,
          c.directory ∈ d.session.claimedBundles) :
    Bundles t settings exempt past owed' opened d := by
  refine { h with followed := fun f hf hmanifest => ?_ }
  rcases h.followed f hf hmanifest with hf' | hf' | hf' | hf'
  · exact .inl hf'
  · exact .inr (.inl hf')
  · rcases hsettled f hf hmanifest hf' with hf' | hf'
    · exact .inl hf'
    · exact .inr (.inr hf')
  · exact .inr (.inr (.inr hf'))

/-- A manifest that was listed waits once it is collected. -/
theorem waits_of_isListedManifest {c : Candidate} (hc : c.IsWaited) (htaken : Taken t c d d')
    {f : OutputFile} (hnew : c.file ∉ d.session.claimedFiles)
    (hyields : c.Yields t d.session.planner f) (hmanifest : f.IsListedManifest) :
    c.file ∈ d'.pending ∧ c.file.SameAs f.source := by
  cases hc with
  | imported horigin =>
    obtain ⟨place, contents, -, -, rfl⟩ := hyields
    obtain ⟨origin, hlisted⟩ := hmanifest.origin
    rw [show (c.output place contents).origin = c.origin place from rfl, horigin] at hlisted
    simp at hlisted
  | listed hnormal hqueued =>
    have hsource : c.file.SameAs f.source := (hyields.sameAs hnormal).symm
    rw [FileKind.ofPath_congr hsource, hmanifest.kind] at hqueued
    exact ⟨htaken.waits_self hnew hqueued hyields, hsource⟩

theorem taken {c : Candidate} (hc : c.IsWaited)
    (h : Bundles t settings exempt past owed opened d) (htaken : Taken t c d d') :
    Bundles t settings exempt past owed opened d' where
  bundles := htaken.components_eq ▸ h.bundles
  known q hq hwaits := by
    rw [htaken.components_eq]
    exact h.known q hq (htaken.unclaimed_or_waits hwaits)
  listed dir hdir hplain hopened p hp := by
    rw [htaken.claimedBundles_eq] at hdir
    exact htaken.claimed (h.listed dir hdir hplain hopened p hp)
  followed f hf hmanifest := by
    rw [htaken.claimedBundles_eq]
    rcases htaken.mem_collected hf with hf | ⟨hnew, hyields⟩
    · refine (h.followed f hf hmanifest).imp_right (Or.imp_left ?_)
      rintro ⟨p, hp, hsame⟩
      exact ⟨p, htaken.waits hp, hsame⟩
    · exact .inr (.inl ⟨c.file, waits_of_isListedManifest hc htaken hnew hyields hmanifest⟩)

theorem steps {cs : List Candidate} (hcs : ∀ c ∈ cs, c.IsWaited)
    (h : Bundles t settings exempt past owed opened d) (hsteps : Steps (Taken t) cs d d') :
    Bundles t settings exempt past owed opened d' :=
  hsteps.invariant (fun c hc _ _ htaken hd => hd.taken (hcs c hc) htaken) h

theorem isWaited_listed {planner : Planner} {package : String} {detectMain : Bool}
    {origin : Placement → Origin} {dir file : Path} (hdir : dir.IsRooted)
    (hfile : file ∈ t.filesBelow dir) :
    (Candidate.listed planner package detectMain origin file).IsWaited :=
  .listed (FileTree.holdsFile_of_mem_filesBelow hdir hfile).isRooted.normalize_sameAs rfl

/-- A walk of imports lists nothing. -/
theorem extractImports {entry : Path} {content : Option String}
    (h : Bundles t settings exempt past owed opened d)
    (hok : d.extractImports t entry content = .ok d') :
    Bundles t settings exempt past owed opened d' := by
  have hsteps := extractImports_eq_ok hok
  rw [Session.dependencyGraph_eq] at hsteps
  generalize (d.session.resolver t).dependencyGraph entry content d.session.references = built
    at hsteps
  obtain ⟨g, m⟩ := built
  have hstart : Bundles t settings exempt past owed opened
      { d with session := { d.session with references := m } } := { h with }
  refine hstart.steps (fun c hc => ?_) hsteps
  obtain ⟨n, -, rfl⟩ := List.mem_map.1 hc
  exact .imported fun p => rfl

/-! ## Components -/

/-- A bundle that is taken is claimed with all of its files. -/
theorem bundle {planner : Planner} {n : Path × Node ComponentRef} (hn : n.2.first.IsRooted)
    (hsame : n.2.first.directory.SameAs n.1)
    (h : Bundles t settings exempt past owed (fun _ => False) d)
    (htaken : TakenBundle t planner n d d') :
    Bundles t settings exempt past owed (fun _ => False) d' := by
  have hmem := htaken.mem_claimedBundles
  cases htaken with
  | known => exact h
  | new events hnew hsteps =>
    have hstart : Bundles t settings exempt past owed n.1.SameAs
        { d with session := d.session.claimDirectory n.1, events := events } := by
      refine { h with listed := ?_, followed := ?_ }
      · intro dir hdir hplain hopened
        exact h.listed dir (((PathMap.mem_insert _ _ _ _).1 hdir).resolve_left hopened) hplain id
      · intro f hf hmanifest
        refine (h.followed f hf hmanifest).imp_right (Or.imp_right (Or.imp_right ?_))
        exact fun hclaimed c hc => (PathMap.mem_insert _ _ _ _).2 (.inr (hclaimed c hc))
    have hcs : ∀ c ∈ Candidate.ofBundle t planner n, c.IsWaited := by
      intro c hc
      obtain ⟨file, hfile, rfl⟩ := List.mem_map.1 hc
      exact isWaited_listed hn.directory hfile
    have hend := hstart.steps hcs hsteps
    refine { hend with listed := fun dir hdir hplain _ p hp => ?_ }
    by_cases hopened : n.1.SameAs dir
    · obtain rfl := (hsame.trans hopened).eq_of_isPlain hn.isPlain hplain
      exact hsteps.claimed_of_mem (List.mem_map.2 ⟨p, hp, rfl⟩)
    · exact hend.listed dir hdir hplain hopened p hp

/-- What is remembered about a manifest that is unclaimed or waits is what it shows, also
once the components of the starting manifest are known. -/
theorem known_startingComponentMemo (h : Bundles t settings exempt past owed opened d)
    {manifest : Path} {content : Option String}
    (hsource : content = none → manifest ∈ d.session.claimedFiles ∧
      ∀ p ∈ d.pending, ¬p.SameAs manifest) (q : Path) (hq : q.IsPlain)
    (hwaits : q ∉ d.session.claimedFiles ∨ ∃ p ∈ d.pending, p.SameAs q) :
    (((Session.start t settings).resolver t).startingComponentMemo manifest content
        d.session.components).answer ((Session.start t settings).resolver t).componentsOf q =
      ((Session.start t settings).resolver t).componentsOf q := by
  rw [Resolver.answer_startingComponentMemo fun hnone => ?_, h.known q hq hwaits]
  exact not_sameAs_of_walked (hsource hnone).1 (hsource hnone).2 hwaits

/-- A walk of components owes nothing in the end: whatever its manifest declares is claimed
by then. -/
theorem extractComponents (htidy : IsTidy t settings) {manifest : Path} {content : Option String}
    (hsource : content.isSome = true ∨
      manifest ∈ d.session.claimedFiles ∧ ∀ p ∈ d.pending, ¬p.SameAs manifest)
    (hcovers : Covers t settings exempt past walked owed' d)
    (h : Bundles t settings exempt past owed (fun _ => False) d)
    (hok : d.extractComponents t manifest content = .ok d') :
    Bundles t settings exempt past owed (fun _ => False) d' ∧
      ∀ c ∈ ((Session.start t settings).resolver t).startingComponents manifest content
        d.session.components, c.directory ∈ d'.session.claimedBundles := by
  have hsteps := extractComponents_eq_ok hok
  rw [Session.componentGraph_eq, hcovers.resolver] at hsteps
  obtain ⟨⟨done, hexplored⟩, hanswer, -, hbundles⟩ :=
    Resolver.explored_componentGraph (r := (Session.start t settings).resolver t) h.bundles
      manifest content
  obtain ⟨hall, -⟩ := htidy.isRooted_componentGraph content hcovers.components
  have hwalked (hnone : content = none) :
      manifest ∈ d.session.claimedFiles ∧ ∀ p ∈ d.pending, ¬p.SameAs manifest :=
    hsource.resolve_left (by simp [hnone])
  have hknown := h.known_startingComponentMemo hwalked
  generalize ((Session.start t settings).resolver t).componentGraph manifest content
    d.session.components = built at hsteps hexplored hanswer hbundles hall
  obtain ⟨g, m⟩ := built
  have hstart : Bundles t settings exempt past owed (fun _ => False)
      { d with session := { d.session with components := m } } :=
    { h with
      bundles := hbundles
      known := fun q hq hwaits => (hanswer q hq).trans (hknown q hq hwaits) }
  refine ⟨hsteps.invariant (fun n hn e e' htaken he => ?_) hstart, fun c hc => ?_⟩
  · have hget := PathMap.getElem?_of_mem_toList _ hn
    exact he.bundle (hall _ _ hget) (hexplored.describes _ _ hget).leads.2 htaken
  · -- the bundle is in the graph, and everything in the graph is taken
    have hdone : (c, true) ∈ done := (hexplored.mem_done_iff _).2 hc
    have hnode : c.directory ∈ g.nodes :=
      (hexplored.mem_nodes _).2 ⟨_, hdone, rfl, Path.SameAs.refl _⟩
    obtain ⟨n, hn, hoffered⟩ := PathMap.exists_mem_toList_of_mem _ hnode
    refine (PathMap.mem_congr _ hoffered).2 ?_
    refine hsteps.forall_mem (Q := fun n e => n.1 ∈ e.session.claimedBundles)
      (fun n e e' htaken => ?_) (fun n b e e' htaken hb => ?_) _ hn
    · exact (htaken.mem_claimedBundles _).2 (.inl (Path.SameAs.refl _))
    · exact (htaken.mem_claimedBundles _).2 (.inr hb)

/-! ## The queue -/

/-- A manifest that comes out of the queue is owed as long as its walk is under way. -/
theorem pop {path : Path} {rest : List Path}
    (h : Bundles t settings exempt past (fun _ => False) opened d)
    (hpending : d.pending = path :: rest) :
    Bundles t settings exempt past (·.SameAs path) opened { d with pending := rest } := by
  refine { h with
    known := fun q hq hwaits => h.known q hq (hwaits.imp_right ?_)
    followed := fun f hf hmanifest => ?_ }
  · rintro ⟨p, hp, hpq⟩
    exact ⟨p, by simp [hpending, hp], hpq⟩
  · rcases h.followed f hf hmanifest with hf' | hwaits | hf' | hclaimed
    · exact .inl hf'
    · rcases waits_of_pending hpending hwaits with hsame | hwaits
      · exact .inr (.inr (.inl hsame))
      · exact .inr (.inl hwaits)
    · exact hf'.elim
    · exact .inr (.inr (.inr hclaimed))

/-- A file that is no manifest declares nothing. -/
theorem settle_of_kind_ne {path : Path}
    (h : Bundles t settings exempt past (·.SameAs path) opened d)
    (hkind : FileKind.ofPath path ≠ .manifest) :
    Bundles t settings exempt past owed opened d := by
  refine h.settle fun f hf hmanifest hsame => ?_
  exact absurd ((FileKind.ofPath_congr hsame).symm.trans hmanifest.kind) hkind

/-- The walk of components settles the manifest that comes out of the queue. -/
theorem walkComponents (htidy : IsTidy t settings) {path : Path} {rest : List Path}
    (hcovers : Covers t settings exempt past walked (fun _ => False) d)
    (h : Bundles t settings exempt past (fun _ => False) (fun _ => False) d)
    (hpending : d.pending = path :: rest)
    (hok : ({ d with pending := rest } : Discovery).extractComponents t path none = .ok d') :
    Bundles t settings exempt past (fun _ => False) (fun _ => False) d' := by
  have hmem : path ∈ d.pending := by simp [hpending]
  obtain ⟨hrooted, hread⟩ := hcovers.waiting path hmem
  have hnormal := hrooted.normalize_sameAs
  have hclaimed := hcovers.queue.claimed path (List.mem_append_right _ hmem)
  have hpopped := hcovers.pop hpending
  obtain ⟨hcovered, hextends⟩ := hpopped.extractComponents htidy hok
  obtain ⟨hend, hdirs⟩ := extractComponents (d := { d with pending := rest }) htidy
    (.inr ⟨hclaimed, hcovers.not_sameAs_of_pending hpending⟩) hpopped (h.pop hpending) hok
  refine hend.settle fun f hf hmanifest hsame => ?_
  have hsource := hcovered.source_eq_normalize hrooted hf hsame
  cases hmemo : d.session.components[path]? with
  | some refs =>
    -- what is remembered was looked up under the plain path
    refine .inr (.inr fun c hc => hdirs c ?_)
    rw [hsource, ← h.known _ path.isPlain_normalize (.inr ⟨path, hmem, hnormal.symm⟩),
      ← Memo.answer_of_sameAs _ _ hnormal.symm hmemo] at hc
    exact hc
  | none =>
    rcases hread with hread | hexempt
    · refine .inr (.inr fun c hc => hdirs c ?_)
      show c ∈ d.session.components.answer _ path
      rw [Memo.answer_of_getElem?_eq_none _ _ hmemo,
        Resolver.componentsOf_congr _ hnormal.symm hread, ← hsource]
      exact hc
    · exact .inl (hexempt f (hextends.mem_collected hf ((PathMap.mem_congr _ hsame).2 hclaimed))
        hsame)

/-- The walk of a file that comes out of the queue. -/
theorem walk (htidy : IsTidy t settings) {path : Path} {rest : List Path}
    (hcovers : Covers t settings exempt past walked (fun _ => False) d)
    (h : Bundles t settings exempt past (fun _ => False) (fun _ => False) d)
    (hpending : d.pending = path :: rest)
    (hok : ({ d with pending := rest } : Discovery).walk t path none = .ok d') :
    Bundles t settings exempt past (fun _ => False) (fun _ => False) d' := by
  have hstart := h.pop hpending
  unfold Discovery.walk at hok
  split at hok
  · next hkind => exact (hstart.extractImports hok).settle_of_kind_ne (by simp [hkind])
  · next hkind => exact (hstart.extractImports hok).settle_of_kind_ne (by simp [hkind])
  · exact walkComponents htidy hcovers h hpending hok
  · next hkind =>
    obtain rfl := Except.ok.inj hok
    exact hstart.settle_of_kind_ne (by simp [hkind])

/-- Once the queue is empty no manifest is owed anything. -/
theorem drain (htidy : IsTidy t settings)
    (hcovers : Covers t settings exempt past [] (fun _ => False) d)
    (h : Bundles t settings exempt past (fun _ => False) (fun _ => False) d)
    (hok : d.drain t = .ok d') :
    Bundles t settings exempt past (fun _ => False) (fun _ => False) d' := by
  obtain ⟨-, walked, -, hend⟩ := drainUpTo_eq_ok
    (P := fun walked e => Covers t settings exempt past walked (fun _ => False) e ∧
      Bundles t settings exempt past (fun _ => False) (fun _ => False) e)
    (fun _ _ _ _ _ he hpending hwalk =>
      ⟨he.1.walk htidy hpending hwalk, he.2.walk htidy he.1 hpending hwalk⟩)
    (fun _ _ he => he.1.queue.length_le) ⟨hcovers, h⟩ (by simp) hok
  exact hend

end Bundles

end Discovery

end Vendoring
