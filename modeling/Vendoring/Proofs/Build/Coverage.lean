/-
# What a discovery owes

A file is claimed once, and its references are followed once: by the walk that
claims it, or later when it comes out of the queue. So at any time every file that
was collected has its references claimed, waits in the queue, or is owed by the
walk under way. Files that are listed under a path too long to be read are exempt,
since their walk finds nothing.

What is remembered about a file is what its plain path shows, as long as the file
is unclaimed or waits. So a walk that claims a file has gone through the very
references that the file has.
-/

import Vendoring.Proofs.Build.Queue
import Vendoring.Proofs.Build.Tidy
import Vendoring.Proofs.Resolver.Spelling

namespace Vendoring

open Catalog Text

/-- What a file fulfils that is offered to a discovery. If it waits it can be read
under the path that it waits by, or is exempt; if not, it is owed or has no
references. Nothing is asked of a file that is claimed. -/
structure Candidate.Fits (t : FileTree) (settings : Settings) (exempt : OutputFile → Prop)
    (owed : Path → Prop) (claimed : PathSet) (c : Candidate) : Prop where
  holdsFile : t.HoldsFile c.file
  origin : ∀ p, c.origin p ≠ .input
  waiting : c.queued = true → c.file ∉ claimed →
    (∀ contents, t.read c.file.normalize = .ok contents → t.read c.file = .ok contents) ∨
      ∀ p contents, p.source.SameAs c.file → exempt (c.output p contents)
  followed : c.queued = false → c.file ∉ claimed → owed c.file.normalize ∨
    ((Session.start t settings).resolver t).referencesOf c.file.normalize = []

/-- The file was collected by a discovery that claimed it. -/
structure OutputFile.IsCollected (t : FileTree) (claimed : PathSet) (f : OutputFile) : Prop where
  origin : f.origin ≠ .input
  isPlain : f.source.IsPlain
  isRooted : f.source.IsRooted
  mem_claimed : f.source ∈ claimed
  read : ∃ contents, t.read f.source = .ok contents

namespace Discovery

/-- The account of a discovery under way, after discoveries that collected the files
in `past`. -/
structure Covers (t : FileTree) (settings : Settings) (exempt : OutputFile → Prop)
    (past : List OutputFile) (walked : List Path) (owed : Path → Prop) (d : Discovery) :
    Prop where
  catalog_eq : d.session.catalog = (Session.start t settings).catalog
  settings_eq : d.session.settings = settings
  queue : d.IsQueued walked
  references : d.session.references.All (Reference.IsInstalled t)
  components : d.session.components.All ComponentRef.IsRooted
  /-- What is remembered of a file that is unclaimed or waits is what it shows. -/
  known : ∀ q, q.IsPlain → (q ∉ d.session.claimedFiles ∨ ∃ p ∈ d.pending, p.SameAs q) →
    d.session.references.answer ((Session.start t settings).resolver t).referencesOf q =
      ((Session.start t settings).resolver t).referencesOf q
  /-- A file that waits can be read under the path that it waits by, or is exempt. -/
  waiting : ∀ p ∈ d.pending, p.IsRooted ∧ (t.read p = t.read p.normalize ∨
    ∀ f ∈ past ++ d.outputs, f.source.SameAs p → exempt f)
  collected : ∀ f ∈ past ++ d.outputs, f.IsCollected t d.session.claimedFiles
  /-- A claimed file behind a package tree has been collected. -/
  emitted : ∀ p ∈ d.session.claimedFiles, p.HasTree → ∃ f ∈ past ++ d.outputs, f.source.SameAs p
  followed : ∀ f ∈ past ++ d.outputs, exempt f ∨ (∃ p ∈ d.pending, p.SameAs f.source) ∨
    owed f.source ∨ ∀ ref ∈ ((Session.start t settings).resolver t).referencesOf f.source,
      ref.target ∈ d.session.claimedFiles

/-- The discovery has gone on from another: what was claimed stays claimed, and is
not collected again. -/
structure Extends (d d' : Discovery) : Prop where
  claimed : ∀ p ∈ d.session.claimedFiles, p ∈ d'.session.claimedFiles
  outputs : ∀ f ∈ d'.outputs, f.source ∈ d.session.claimedFiles → f ∈ d.outputs

theorem Extends.refl (d : Discovery) : Extends d d :=
  ⟨fun _ hp => hp, fun _ hf _ => hf⟩

theorem Extends.trans {d d' d'' : Discovery} (h : Extends d d') (h' : Extends d' d'') :
    Extends d d'' where
  claimed p hp := h'.claimed p (h.claimed p hp)
  outputs f hf hold := h.outputs f (h'.outputs f hf (h.claimed _ hold)) hold

theorem Extends.taken {t : FileTree} {c : Candidate} {d e e' : Discovery} (h : Extends d e)
    (hnormal : c.file.normalize.SameAs c.file) (htaken : Taken t c e e') : Extends d e' where
  claimed p hp := htaken.claimed (h.claimed p hp)
  outputs f hf hold := by
    rcases htaken.mem_outputs hf with hf | ⟨hnew, hyields⟩
    · exact h.outputs f hf hold
    · -- a file that is collected by this step was not claimed before
      have hclaimed := h.claimed _ hold
      exact absurd ((PathMap.mem_congr _ (hyields.sameAs hnormal)).1 hclaimed) hnew

/-- What is collected later is none of the files that were claimed before. -/
theorem Extends.mem_collected {d d' : Discovery} {past : List OutputFile} {f : OutputFile}
    (h : Extends d d') (hf : f ∈ past ++ d'.outputs) (hold : f.source ∈ d.session.claimedFiles) :
    f ∈ past ++ d.outputs := by
  rcases List.mem_append.1 hf with hf | hf
  · exact List.mem_append_left _ hf
  · exact List.mem_append_right _ (h.outputs f hf hold)

/-- A claimed file that does not wait is no other spelling of one that is unclaimed or waits. -/
theorem not_sameAs_of_walked {d : Discovery} {path q : Path}
    (hclaimed : path ∈ d.session.claimedFiles) (hpending : ∀ p ∈ d.pending, ¬p.SameAs path)
    (hwaits : q ∉ d.session.claimedFiles ∨ ∃ p ∈ d.pending, p.SameAs q) : ¬path.SameAs q := by
  intro hsame
  rcases hwaits with hnot | ⟨p, hp, hpq⟩
  · exact hnot ((PathMap.mem_congr _ hsame).1 hclaimed)
  · exact hpending p hp (hpq.trans hsame.symm)

/-- What waits in front of a queue is the file that comes out next, or goes on waiting. -/
theorem waits_of_pending {d : Discovery} {path q : Path} {rest : List Path}
    (hpending : d.pending = path :: rest) (hwaits : ∃ p ∈ d.pending, p.SameAs q) :
    q.SameAs path ∨ ∃ p ∈ rest, p.SameAs q := by
  obtain ⟨p, hp, hsame⟩ := hwaits
  rw [hpending] at hp
  rcases List.mem_cons.1 hp with rfl | hp
  · exact .inl hsame.symm
  · exact .inr ⟨p, hp, hsame⟩

namespace Covers

variable {t : FileTree} {settings : Settings} {exempt : OutputFile → Prop}
variable {past : List OutputFile} {walked : List Path} {owed owed' : Path → Prop}
variable {d d' : Discovery}

theorem resolver (h : Covers t settings exempt past walked owed d) :
    d.session.resolver t = (Session.start t settings).resolver t := by
  rw [Session.resolver, h.catalog_eq]
  rfl

theorem planner (h : Covers t settings exempt past walked owed d) :
    d.session.planner = (Session.start t settings).planner := by
  rw [Session.planner, h.catalog_eq, h.settings_eq]
  rfl

/-- What is owed can be exchanged for something else, if what no longer is owed has
been dealt with. -/
theorem settle (h : Covers t settings exempt past walked owed d)
    (hsettled : ∀ f ∈ past ++ d.outputs, owed f.source → exempt f ∨ owed' f.source ∨
      ∀ ref ∈ ((Session.start t settings).resolver t).referencesOf f.source,
        ref.target ∈ d.session.claimedFiles) :
    Covers t settings exempt past walked owed' d := by
  refine { h with followed := fun f hf => ?_ }
  rcases h.followed f hf with hf' | hf' | hf' | hf'
  · exact .inl hf'
  · exact .inr (.inl hf')
  · rcases hsettled f hf hf' with hf' | hf'
    · exact .inl hf'
    · exact .inr (.inr hf')
  · exact .inr (.inr (.inr hf'))

section Taken

variable {c : Candidate}

theorem waiting_taken (hc : c.Fits t settings exempt owed d.session.claimedFiles)
    (h : Covers t settings exempt past walked owed d) (htaken : Taken t c d d') :
    ∀ p ∈ d'.pending, p.IsRooted ∧ (t.read p = t.read p.normalize ∨
      ∀ f ∈ past ++ d'.outputs, f.source.SameAs p → exempt f) := by
  have hnormal := hc.holdsFile.isRooted.normalize_sameAs
  intro p hp
  rcases htaken.mem_pending hp with hp | ⟨rfl, hqueued, hnew, f, hyields⟩
  · obtain ⟨hrooted, hwaits⟩ := h.waiting p hp
    refine ⟨hrooted, hwaits.imp_right fun hexempt f hf hsame => ?_⟩
    rcases htaken.mem_collected hf with hf | ⟨hnew, hyields⟩
    · exact hexempt f hf hsame
    · -- the file that waits is claimed, the one that is collected was not
      have hclaimed := h.queue.claimed p (List.mem_append_right _ hp)
      have hfile : p.SameAs c.file := hsame.symm.trans (hyields.sameAs hnormal)
      exact absurd ((PathMap.mem_congr _ hfile).1 hclaimed) hnew
  · refine ⟨hc.holdsFile.isRooted, (hc.waiting hqueued hnew).imp (fun hlisted => ?_) ?_⟩
    · obtain ⟨contents, hread⟩ := hyields.read
      rw [hyields.source_eq] at hread
      exact (hlisted contents hread).trans hread.symm
    · intro hexempt f hf hsame
      rcases htaken.mem_collected hf with hf | ⟨-, place, contents, -, -, rfl⟩
      · exact absurd ((PathMap.mem_congr _ hsame).1 (h.collected f hf).mem_claimed) hnew
      · exact hexempt place contents hsame

theorem collected_taken (hc : c.Fits t settings exempt owed d.session.claimedFiles)
    (h : Covers t settings exempt past walked owed d) (htaken : Taken t c d d') :
    ∀ f ∈ past ++ d'.outputs, f.IsCollected t d'.session.claimedFiles := by
  intro f hf
  rcases htaken.mem_collected hf with hf | ⟨-, hyields⟩
  · have hold := h.collected f hf
    exact { hold with mem_claimed := htaken.claimed hold.mem_claimed }
  · have hsame := hyields.sameAs hc.holdsFile.isRooted.normalize_sameAs
    refine ⟨?_, ?_, hsame.symm.isRooted hc.holdsFile.isRooted,
      (htaken.mem_claimedFiles _).2 (.inl hsame.symm), hyields.read⟩
    · obtain ⟨place, contents, -, -, rfl⟩ := hyields
      exact hc.origin place
    · rw [hyields.source_eq]
      exact Path.isPlain_normalize _

/-- A file behind a tree has a place, so it is collected when it is claimed. -/
theorem emitted_taken (htidy : IsTidy t settings)
    (hc : c.Fits t settings exempt owed d.session.claimedFiles)
    (h : Covers t settings exempt past walked owed d) (htaken : Taken t c d d') :
    ∀ p ∈ d'.session.claimedFiles, p.HasTree → ∃ f ∈ past ++ d'.outputs, f.source.SameAs p := by
  intro p hp htree
  by_cases hold : p ∈ d.session.claimedFiles
  · obtain ⟨f, hf, hsource⟩ := h.emitted p hold htree
    exact ⟨f, htaken.collected hf, hsource⟩
  · have hsame : c.file.SameAs p := ((htaken.mem_claimedFiles p).1 hp).resolve_right hold
    have hnew : c.file ∉ d.session.claimedFiles := fun hfile =>
      hold ((PathMap.mem_congr _ hsame).1 hfile)
    obtain ⟨place, hplace⟩ := Planner.exists_place? (r := (Session.start t settings).planner)
      (isSurvey_survey t _ _) htidy.isRooted htidy.hasTree htidy.noFile hc.holdsFile
      (hsame.symm.hasTree htree) c.package c.isMain
    rw [← h.planner] at hplace
    obtain ⟨f, hf, hsource⟩ := htaken.exists_collected hnew hplace
    refine ⟨f, List.mem_append_right _ hf, ?_⟩
    rw [hsource, Planner.source_of_place? hplace]
    exact hc.holdsFile.isRooted.normalize_sameAs.trans hsame

theorem followed_taken (hc : c.Fits t settings exempt owed d.session.claimedFiles)
    (h : Covers t settings exempt past walked owed d) (htaken : Taken t c d d') :
    ∀ f ∈ past ++ d'.outputs, exempt f ∨ (∃ p ∈ d'.pending, p.SameAs f.source) ∨
      owed f.source ∨ ∀ ref ∈ ((Session.start t settings).resolver t).referencesOf f.source,
        ref.target ∈ d'.session.claimedFiles := by
  intro f hf
  rcases htaken.mem_collected hf with hf | ⟨hnew, hyields⟩
  · rcases h.followed f hf with hf' | ⟨p, hp, hsource⟩ | hf' | hrefs
    · exact .inl hf'
    · exact .inr (.inl ⟨p, htaken.waits hp, hsource⟩)
    · exact .inr (.inr (.inl hf'))
    · exact .inr (.inr (.inr fun ref href => htaken.claimed (hrefs ref href)))
  · cases hqueued : c.queued with
    | true =>
      have hsame := hyields.sameAs hc.holdsFile.isRooted.normalize_sameAs
      exact .inr (.inl ⟨c.file, htaken.waits_self hnew hqueued hyields, hsame.symm⟩)
    | false =>
      rw [hyields.source_eq]
      refine .inr (.inr ((hc.followed hqueued hnew).imp_right fun hnil ref href => ?_))
      simp [hnil] at href

/-- Taking a file that fits keeps the account. -/
theorem taken (htidy : IsTidy t settings)
    (hc : c.Fits t settings exempt owed d.session.claimedFiles)
    (h : Covers t settings exempt past walked owed d) (htaken : Taken t c d d') :
    Covers t settings exempt past walked owed d' where
  catalog_eq := htaken.catalog_eq.trans h.catalog_eq
  settings_eq := htaken.settings_eq.trans h.settings_eq
  queue := h.queue.taken htaken fun _ => hc.holdsFile.isRooted.normalize_sameAs
  references := htaken.references_eq ▸ h.references
  components := htaken.components_eq ▸ h.components
  known q hq hwaits := by
    rw [htaken.references_eq]
    exact h.known q hq (htaken.unclaimed_or_waits hwaits)
  waiting := h.waiting_taken hc htaken
  collected := h.collected_taken hc htaken
  emitted := h.emitted_taken htidy hc htaken
  followed := h.followed_taken hc htaken

end Taken

theorem steps (htidy : IsTidy t settings) {cs : List Candidate}
    (hcs : ∀ c ∈ cs, c.Fits t settings exempt owed d.session.claimedFiles)
    (h : Covers t settings exempt past walked owed d) (hsteps : Steps (Taken t) cs d d') :
    Covers t settings exempt past walked owed d' ∧ Extends d d' := by
  refine hsteps.invariant (P := fun e => Covers t settings exempt past walked owed e ∧
    Extends d e) ?_ ⟨h, .refl d⟩
  rintro c hc e e' htaken ⟨he, hextends⟩
  have hfits : c.Fits t settings exempt owed e.session.claimedFiles :=
    { hcs c hc with
      waiting := fun hqueued hnew =>
        (hcs c hc).waiting hqueued fun hold => hnew (hextends.claimed _ hold)
      followed := fun hqueued hnew =>
        (hcs c hc).followed hqueued fun hold => hnew (hextends.claimed _ hold) }
  exact ⟨he.taken htidy hfits htaken,
    hextends.taken hfits.holdsFile.isRooted.normalize_sameAs htaken⟩

/-! ## Imports -/

/-- A file of the graph of a walk is owed by that walk, unless it was claimed before. -/
def Owes (owed : Path → Prop) (g : DependencyGraph) (d : Discovery) (q : Path) : Prop :=
  owed q ∨ q ∈ g.nodes ∧ q ∉ d.session.claimedFiles

/-- A file of the graph of a walk never waits, since the walk goes on from it itself. -/
theorem fits_imported {planner : Planner} {g : DependencyGraph} {n : Path × Node Reference}
    (hn : n ∈ g.nodes.toList) (hfirst : n.2.first.IsInstalled t)
    (hsame : n.2.first.target.SameAs n.1) : (Candidate.imported planner n).Fits t settings exempt
      (Owes owed g d) d.session.claimedFiles := by
  have hholds := (FileTree.holdsFile_of_isFile hfirst.isRooted hfirst.isFile).congr hsame
  have hnormal := hholds.isRooted.normalize_sameAs
  refine ⟨hholds, by simp [Candidate.imported], by simp [Candidate.imported], fun _ hnew => ?_⟩
  refine .inl (.inr ⟨?_, fun hold => hnew ((PathMap.mem_congr _ hnormal).1 hold)⟩)
  exact (PathMap.mem_congr _ hnormal).2
    (PathMap.mem_of_getElem? _ (PathMap.getElem?_of_mem_toList _ hn))

/-- What is remembered about a file that is unclaimed or waits is what it shows, also once
the references of the starting file are known. -/
theorem known_startingMemo (h : Covers t settings exempt past walked owed d) {entry : Path}
    {content : Option String}
    (hsource : content = none → entry ∈ d.session.claimedFiles ∧ ∀ p ∈ d.pending, ¬p.SameAs entry)
    (q : Path) (hq : q.IsPlain)
    (hwaits : q ∉ d.session.claimedFiles ∨ ∃ p ∈ d.pending, p.SameAs q) :
    (((Session.start t settings).resolver t).startingMemo entry content
        d.session.references).answer ((Session.start t settings).resolver t).referencesOf q =
      ((Session.start t settings).resolver t).referencesOf q := by
  rw [Resolver.answer_startingMemo fun hnone => ?_, h.known q hq hwaits]
  exact not_sameAs_of_walked (hsource hnone).1 (hsource hnone).2 hwaits

/-- A walk of imports owes nothing in the end: whatever its file refers to is claimed
by then. -/
theorem extractImports (htidy : IsTidy t settings) {entry : Path} {content : Option String}
    (hsource : entry ∈ d.session.claimedFiles ∧ (∀ p ∈ d.pending, ¬p.SameAs entry) ∨
      content.isSome = true ∧ ¬entry.HasTree)
    (h : Covers t settings exempt past walked owed d)
    (hok : d.extractImports t entry content = .ok d') :
    Covers t settings exempt past walked owed d' ∧ Extends d d' ∧
      ∀ ref ∈ ((Session.start t settings).resolver t).startingReferences entry content
        d.session.references, ref.target ∈ d'.session.claimedFiles := by
  have hsteps := extractImports_eq_ok hok
  rw [Session.dependencyGraph_eq, h.resolver] at hsteps
  have hremembers : ((Session.start t settings).resolver t).Remembers d.session.references :=
    fun p refs hp ref href => ⟨(h.references p refs hp ref href).isPlain,
      (h.references p refs hp ref href).isFile⟩
  obtain ⟨⟨done, hexplored⟩, hanswer⟩ := Resolver.explored_dependencyGraph
    (r := (Session.start t settings).resolver t) Loader.isPlain_default hremembers entry content
  obtain ⟨hall, hallMemo⟩ :=
    htidy.isInstalled_dependencyGraph content h.references
  have hwalked (hnone : content = none) :
      entry ∈ d.session.claimedFiles ∧ ∀ p ∈ d.pending, ¬p.SameAs entry :=
    hsource.resolve_right (by simp [hnone])
  have hknown := h.known_startingMemo hwalked
  generalize ((Session.start t settings).resolver t).dependencyGraph entry content
    d.session.references = built at hsteps hexplored hanswer hall hallMemo
  obtain ⟨g, m⟩ := built
  -- what the walk claims is owed until all of the graph is claimed
  have hstart : Covers t settings exempt past walked (Owes owed g d)
      { d with session := { d.session with references := m } } := by
    have howed : Covers t settings exempt past walked (Owes owed g d) d :=
      h.settle fun f _ hf => .inr (.inl (.inl hf))
    exact { howed with
      queue := h.queue.of_session rfl
      references := hallMemo
      known := fun q hq hwaits => (hanswer q hq).trans (hknown q hq hwaits) }
  have hfits : ∀ c ∈ g.toList.map (Candidate.imported d.session.planner),
      c.Fits t settings exempt (Owes owed g d) d.session.claimedFiles := by
    intro c hc
    obtain ⟨n, hn, rfl⟩ := List.mem_map.1 hc
    have hget := PathMap.getElem?_of_mem_toList _ hn
    exact fits_imported hn (hall _ _ hget) (hexplored.describes _ _ hget).leads.2
  obtain ⟨hend, hextends⟩ :=
    steps (d := { d with session := { d.session with references := m } }) htidy hfits hstart hsteps
  have hclosed (x : Reference × Bool) (hx : x ∈ done) : x.1.target ∈ d'.session.claimedFiles := by
    by_cases hsame : x.1.target.SameAs entry
    · rcases hsource with ⟨hclaimed, -⟩ | ⟨-, hnone⟩
      · exact hextends.claimed _ ((PathMap.mem_congr _ hsame).2 hclaimed)
      · have hinstalled := htidy.isInstalled_of_reached h.references
          (hexplored.reached (.inl hx))
        exact absurd (hsame.hasTree hinstalled.hasTree) hnone
    · -- another file than the starting one is in the graph, and all of it has been offered
      have hnode : x.1.target ∈ g.nodes :=
        (hexplored.mem_nodes _).2 ⟨x, hx, Resolver.leadsTo_imports_iff.2 ⟨hsame, .refl _⟩⟩
      obtain ⟨n, hn, hoffered⟩ := PathMap.exists_mem_toList_of_mem _ hnode
      exact (PathMap.mem_congr _ hoffered).2
        (hsteps.claimed_of_mem (List.mem_map.2 ⟨n, hn, rfl⟩))
  refine ⟨hend.settle fun f hf howed => ?_, ⟨hextends.claimed, hextends.outputs⟩,
    fun ref href => ?_⟩
  · rcases howed with howed | ⟨hnode, hnew⟩
    · exact .inr (.inl howed)
    · obtain ⟨n, hn⟩ := PathMap.exists_getElem?_of_mem _ hnode
      have hplain := (hend.collected f hf).isPlain
      have hdescribes := hexplored.describes _ _ hn
      have htarget : n.first.target = f.source :=
        Path.SameAs.eq_of_isPlain hdescribes.leads.2 (hall _ _ hn).isPlain hplain
      refine .inr (.inr fun ref href => ?_)
      rw [← hknown _ hplain (.inl hnew), ← htarget] at href
      refine hclosed (ref, false) ?_
      rw [hexplored.mem_done_iff]
      exact ⟨_, n, hn, href⟩
  · refine hclosed (ref, true) ?_
    rw [hexplored.mem_done_iff]
    exact href

/-! ## Components -/

/-- A file that was found by listing a directory waits, unless it has no references. -/
theorem fits_listed {planner : Planner} {package : String} {detectMain : Bool} {claimed : PathSet}
    {origin : Placement → Origin} {dir file : Path} (hdir : dir.IsRooted)
    (hfile : file ∈ t.filesBelow dir) (horigin : ∀ p, origin p ≠ .input)
    (hwaiting : file ∉ claimed →
      (∀ contents, t.read file.normalize = .ok contents → t.read file = .ok contents) ∨
        ∀ p contents, p.source.SameAs file →
          exempt ((Candidate.listed planner package detectMain origin file).output p contents)) :
    (Candidate.listed planner package detectMain origin file).Fits t settings exempt owed
      claimed := by
  have hholds := FileTree.holdsFile_of_mem_filesBelow hdir hfile
  refine ⟨hholds, horigin, fun _ => hwaiting, fun hqueued _ => .inr ?_⟩
  have hkind : FileKind.ofPath file.normalize = .other := by
    rw [FileKind.ofPath_congr hholds.isRooted.normalize_sameAs]
    simpa [Candidate.listed, FileKind.isRewritable] using hqueued
  exact if_pos hkind

/-- The files of a bundle are listed under plain paths, so each waits by the path
that it is read by. -/
theorem bundle (htidy : IsTidy t settings) {n : Path × Node ComponentRef}
    (hn : n.2.first.IsRooted) (h : Covers t settings exempt past walked owed d)
    (htaken : TakenBundle t d.session.planner n d d') :
    Covers t settings exempt past walked owed d' ∧ Extends d d' := by
  cases htaken with
  | known => exact ⟨h, .refl d⟩
  | new events hnew hsteps =>
    have hstart : Covers t settings exempt past walked owed
        { d with session := d.session.claimDirectory n.1, events := events } :=
      { h with queue := h.queue.of_session rfl }
    have hfits : ∀ c ∈ Candidate.ofBundle t d.session.planner n,
        c.Fits t settings exempt owed d.session.claimedFiles := by
      intro c hc
      obtain ⟨file, hfile, rfl⟩ := List.mem_map.1 hc
      refine fits_listed hn.directory hfile (by simp) fun _ => .inl fun contents hread => ?_
      obtain ⟨names, hnames, rfl, hdirne⟩ := FileTree.mem_filesBelow hfile
      have hplain := (FileTree.pathTo_spec hdirne hnames).2.2 hn.isPlain
      have hrooted := (FileTree.holdsFile_of_mem_filesBelow hn.directory hfile).isRooted
      rwa [hrooted.normalize_eq hplain] at hread
    obtain ⟨hend, hextends⟩ := steps
      (d := { d with session := d.session.claimDirectory n.1, events := events })
      htidy hfits hstart hsteps
    exact ⟨hend, hextends.claimed, hextends.outputs⟩

theorem extractComponents (htidy : IsTidy t settings) {manifest : Path} {content : Option String}
    (h : Covers t settings exempt past walked owed d)
    (hok : d.extractComponents t manifest content = .ok d') :
    Covers t settings exempt past walked owed d' ∧ Extends d d' := by
  have hsteps := extractComponents_eq_ok hok
  rw [Session.componentGraph_eq, h.resolver] at hsteps
  obtain ⟨hall, hallMemo⟩ :=
    htidy.isRooted_componentGraph content h.components
  generalize ((Session.start t settings).resolver t).componentGraph manifest content
    d.session.components = built at hsteps hall hallMemo
  obtain ⟨g, m⟩ := built
  have hstart : Covers t settings exempt past walked owed
      { d with session := { d.session with components := m } } :=
    { h with queue := h.queue.of_session rfl, components := hallMemo }
  refine hsteps.invariant (P := fun e => Covers t settings exempt past walked owed e ∧ Extends d e)
    ?_ ⟨hstart, fun p hp => hp, fun f hf _ => hf⟩
  rintro n hn e e' htaken ⟨he, hextends⟩
  have hfirst := hall _ _ (PathMap.getElem?_of_mem_toList _ hn)
  rw [h.planner, ← he.planner] at htaken
  obtain ⟨he', hextends'⟩ := he.bundle htidy hfirst htaken
  exact ⟨he', hextends.trans hextends'⟩

/-! ## The queue -/

theorem not_sameAs_of_pending {path : Path} {rest : List Path}
    (h : Covers t settings exempt past walked owed d) (hpending : d.pending = path :: rest) :
    ∀ p ∈ rest, ¬p.SameAs path := by
  intro p hp hsame
  have hdistinct := (List.pairwise_append.1 h.queue.distinct).2.1
  rw [hpending, List.pairwise_cons] at hdistinct
  exact hdistinct.1 p hp hsame.symm

/-- A file that comes out of the queue is owed as long as its walk is under way. -/
theorem pop {path : Path} {rest : List Path}
    (h : Covers t settings exempt past walked (fun _ => False) d)
    (hpending : d.pending = path :: rest) :
    Covers t settings exempt past (walked ++ [path]) (·.SameAs path)
      { d with pending := rest } := by
  refine { h with
    queue := h.queue.pop hpending
    known := fun q hq hwaits => h.known q hq (hwaits.imp_right ?_)
    waiting := fun p hp => h.waiting p (by simp [hpending, hp])
    followed := fun f hf => ?_ }
  · rintro ⟨p, hp, hpq⟩
    exact ⟨p, by simp [hpending, hp], hpq⟩
  · rcases h.followed f hf with hf' | hwaits | hf' | hrefs
    · exact .inl hf'
    · rcases waits_of_pending hpending hwaits with hsame | hwaits
      · exact .inr (.inr (.inl hsame))
      · exact .inr (.inl hwaits)
    · exact hf'.elim
    · exact .inr (.inr (.inr hrefs))

/-- A file that imports nothing is settled by any walk. -/
theorem settle_of_dependencies_eq_nil {path : Path}
    (h : Covers t settings exempt past walked (·.SameAs path) d)
    (hdeps : ∀ content, Scan.dependencies path content = []) :
    Covers t settings exempt past walked owed d := by
  refine h.settle fun f hf hsame => .inr (.inr fun ref href => ?_)
  unfold Resolver.referencesOf at href
  split at href
  · simp at href
  · split at href
    · rw [Resolver.referencesIn_congr _ hsame, Resolver.referencesIn, hdeps] at href
      simp at href
    · simp at href

/-- A collected file is known by the plain spelling of the path that it waited by. -/
theorem source_eq_normalize (h : Covers t settings exempt past walked owed d) {path : Path}
    (hrooted : path.IsRooted) {f : OutputFile} (hf : f ∈ past ++ d.outputs)
    (hsame : f.source.SameAs path) : f.source = path.normalize :=
  (hsame.trans hrooted.normalize_sameAs.symm).eq_of_isPlain (h.collected f hf).isPlain
    path.isPlain_normalize

/-- The walk of imports settles the file that comes out of the queue. -/
theorem walkImports (htidy : IsTidy t settings) {path : Path} {rest : List Path}
    (h : Covers t settings exempt past walked (fun _ => False) d)
    (hpending : d.pending = path :: rest)
    (hok : ({ d with pending := rest } : Discovery).extractImports t path none = .ok d') :
    Covers t settings exempt past (walked ++ [path]) (fun _ => False) d' := by
  have hmem : path ∈ d.pending := by simp [hpending]
  obtain ⟨hrooted, hread⟩ := h.waiting path hmem
  have hnormal := hrooted.normalize_sameAs
  have hclaimed := h.queue.claimed path (List.mem_append_right _ hmem)
  obtain ⟨hend, hextends, hrefs⟩ := extractImports (d := { d with pending := rest }) htidy
    (.inl ⟨hclaimed, h.not_sameAs_of_pending hpending⟩) (h.pop hpending) hok
  refine hend.settle fun f hf hsame => ?_
  have hsource := hend.source_eq_normalize hrooted hf hsame
  cases hmemo : d.session.references[path]? with
  | some refs =>
    -- what is remembered was looked up under the plain path
    refine .inr (.inr fun ref href => hrefs ref ?_)
    rw [hsource, ← h.known _ path.isPlain_normalize (.inr ⟨path, hmem, hnormal.symm⟩),
      ← Memo.answer_of_sameAs _ _ hnormal.symm hmemo] at href
    exact href
  | none =>
    rcases hread with hread | hexempt
    · refine .inr (.inr fun ref href => hrefs ref ?_)
      show ref ∈ d.session.references.answer _ path
      rw [Memo.answer_of_getElem?_eq_none _ _ hmemo,
        Resolver.referencesOf_congr _ hnormal.symm hread, ← hsource]
      exact href
    · exact .inl (hexempt f (hextends.mem_collected hf ((PathMap.mem_congr _ hsame).2 hclaimed))
        hsame)

/-- The walk of a file that comes out of the queue. -/
theorem walk (htidy : IsTidy t settings) {path : Path} {rest : List Path}
    (h : Covers t settings exempt past walked (fun _ => False) d)
    (hpending : d.pending = path :: rest)
    (hok : ({ d with pending := rest } : Discovery).walk t path none = .ok d') :
    Covers t settings exempt past (walked ++ [path]) (fun _ => False) d' := by
  have hstart := h.pop hpending
  unfold Discovery.walk at hok
  split at hok
  · exact h.walkImports htidy hpending hok
  · exact h.walkImports htidy hpending hok
  · next hkind =>
    refine (hstart.extractComponents htidy hok).1.settle_of_dependencies_eq_nil fun content => ?_
    simp [Scan.dependencies, hkind]
  · next hkind =>
    obtain rfl := Except.ok.inj hok
    refine hstart.settle_of_dependencies_eq_nil fun content => ?_
    simp [Scan.dependencies, hkind]

/-- Once the queue is empty nothing is owed. -/
theorem drain (htidy : IsTidy t settings)
    (h : Covers t settings exempt past [] (fun _ => False) d) (hok : d.drain t = .ok d') :
    d'.pending = [] ∧ ∃ walked, Covers t settings exempt past walked (fun _ => False) d' :=
  drainUpTo_eq_ok (P := fun walked e => Covers t settings exempt past walked (fun _ => False) e)
    (fun _ _ _ _ _ he hpending hwalk => he.walk htidy hpending hwalk)
    (fun _ _ he => he.queue.length_le) h (by simp) hok

end Covers

end Discovery

end Vendoring
