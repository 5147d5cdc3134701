/-
# What a build collects

A file of a package leaves a build because a walk has offered it: it is imported,
it lies in a bundle, or it lies in a directory that is taken over completely. The
file is then collected under the place that the planner gives it as part of the
package that it was reached through.
-/

import Vendoring.Proofs.Build.Run
import Vendoring.Proofs.Build.Steps
import Vendoring.Proofs.Catalog.Names
import Vendoring.Proofs.Graph.Dependency

namespace Vendoring

namespace Resolver

variable (r : Resolver)

/-- The reference is what some specifier in some file resolves to. -/
def Resolves (ref : Reference) : Prop :=
  ∃ specifier file, r.resolve? specifier file = some ref

/-- The component is what some declaration in some manifest resolves to. -/
def Declares (ref : ComponentRef) : Prop :=
  ∃ specifier manifest, r.resolveComponent? specifier manifest = some ref

variable {r} {file : Path}

theorem resolves_of_mem_referencesIn {text : String} :
    ∀ ref ∈ r.referencesIn file text, r.Resolves ref := by
  intro ref href
  obtain ⟨specifier, -, hresolve⟩ := List.mem_filterMap.1 href
  exact ⟨specifier, file, hresolve⟩

theorem resolves_of_mem_referencesOf : ∀ ref ∈ r.referencesOf file, r.Resolves ref := by
  intro ref href
  unfold referencesOf at href
  split at href
  · simp at href
  · split at href
    · exact resolves_of_mem_referencesIn ref href
    · simp at href

theorem declares_of_mem_componentsIn {json : Json} :
    ∀ ref ∈ r.componentsIn file json, r.Declares ref := by
  intro ref href
  obtain ⟨declaration, -, hresolve⟩ := List.mem_filterMap.1 href
  exact ⟨declaration.2, file, hresolve⟩

theorem declares_of_mem_componentsOf : ∀ ref ∈ r.componentsOf file, r.Declares ref :=
  declares_of_mem_componentsIn

/-- A walk of imports comes across nothing but what specifiers resolve to. -/
theorem resolves_dependencyGraph (entry : Path) (content : Option String) {m : Memo Reference}
    (hm : m.All r.Resolves) :
    (r.dependencyGraph entry content m).1.All r.Resolves ∧
      (r.dependencyGraph entry content m).2.All r.Resolves := by
  have hlook : ∀ ref, r.Resolves ref → ∀ next ∈ r.referencesOf ref.target, r.Resolves next :=
    fun ref _ => resolves_of_mem_referencesOf
  rw [dependencyGraph_eq]
  cases content with
  | some text => exact Graph.all_build hlook hm resolves_of_mem_referencesIn
  | none =>
    exact Graph.all_build hlook (hm.fetch resolves_of_mem_referencesOf)
      (hm.answer resolves_of_mem_referencesOf)

/-- A walk of components comes across nothing but what declarations resolve to. -/
theorem declares_componentGraph (entry : Path) (content : Option String)
    {m : Memo ComponentRef} (hm : m.All r.Declares) :
    (r.componentGraph entry content m).1.All r.Declares ∧
      (r.componentGraph entry content m).2.All r.Declares := by
  have hlook : ∀ ref, r.Declares ref → ∀ next ∈ r.componentsOf ref.manifest, r.Declares next :=
    fun ref _ => declares_of_mem_componentsOf
  cases content with
  | some text =>
    refine Graph.all_build hlook hm fun ref href => ?_
    cases hjson : Json.parseObject? text with
    | none => simp [hjson] at href
    | some json =>
      rw [hjson] at href
      exact declares_of_mem_componentsIn ref href
  | none =>
    exact Graph.all_build hlook (hm.fetch declares_of_mem_componentsOf)
      (hm.answer declares_of_mem_componentsOf)

end Resolver

namespace Candidate

/-- The routes by which a build of the session reaches files. -/
inductive IsOffered (t : FileTree) (s : Session) : Candidate → Prop
  | imported {n : Path × Node Reference} : (s.resolver t).Resolves n.2.first →
      IsOffered t s (.imported s.planner n)
  | bundled {ref : ComponentRef} {file : Path} : (s.resolver t).Declares ref →
      file ∈ t.filesBelow ref.directory →
      IsOffered t s (.listed s.planner ref.package true .component file)
  | extracted {entry : String} {p : Package} {dir file : Path} : entry ∈ s.settings.fullExtract →
      Discovery.extractedDir? t s entry = some (p, dir) → file ∈ t.filesBelow dir →
      IsOffered t s (.listed s.planner p.name false .fullExtract file)

end Candidate

namespace Discovery

/-- Everything that the discovery has collected was offered in the session. -/
structure Offers (t : FileTree) (s : Session) (d : Discovery) : Prop where
  catalog_eq : d.session.catalog = s.catalog
  settings_eq : d.session.settings = s.settings
  references : d.session.references.All (s.resolver t).Resolves
  components : d.session.components.All (s.resolver t).Declares
  outputs : ∀ f ∈ d.outputs, ∃ c : Candidate, c.IsOffered t s ∧ c.Yields t s.planner f

namespace Offers

variable {t : FileTree} {s : Session} {d d' : Discovery}

theorem resolver (h : Offers t s d) : d.session.resolver t = s.resolver t := by
  rw [Session.resolver, h.catalog_eq]
  rfl

theorem planner (h : Offers t s d) : d.session.planner = s.planner := by
  rw [Session.planner, h.catalog_eq, h.settings_eq]
  rfl

/-- Only the session and what was collected count. -/
theorem congr (h : Offers t s d) (hsession : d'.session = d.session)
    (houtputs : d'.outputs = d.outputs) : Offers t s d' where
  catalog_eq := by rw [hsession, h.catalog_eq]
  settings_eq := by rw [hsession, h.settings_eq]
  references := hsession ▸ h.references
  components := hsession ▸ h.components
  outputs := houtputs ▸ h.outputs

/-- The next discovery starts with nothing collected. -/
theorem next (h : Offers t s d) : Offers t s { session := d.session } :=
  { h with outputs := by simp }

theorem taken {c : Candidate} (hc : c.IsOffered t s) (h : Offers t s d) (htaken : Taken t c d d') :
    Offers t s d' := by
  cases htaken with
  | known => exact h
  | unplaced => exact { h with }
  | @placed place contents events _ hplace hread =>
    refine { h with outputs := fun f hf => ?_ }
    rcases List.mem_append.1 hf with hf | hf
    · exact h.outputs f hf
    · rw [h.planner] at hplace
      exact ⟨c, hc, place, contents, hplace, hread, List.mem_singleton.1 hf⟩

theorem steps {cs : List Candidate} (hcs : ∀ c ∈ cs, c.IsOffered t s) (h : Offers t s d)
    (hsteps : Steps (Taken t) cs d d') : Offers t s d' :=
  hsteps.invariant (fun c hc _ _ htaken he => he.taken (hcs c hc) htaken) h

theorem extractImports {path : Path} {content : Option String} (h : Offers t s d)
    (hok : d.extractImports t path content = .ok d') : Offers t s d' := by
  have hsteps := extractImports_eq_ok hok
  obtain ⟨hall, hallMemo⟩ :=
    Resolver.resolves_dependencyGraph path content h.references
  rw [Session.dependencyGraph_eq, h.resolver, h.planner] at hsteps
  generalize (s.resolver t).dependencyGraph path content d.session.references = built
    at hsteps hall hallMemo
  obtain ⟨g, m⟩ := built
  have hstart : Offers t s { d with session := { d.session with references := m } } :=
    { h with references := hallMemo }
  refine hstart.steps (fun c hc => ?_) hsteps
  obtain ⟨n, hn, rfl⟩ := List.mem_map.1 hc
  exact .imported (hall _ _ (PathMap.getElem?_of_mem_toList _ hn))

theorem bundle {n : Path × Node ComponentRef} (hn : (s.resolver t).Declares n.2.first)
    (h : Offers t s d) (htaken : TakenBundle t s.planner n d d') : Offers t s d' := by
  cases htaken with
  | known => exact h
  | new events _ hsteps =>
    refine steps (d := { d with session := d.session.claimDirectory n.1, events := events })
      (fun c hc => ?_) { h with } hsteps
    obtain ⟨file, hfile, rfl⟩ := List.mem_map.1 hc
    exact .bundled hn hfile

theorem extractComponents {path : Path} {content : Option String} (h : Offers t s d)
    (hok : d.extractComponents t path content = .ok d') : Offers t s d' := by
  have hsteps := extractComponents_eq_ok hok
  obtain ⟨hall, hallMemo⟩ :=
    Resolver.declares_componentGraph path content h.components
  rw [Session.componentGraph_eq, h.resolver, h.planner] at hsteps
  generalize (s.resolver t).componentGraph path content d.session.components = built
    at hsteps hall hallMemo
  obtain ⟨g, m⟩ := built
  have hstart : Offers t s { d with session := { d.session with components := m } } :=
    { h with components := hallMemo }
  refine hsteps.invariant (fun n hn e e' htaken he => he.bundle ?_ htaken) hstart
  exact hall _ _ (PathMap.getElem?_of_mem_toList _ hn)

theorem walk {path : Path} {content : Option String} (h : Offers t s d)
    (hok : d.walk t path content = .ok d') : Offers t s d' := by
  unfold Discovery.walk at hok
  split at hok
  · exact h.extractImports hok
  · exact h.extractImports hok
  · exact h.extractComponents hok
  · obtain rfl := Except.ok.inj hok
    exact h

theorem drain (h : Offers t s d) (hok : d.drain t = .ok d') : Offers t s d' := by
  rw [Discovery.drain] at hok
  refine drainUpTo_invariant (P := Offers t s) (fun e path rest e' he _ hwalk => ?_) h hok
  have hstart : Offers t s { e with pending := rest } := he.congr rfl rfl
  exact hstart.walk hwalk

theorem ofEntry {entry : String} (hentry : entry ∈ s.settings.fullExtract)
    (h : Offers t s d) (hok : Discovery.ofEntry t d.session entry = .ok d') : Offers t s d' := by
  have hdir? := extractedDir?_congr (t := t) h.catalog_eq entry
  cases hdir : extractedDir? t s entry with
  | none =>
    rw [Discovery.ofEntry, hdir?, hdir] at hok
    obtain rfl := Except.ok.inj hok
    exact h.next
  | some found =>
    obtain ⟨p, dir⟩ := found
    obtain ⟨injected, drained, hsteps, hdrained, hsession, houtputs⟩ :=
      ofEntry_eq_ok (hdir?.trans hdir) hok
    rw [h.planner] at hsteps
    have hinjected : Offers t s injected := by
      refine h.next.steps (fun c hc => ?_) hsteps
      obtain ⟨file, hfile, rfl⟩ := List.mem_map.1 hc
      exact .extracted hentry hdir hfile
    exact (hinjected.drain hdrained).congr hsession houtputs

theorem ofInput {input : SourceFile} (h : Offers t s d)
    (hok : Discovery.ofInput t d.session input = .ok d') : Offers t s d' := by
  cases hbytes : input.contents with
  | none =>
    rw [Discovery.ofInput, hbytes] at hok
    obtain rfl := Except.ok.inj hok
    exact h.next
  | some bytes =>
    obtain ⟨walked, hwalk, hdrained⟩ := ofInput_eq_ok hbytes hok
    exact (h.next.walk hwalk).drain hdrained

theorem start (t : FileTree) (settings : Settings) :
    Offers t (.start t settings) { session := .start t settings } where
  catalog_eq := rfl
  settings_eq := rfl
  references := Memo.all_empty
  components := Memo.all_empty
  outputs := by simp

variable {s₀ s₁ : Session} {files : List OutputFile}

theorem extracts {entries : List String} (hentries : ∀ entry ∈ entries, entry ∈ s.settings.fullExtract)
    (h : Offers t s { session := s₀ }) (hextracts : Extracts t entries s₀ files s₁) :
    Offers t s { session := s₁, outputs := files } := by
  induction hextracts with
  | nil => exact h
  | @cons entry rest s₀ s₁ d files hok _ ih =>
    have hentry := h.ofEntry (hentries entry (by simp)) hok
    have hrest := ih (fun e he => hentries e (List.mem_cons_of_mem _ he)) hentry.next
    refine { hrest with outputs := fun f hf => ?_ }
    exact (List.mem_append.1 hf).elim (hentry.outputs f) (hrest.outputs f)

theorem discovers {inputs : List SourceFile} {needed : List (List OutputFile)}
    (h : Offers t s { session := s₀ }) (hdiscovers : Discovers t inputs s₀ needed s₁) :
    Offers t s { session := s₁, outputs := needed.flatten } := by
  induction hdiscovers with
  | nil => exact h
  | null _ _ ih => exact ih h
  | cons _ hok _ ih =>
    have hinput := h.ofInput hok
    have hrest := ih hinput.next
    refine { hrest with outputs := fun f hf => ?_ }
    exact (List.mem_append.1 hf).elim (hinput.outputs f) (hrest.outputs f)

end Offers

end Discovery

namespace Candidate.IsOffered

variable {t : FileTree} {s : Session} {settings : Settings} {c : Candidate}

theorem placement?_origin (h : c.IsOffered t s) (place : Placement) :
    (c.origin place).placement? = some place := by
  cases h <;> rfl

/-- A file is reached as a part of something that is called like a package. -/
theorem isPackageName (h : c.IsOffered t (.start t settings)) : IsPackageName c.package := by
  have hsurvey := Catalog.isSurvey_survey t Session.loader settings.packageTree
  cases h with
  | imported hfirst =>
    obtain ⟨specifier, file, hresolve⟩ := hfirst
    exact Resolver.isPackageName_packageOf? hsurvey (Resolver.resolve?_eq_some hresolve).2.2.1
  | bundled hdeclares =>
    obtain ⟨specifier, manifest, hresolve⟩ := hdeclares
    exact Resolver.isPackageName_of_resolveComponent? hsurvey hresolve
  | extracted _ hdir =>
    unfold Discovery.extractedDir? at hdir
    simp only [Option.pure_def, Option.bind_eq_bind, Option.bind_eq_some_iff] at hdir
    obtain ⟨name, -, q, hq, hdir⟩ := hdir
    split at hdir
    · obtain ⟨rfl, rfl⟩ := Prod.mk.inj (Option.some.inj hdir)
      exact (hsurvey.get? hq).2.isPackageName
    · simp at hdir

end Candidate.IsOffered

/-- A file that leaves a build is an input, or it was offered to the build and is
written to the place that it has on the route by which it was offered. -/
theorem Session.mem_files {t : FileTree} {settings : Settings} {inputs : List SourceFile}
    {out : BuildOutput} (h : ((Session.start t settings).build t inputs).1 = .ok out)
    {f : OutputFile} (hf : f ∈ out.files) :
    (∃ input ∈ inputs, f.source = input.path ∧ f.relative = input.relative ∧ f.origin = .input) ∨
      ∃ (c : Candidate) (place : Placement), c.IsOffered t (.start t settings) ∧
        (Session.start t settings).planner.place? c.file c.package c.isMain = some place ∧
        f.source = place.source ∧ f.relative = place.relative ∧ f.origin = c.origin place := by
  obtain ⟨extracted, s₁, needed, s₂, hextracts, hdiscovers, hgathers⟩ := Session.exists_gathers h
  have hextracted := (Discovery.Offers.start t settings).extracts (fun _ he => he) hextracts
  have hneeded := hextracted.next.discovers hdiscovers
  rcases hgathers.of_mem_files hf with
    ⟨input, hinput, hsource, hrelative, horigin⟩ | ⟨g, hg, hsource, hrelative, horigin⟩
  · exact .inl ⟨input, hinput, hsource.symm, hrelative.symm, horigin.symm⟩
  · obtain ⟨c, hc, place, contents, hplace, -, rfl⟩ :=
      (List.mem_append.1 hg).elim (hextracted.outputs g) (hneeded.outputs g)
    exact .inr ⟨c, place, hc, hplace, hsource.symm, hrelative.symm, horigin.symm⟩

/-- A file of a package lies where its placement says. -/
theorem Session.source_eq_of_placement? {t : FileTree} {settings : Settings}
    {inputs : List SourceFile} {out : BuildOutput}
    (h : ((Session.start t settings).build t inputs).1 = .ok out) {f : OutputFile}
    (hf : f ∈ out.files) {place : Placement} (hplace : f.origin.placement? = some place) :
    f.source = place.source ∧ f.relative = place.relative := by
  rcases Session.mem_files h hf with
    ⟨input, -, -, -, horigin⟩ | ⟨c, p, hc, -, hsource, hrelative, horigin⟩
  · simp [horigin, Origin.placement?] at hplace
  · rw [horigin, hc.placement?_origin, Option.some.injEq] at hplace
    exact hplace ▸ ⟨hsource, hrelative⟩

end Vendoring
