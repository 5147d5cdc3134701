/-
# How files come through a build

The inputs of a build leave it in their order, each with the files behind it that it was the
first to need, and the files of the full extraction come last. The rewriting at the end goes
through this list once and exchanges contents in place, so a file that leaves the build can be
compared with the one that was read.
-/

import Vendoring.Proofs.Build.Once
import Vendoring.Proofs.Rewrite.Contents

namespace Vendoring

/-- Contents are compared in one way, whatever else is known of byte arrays. -/
local instance decidableEqContents : DecidableEq ByteArray := ByteArray.instDecidableEq

namespace OutputFile

/-- What no rewriting changes in a file. -/
def place (f : OutputFile) : Path × Path × Origin :=
  (f.source, f.relative, f.origin)

/-- The file is one of a package and holds what it holds in the tree. -/
structure IsRead (t : FileTree) (f : OutputFile) : Prop where
  isDependency : f.isDependency = true
  contents_eq : ∃ bytes, t.read f.source = .ok bytes ∧ f.contents = some bytes

/-- The file was reached by a reference, so it is imported or lies in a bundle. -/
def IsReferenced (f : OutputFile) : Prop :=
  ∃ p, f.origin = .dependency p ∨ f.origin = .component p

end OutputFile

/-! ## What a discovery collects -/

namespace Discovery

/-- The discovery belongs to the session, and every file that it has collected has the
property. -/
structure Collects (s : Session) (P : OutputFile → Prop) (d : Discovery) : Prop where
  catalog_eq : d.session.catalog = s.catalog
  settings_eq : d.session.settings = s.settings
  outputs : ∀ f ∈ d.outputs, P f

namespace Collects

variable {t : FileTree} {s : Session} {P : OutputFile → Prop} {d d' : Discovery}

theorem congr (h : Collects s P d) (hsession : d'.session = d.session)
    (houtputs : d'.outputs = d.outputs) : Collects s P d' where
  catalog_eq := hsession ▸ h.catalog_eq
  settings_eq := hsession ▸ h.settings_eq
  outputs := houtputs ▸ h.outputs

theorem next {Q : OutputFile → Prop} (h : Collects s P d) :
    Collects s Q { session := d.session } where
  catalog_eq := h.catalog_eq
  settings_eq := h.settings_eq
  outputs := by simp

theorem taken {c : Candidate} (h : Collects s P d) (htaken : Taken t c d d')
    (hc : ∀ p bytes, t.read p.source = .ok bytes → P (c.output p bytes)) : Collects s P d' := by
  cases htaken with
  | known => exact h
  | unplaced => exact { h with }
  | @placed p bytes events _ _ hread =>
    refine { h with outputs := fun f hf => ?_ }
    rcases List.mem_append.1 hf with hf | hf
    · exact h.outputs f hf
    · rw [List.mem_singleton.1 hf]
      exact hc p bytes hread

theorem steps {cs : List Candidate} (h : Collects s P d) (hsteps : Steps (Taken t) cs d d')
    (hcs : ∀ c ∈ cs, ∀ p bytes, t.read p.source = .ok bytes → P (c.output p bytes)) :
    Collects s P d' :=
  hsteps.invariant (fun c hc _ _ htaken he => he.taken htaken (hcs c hc)) h

section Walks

variable (hread : ∀ f : OutputFile, f.IsRead t → f.IsReferenced → P f)
include hread

theorem extractImports {path : Path} {content : Option String} (h : Collects s P d)
    (hok : d.extractImports t path content = .ok d') : Collects s P d' := by
  have hsteps := extractImports_eq_ok hok
  rw [Session.dependencyGraph_eq] at hsteps
  have hstart : Collects s P { d with session := { d.session with references :=
      ((d.session.resolver t).dependencyGraph path content d.session.references).2 } } :=
    { h with }
  refine hstart.steps hsteps fun c hc p bytes hbytes => ?_
  obtain ⟨n, -, rfl⟩ := List.mem_map.1 hc
  exact hread _ ⟨rfl, bytes, hbytes, rfl⟩ ⟨p, .inl rfl⟩

theorem bundle {r : Planner} {n : Path × Node ComponentRef} (h : Collects s P d)
    (htaken : TakenBundle t r n d d') : Collects s P d' := by
  cases htaken with
  | known => exact h
  | new events _ hsteps =>
    refine steps (d := { d with session := d.session.claimDirectory n.1, events := events })
      { h with } hsteps fun c hc p bytes hbytes => ?_
    obtain ⟨file, -, rfl⟩ := List.mem_map.1 hc
    exact hread _ ⟨rfl, bytes, hbytes, rfl⟩ ⟨p, .inr rfl⟩

theorem extractComponents {path : Path} {content : Option String} (h : Collects s P d)
    (hok : d.extractComponents t path content = .ok d') : Collects s P d' := by
  have hsteps := extractComponents_eq_ok hok
  rw [Session.componentGraph_eq] at hsteps
  refine hsteps.invariant (fun n _ e e' htaken he => he.bundle hread htaken) ?_
  exact { h with }

theorem walk {path : Path} {content : Option String} (h : Collects s P d)
    (hok : d.walk t path content = .ok d') : Collects s P d' := by
  unfold Discovery.walk at hok
  split at hok
  · exact h.extractImports hread hok
  · exact h.extractImports hread hok
  · exact h.extractComponents hread hok
  · obtain rfl := Except.ok.inj hok
    exact h

theorem drain (h : Collects s P d) (hok : d.drain t = .ok d') : Collects s P d' := by
  rw [Discovery.drain] at hok
  refine drainUpTo_invariant (P := Collects s P) (fun e path rest e' he _ hwalk => ?_) h hok
  have hstart : Collects s P { e with pending := rest } := he.congr rfl rfl
  exact hstart.walk hread hwalk

/-- What an input needs is reached by references. -/
theorem ofInput {input : SourceFile} (h : Collects s P d)
    (hok : Discovery.ofInput t d.session input = .ok d') : Collects s P d' := by
  cases hbytes : input.contents with
  | none =>
    rw [Discovery.ofInput, hbytes] at hok
    obtain rfl := Except.ok.inj hok
    exact h.next
  | some bytes =>
    obtain ⟨walked, hwalk, hdrained⟩ := ofInput_eq_ok hbytes hok
    exact (h.next.walk hread hwalk).drain hread hdrained

end Walks

theorem ofEntry {entry : String} (h : Collects s (OutputFile.IsRead t) d)
    (hok : Discovery.ofEntry t d.session entry = .ok d') :
    Collects s (OutputFile.IsRead t) d' := by
  cases hdir : extractedDir? t d.session entry with
  | none =>
    rw [Discovery.ofEntry, hdir] at hok
    obtain rfl := Except.ok.inj hok
    exact h.next
  | some found =>
    obtain ⟨p, dir⟩ := found
    obtain ⟨injected, drained, hsteps, hdrained, hsession, houtputs⟩ := ofEntry_eq_ok hdir hok
    have hinjected : Collects s (OutputFile.IsRead t) injected := by
      refine h.next.steps hsteps fun c hc place bytes hbytes => ?_
      obtain ⟨file, -, rfl⟩ := List.mem_map.1 hc
      exact ⟨rfl, bytes, hbytes, rfl⟩
    exact (hinjected.drain (fun _ hf _ => hf) hdrained).congr hsession houtputs

variable {s₀ s₁ : Session}

theorem extracts {entries : List String} {files : List OutputFile}
    (h : Collects s (OutputFile.IsRead t) { session := s₀ })
    (hextracts : Extracts t entries s₀ files s₁) :
    Collects s (OutputFile.IsRead t) { session := s₁, outputs := files } := by
  induction hextracts with
  | nil => exact h
  | cons hok _ ih =>
    have hentry := h.ofEntry hok
    have hrest := ih hentry.next
    refine { hrest with outputs := fun f hf => ?_ }
    exact (List.mem_append.1 hf).elim (hentry.outputs f) (hrest.outputs f)

theorem discovers {inputs : List SourceFile} {needed : List (List OutputFile)}
    (h : Collects s (fun f => f.IsRead t ∧ f.IsReferenced) { session := s₀ })
    (hdiscovers : Discovers t inputs s₀ needed s₁) :
    Collects s (fun f => f.IsRead t ∧ f.IsReferenced)
      { session := s₁, outputs := needed.flatten } := by
  induction hdiscovers with
  | nil => exact h
  | null _ _ ih => exact ih h
  | cons _ hok _ ih =>
    have hinput := h.ofInput (fun _ => And.intro) hok
    have hrest := ih hinput.next
    refine { hrest with outputs := fun f hf => ?_ }
    exact (List.mem_append.1 hf).elim (hinput.outputs f) (hrest.outputs f)

end Collects

end Discovery

/-! ## What rewriting does to a list of files -/

namespace BuildOutput

/-- The files are changed one by one, each in its contents only, and inputs without anything to
rewrite not at all. -/
structure InPlace (g : OutputFile → OutputFile) : Prop where
  place_eq f : (g f).place = f.place
  contents_eq (input : SourceFile) : input.IsFixed → (g (ofInput input)).contents = input.contents

theorem inPlace_id : InPlace id where
  place_eq _ := rfl
  contents_eq _ _ := rfl

theorem inPlace_rewriteFile? (w : Rewriter) : InPlace fun f => (rewriteFile? w f).getD f where
  place_eq f := by
    cases hf : rewriteFile? w f with
    | none => rfl
    | some f' =>
      obtain ⟨contents, rfl⟩ := rewriteFile?_eq_some hf
      rfl
  contents_eq input hfixed := by
    rw [hfixed.rewriteFile? w]
    rfl

/-- Rewriting changes files in place, and counts those whose contents it changes. -/
theorem exists_inPlace_rewriteAll (r : Resolver) (planner : Planner) (files : List OutputFile) :
    ∃ g, InPlace g ∧ rewriteAll r planner files =
      (files.map g, files.countP fun f => (g f).contents ≠ f.contents) := by
  simp only [rewriteAll]
  split
  · refine ⟨id, inPlace_id, ?_⟩
    simp
  · refine ⟨_, inPlace_rewriteFile? _, Prod.ext rfl (List.countP_congr fun f _ => ?_)⟩
    cases hf : rewriteFile?
        { table := PackageTable.ofOutputs planner files, resolver := some r } f with
    | none => simp
    | some f' => simpa using contents_ne_of_rewriteFile? _ hf

theorem countP_zip_map {α β : Type} (p : α → β → Bool) (g : α → β) (l : List α) :
    (l.zip (l.map g)).countP (fun (a, b) => p a b) = l.countP fun a => p a (g a) := by
  induction l with
  | nil => rfl
  | cons a l ih => simp [List.countP_cons, ih]

/-- Without the files of packages, what is left is the inputs. -/
theorem filter_input_interleave {inputs : List SourceFile} {needed : List (List OutputFile)}
    (hlength : inputs.length = needed.length)
    (hneeded : ∀ files ∈ needed, ∀ f ∈ files, f.isDependency = true) :
    (interleave inputs needed).filter (fun f => f.origin = .input) = inputs.map ofInput := by
  induction inputs generalizing needed with
  | nil =>
    obtain rfl := List.eq_nil_of_length_eq_zero hlength.symm
    rfl
  | cons input rest ih =>
    cases needed with
    | nil => simp at hlength
    | cons found needed =>
      have hfound : found.filter (fun f => f.origin = .input) = [] :=
        List.filter_eq_nil_iff.2 fun f hf => by
          simpa [OutputFile.isDependency] using hneeded found List.mem_cons_self f hf
      have hrest := ih (Nat.succ.inj hlength)
        fun files hfiles => hneeded files (List.mem_cons_of_mem _ hfiles)
      have hinput : (ofInput input).origin = .input := rfl
      rw [interleave] at hrest ⊢
      rw [List.zip_cons_cons, List.flatMap_cons, List.filter_append, hrest,
        List.filter_cons_of_pos (by simp [hinput]), hfound, List.map_cons]
      rfl

end BuildOutput

/-! ## Whole builds -/

/-- The input has come through a build as the file. -/
structure SourceFile.PassesAs (input : SourceFile) (f : OutputFile) : Prop where
  source_eq : f.source = input.path
  relative_eq : f.relative = input.relative
  contents_eq : input.IsFixed → f.contents = input.contents

/-- What has become of the inputs of a build, of the files that each of them was the first to
need, and of those that were extracted completely. -/
structure BuildOutput.Carries (t : FileTree) (inputs : List SourceFile)
    (needed : List (List OutputFile)) (extracted : List OutputFile) (out : BuildOutput) : Prop where
  /-- Each input is followed by the files that it needs, and the full extraction comes last. -/
  places_eq : out.files.map OutputFile.place =
    ((inputs.zip needed).flatMap fun (input, files) =>
      (input.path, input.relative, .input) :: files.map OutputFile.place) ++
        extracted.map OutputFile.place
  length_eq : needed.length = inputs.length
  inputs_pass : List.Forall₂ SourceFile.PassesAs inputs
    (out.files.filter fun f => f.origin = .input)
  needed_read : ∀ files ∈ needed, ∀ f ∈ files, f.IsRead t ∧ f.IsReferenced
  extracted_read : ∀ f ∈ extracted, f.IsRead t
  /-- Rewritten are those files that no longer hold what was read. -/
  rewritten_eq : out.summary.rewritten =
    ((interleave inputs needed ++ extracted).zip out.files).countP
      fun (before, after) => after.contents ≠ before.contents
  inputs_eq : out.summary.inputs = inputs.length
  dependencies_eq : out.summary.inputs + out.summary.dependencies = out.files.length

/-- What goes into a build comes out of it in order, with what it needs behind it, and
untouched where there is nothing to rewrite. -/
theorem Session.build_carries {s : Session} {t : FileTree} {inputs : List SourceFile}
    {out : BuildOutput} (h : (s.build t inputs).1 = .ok out) :
    ∃ extracted s₁ needed s₂, Extracts t s.settings.fullExtract s extracted s₁ ∧
      Discovers t inputs s₁ needed s₂ ∧ out.Carries t inputs needed extracted := by
  obtain ⟨extracted, b₁, needed, hfull, hdiscovers, hrewrite, hsummary, -⟩ :=
    Session.build_outcome (Prod.ext h rfl)
  have hextracts := Progress.extracts_of_extractFull hfull
  refine ⟨extracted, b₁.session, needed, _, hextracts, hdiscovers, ?_⟩
  have hstart : Discovery.Collects s (OutputFile.IsRead t) { session := s } := ⟨rfl, rfl, by simp⟩
  have hextracted := hstart.extracts hextracts
  have hneeded := hextracted.next.discovers hdiscovers
  have hread : ∀ files ∈ needed, ∀ f ∈ files, f.IsRead t ∧ f.IsReferenced :=
    fun files hfiles f hf => hneeded.outputs f (List.mem_flatten_of_mem hfiles hf)
  obtain ⟨g, hg, hall⟩ := BuildOutput.exists_inPlace_rewriteAll
    ((s.build t inputs).2.session.resolver t) (s.build t inputs).2.session.planner
    (BuildOutput.interleave inputs needed ++ extracted)
  obtain ⟨hfiles, hcount⟩ := Prod.mk.inj (hrewrite.symm.trans hall)
  have horigin (f : OutputFile) : (g f).origin = f.origin := congrArg (·.2.2) (hg.place_eq f)
  have hinputs : out.files.filter (fun f => f.origin = .input) =
      inputs.map fun input => g (BuildOutput.ofInput input) := by
    have hextracted : extracted.filter (fun f => f.origin = .input) = [] :=
      List.filter_eq_nil_iff.2 fun f hf => by
        simpa [OutputFile.isDependency] using (hextracted.outputs f hf).isDependency
    rw [hfiles, List.filter_map, List.filter_congr fun f _ => by
      rw [Function.comp_apply, horigin], List.filter_append, hextracted,
      BuildOutput.filter_input_interleave hdiscovers.length_eq
        fun files hfiles f hf => (hread files hfiles f hf).1.isDependency, List.append_nil,
      List.map_map]
    rfl
  have hpass : List.Forall₂ SourceFile.PassesAs inputs
      (out.files.filter fun f => f.origin = .input) := by
    rw [hinputs, List.forall₂_map_right_iff, List.forall₂_same]
    intro input _
    obtain ⟨hsource, hplace⟩ := Prod.mk.inj (hg.place_eq (BuildOutput.ofInput input))
    exact ⟨hsource, (Prod.mk.inj hplace).1, hg.contents_eq input⟩
  have hcounted : out.summary.inputs = (out.files.filter fun f => f.origin = .input).length := by
    rw [hsummary, BuildOutput.summarize, ← List.countP_eq_length_filter]
    simp [OutputFile.isDependency]
  exact
    { places_eq := by
        rw [hfiles, List.map_map, List.map_append, BuildOutput.interleave, List.map_flatMap]
        simp only [Function.comp_def, hg.place_eq, List.map_cons]
        rfl
      length_eq := hdiscovers.length_eq.symm
      inputs_pass := hpass
      needed_read := hread
      extracted_read := hextracted.outputs
      rewritten_eq := by
        rw [hcount, hfiles]
        exact (BuildOutput.countP_zip_map
          (fun before after => after.contents ≠ before.contents) g _).symm
      inputs_eq := hcounted.trans hpass.length_eq.symm
      dependencies_eq := by
        rw [hsummary, List.length_eq_countP_add_countP OutputFile.isDependency, Nat.add_comm]
        simp [BuildOutput.summarize] }

/-- An image that could not be read. -/
def kitImage : SourceFile := ⟨⟨"/b.png"⟩, ⟨"/"⟩, none⟩

/-- A build with a file in its middle that needs nothing. -/
theorem Session.build_carries_kit : ∃ out,
    ((Session.start kitTree (.forProject ⟨"/"⟩)).build kitTree
      [kitScript, kitImage, kitPage]).1 = .ok out ∧
    (out.files.map OutputFile.source = [⟨"/a.js"⟩, ⟨"/node_modules/p/index.js"⟩, ⟨"/b.png"⟩,
        ⟨"/page.json"⟩, ⟨"/node_modules/p/index.json"⟩] ∧ out.summary = ⟨3, 2, 2, ["p"]⟩) ∧
    ∃ extracted s₁ needed s₂,
      Extracts kitTree [] (.start kitTree (.forProject ⟨"/"⟩)) extracted s₁ ∧
        Discovers kitTree [kitScript, kitImage, kitPage] s₁ needed s₂ ∧
          out.Carries kitTree [kitScript, kitImage, kitPage] needed extracted := by
  have hview : ((Session.start kitTree (.forProject ⟨"/"⟩)).build kitTree
      [kitScript, kitImage, kitPage]).1.toOption.map
        (fun out => (out.files.map OutputFile.source, out.summary)) =
      some ([⟨"/a.js"⟩, ⟨"/node_modules/p/index.js"⟩, ⟨"/b.png"⟩, ⟨"/page.json"⟩,
        ⟨"/node_modules/p/index.json"⟩], ⟨3, 2, 2, ["p"]⟩) := by
    decide +kernel
  obtain ⟨out, hout, hseen⟩ := exists_of_toOption_map hview
  exact ⟨out, hout, Prod.mk.inj hseen, Session.build_carries hout⟩

/-! ## When everything is rewritten -/

/-- The table knows nothing of the files but where they were read, where they are written and
how they were reached. -/
theorem PackageTable.ofOutputs_congr {files files' : List OutputFile} (r : Planner)
    (h : files.map OutputFile.place = files'.map OutputFile.place) :
    PackageTable.ofOutputs r files = PackageTable.ofOutputs r files' := by
  have hplaces (files : List OutputFile) : PackageTable.ofOutputs r files =
      (files.map OutputFile.place).foldl
        (fun t x => PackageTable.addFile r t ⟨x.1, x.2.1, none, x.2.2⟩) {} := by
    rw [List.foldl_map]
    rfl
  rw [hplaces, hplaces, h]

/-- Every file leaves a build with the text that the rewriter gives for it, provided that the
table has a package or no file at all. Without a package nothing is rewritten. -/
theorem Session.build_rewrites {s : Session} {t : FileTree} {inputs : List SourceFile}
    {out : BuildOutput} (h : (s.build t inputs).1 = .ok out) :
    ∃ extracted s₁ needed s₂, Extracts t s.settings.fullExtract s extracted s₁ ∧
      Discovers t inputs s₁ needed s₂ ∧
      let table := PackageTable.ofOutputs s.planner out.files
      let read := BuildOutput.interleave inputs needed ++ extracted
      (table.entries.isEmpty = true → out.files = read) ∧
        (table.entries.isEmpty = false ∨ table.emitted.isEmpty = true →
          out.files = read.map (BuildOutput.rewritten
            { table := table, resolver := some (s.resolver t) })) := by
  obtain ⟨extracted, b₁, needed, hfull, hdiscovers, hrewrite, -⟩ :=
    Session.build_outcome (Prod.ext h rfl)
  have hextracts := Progress.extracts_of_extractFull hfull
  refine ⟨extracted, b₁.session, needed, _, hextracts, hdiscovers, ?_⟩
  have hstart : Discovery.Collects s (OutputFile.IsRead t) { session := s } := ⟨rfl, rfl, by simp⟩
  have hneeded := (hstart.extracts hextracts).next.discovers hdiscovers
  generalize (s.build t inputs).2.session = s₂ at hrewrite hneeded
  have hresolver : s₂.resolver t = s.resolver t := by
    rw [Session.resolver, hneeded.catalog_eq]
    rfl
  have hplanner : s₂.planner = s.planner := by
    rw [Session.planner, hneeded.catalog_eq, hneeded.settings_eq]
    rfl
  rw [hresolver, hplanner] at hrewrite
  have hplaces : out.files.map OutputFile.place =
      (BuildOutput.interleave inputs needed ++ extracted).map OutputFile.place := by
    have hmap := BuildOutput.map_rewriteAll (s.resolver t) s.planner
      (BuildOutput.interleave inputs needed ++ extracted) fun a b c => (a, b, c)
    rwa [hrewrite] at hmap
  simp only [PackageTable.ofOutputs_congr s.planner hplaces]
  simp only [BuildOutput.rewriteAll] at hrewrite
  split at hrewrite
  · next hentries =>
    obtain ⟨hfiles, -⟩ := Prod.mk.inj hrewrite
    refine ⟨fun _ => hfiles.symm, fun htable => ?_⟩
    have hemitted := htable.resolve_left (by simp [hentries])
    rw [List.map_congr_left fun f _ =>
      BuildOutput.rewritten_of_table_empty _ hentries hemitted f, List.map_id', hfiles]
  · next hentries =>
    obtain ⟨hfiles, -⟩ := Prod.mk.inj hrewrite
    refine ⟨fun hempty => absurd hempty hentries, fun _ => ?_⟩
    rw [← hfiles]
    exact List.map_congr_left fun f _ => BuildOutput.getD_rewriteFile? _ f

/-- A package whose main file lies beside it, in a directory that the survey of packages leaves
out. -/
def besideTree : FileTree :=
  FileTree.ofEntries [(["node_modules"], .directory), (["node_modules", "p"], .directory),
    (["node_modules", "p", "package.json"], .file "\x7b\"main\":\"../.q/index.js\"\x7d".toUTF8),
    (["node_modules", ".q"], .directory), (["node_modules", ".q", "index.js"], .file "".toUTF8)]

/-- A file that is written may leave the table without a package, and the specifier that leads
to it is then left alone, although the rewriter would point it at the file. -/
theorem Session.exists_rewritten_ne : ∃ t inputs out,
    ((Session.start t (.forProject ⟨"/"⟩)).build t inputs).1 = .ok out ∧ ∃ f ∈ out.files,
      BuildOutput.rewritten
        { table := PackageTable.ofOutputs (Session.start t (.forProject ⟨"/"⟩)).planner out.files
          resolver := some ((Session.start t (.forProject ⟨"/"⟩)).resolver t) } f ≠ f := by
  have hview : ((Session.start besideTree (.forProject ⟨"/"⟩)).build besideTree
      [kitScript]).1.toOption.map (fun out => out.files.any fun f =>
        (BuildOutput.rewriteFile?
          { table := PackageTable.ofOutputs
              (Session.start besideTree (.forProject ⟨"/"⟩)).planner out.files
            resolver := some ((Session.start besideTree (.forProject ⟨"/"⟩)).resolver besideTree) }
          f).isSome) = some true := by
    decide +kernel
  obtain ⟨out, hout, hany⟩ := exists_of_toOption_map hview
  obtain ⟨f, hf, hsome⟩ := List.any_eq_true.1 hany
  obtain ⟨f', hf'⟩ := Option.isSome_iff_exists.1 hsome
  refine ⟨besideTree, [kitScript], out, hout, f, hf, fun heq => ?_⟩
  have hsame := BuildOutput.getD_rewriteFile? _ f ▸ heq
  rw [hf'] at hsame
  exact BuildOutput.contents_ne_of_rewriteFile? _ hf' (congrArg OutputFile.contents hsame)

end Vendoring
