/-
# The course of a build

A build that succeeds has gone through the entries of the full extraction and
then through its inputs, one discovery after the other, each starting from the
session that the one before left. The files of the build are the inputs and
everything that these discoveries collected; rewriting specifiers changes what
the files hold, and nothing else about them.
-/

import Vendoring.Build.Run

namespace Vendoring

theorem SourceFile.exists_contents (f : SourceFile) (h : f.isNull = false) :
    ∃ bytes, f.contents = some bytes := by
  cases hcontents : f.contents with
  | none => simp [isNull, hcontents] at h
  | some bytes => exact ⟨bytes, rfl⟩

/-- The discoveries for some entries of the full extraction, with the files that
they collect. -/
inductive Extracts (t : FileTree) : List String → Session → List OutputFile → Session → Prop
  | nil (s : Session) : Extracts t [] s [] s
  | cons {entry : String} {rest : List String} {s s' : Session} {d : Discovery}
      {files : List OutputFile} : Discovery.ofEntry t s entry = .ok d →
      Extracts t rest d.session files s' → Extracts t (entry :: rest) s (d.outputs ++ files) s'

/-- The discoveries for some inputs, with the files that each collects. -/
inductive Discovers (t : FileTree) :
    List SourceFile → Session → List (List OutputFile) → Session → Prop
  | nil (s : Session) : Discovers t [] s [] s
  | null {input : SourceFile} {rest : List SourceFile} {s s' : Session}
      {needed : List (List OutputFile)} : input.isNull = true →
      Discovers t rest s needed s' → Discovers t (input :: rest) s ([] :: needed) s'
  | cons {input : SourceFile} {rest : List SourceFile} {s s' : Session} {d : Discovery}
      {needed : List (List OutputFile)} : input.isNull = false →
      Discovery.ofInput t s input = .ok d → Discovers t rest d.session needed s' →
      Discovers t (input :: rest) s (d.outputs :: needed) s'

/-- The discoveries for some entries come to one outcome. -/
theorem Extracts.unique {t : FileTree} {entries : List String} {s s' s'' : Session}
    {files files' : List OutputFile} (h : Extracts t entries s files s')
    (h' : Extracts t entries s files' s'') : files = files' ∧ s' = s'' := by
  induction h generalizing files' with
  | nil =>
    cases h'
    exact ⟨rfl, rfl⟩
  | cons hok _ ih =>
    cases h' with
    | cons hok' hrest =>
      obtain rfl := Except.ok.inj (hok.symm.trans hok')
      obtain ⟨rfl, rfl⟩ := ih hrest
      exact ⟨rfl, rfl⟩

/-- The discoveries for some inputs come to one outcome. -/
theorem Discovers.unique {t : FileTree} {inputs : List SourceFile} {s s' s'' : Session}
    {needed needed' : List (List OutputFile)} (h : Discovers t inputs s needed s')
    (h' : Discovers t inputs s needed' s'') : needed = needed' ∧ s' = s'' := by
  induction h generalizing needed' with
  | nil =>
    cases h'
    exact ⟨rfl, rfl⟩
  | null hnull _ ih =>
    cases h' with
    | null _ hrest =>
      obtain ⟨rfl, rfl⟩ := ih hrest
      exact ⟨rfl, rfl⟩
    | cons hfull => simp [hnull] at hfull
  | cons hfull hok _ ih =>
    cases h' with
    | null hnull => simp [hnull] at hfull
    | cons _ hok' hrest =>
      obtain rfl := Except.ok.inj (hok.symm.trans hok')
      obtain ⟨rfl, rfl⟩ := ih hrest
      exact ⟨rfl, rfl⟩

namespace Progress

variable {t : FileTree} {b : Progress}

theorem extractFull_of_extracts {entries : List String} {files : List OutputFile}
    {s s' : Session} (h : Extracts t entries s files s') (events : List Event) :
    ∃ events', extractFull t entries ⟨s, events⟩ = (.ok files, ⟨s', events'⟩) := by
  induction h generalizing events with
  | nil => exact ⟨events, rfl⟩
  | @cons _ _ _ _ d _ hok _ ih =>
    obtain ⟨events', hrest⟩ := ih (events ++ d.events)
    refine ⟨events', ?_⟩
    rw [extractFull, hok]
    simp only [finish, hrest, Except.map]

/-- Entries that are taken over are taken over one by one. -/
theorem extractFull_cons_eq_ok {entry : String} {rest : List String} {files : List OutputFile}
    {b' : Progress} (h : extractFull t (entry :: rest) b = (.ok files, b')) :
    ∃ d others, Discovery.ofEntry t b.session entry = .ok d ∧ files = d.outputs ++ others ∧
      extractFull t rest ⟨d.session, b.events ++ d.events⟩ = (.ok others, b') := by
  rw [extractFull] at h
  cases hentry : Discovery.ofEntry t b.session entry with
  | error halted => simp [hentry, finish] at h
  | ok d =>
    simp only [hentry, finish] at h
    obtain ⟨hfiles, rfl⟩ := Prod.mk.inj h
    cases hothers : (extractFull t rest ⟨d.session, b.events ++ d.events⟩).1 with
    | error failure => simp [hothers, Except.map] at hfiles
    | ok others =>
      rw [hothers] at hfiles
      exact ⟨d, others, rfl, (Except.ok.inj hfiles).symm, Prod.ext hothers rfl⟩

theorem extracts_of_extractFull {entries : List String} {files : List OutputFile} {b' : Progress}
    (h : extractFull t entries b = (.ok files, b')) :
    Extracts t entries b.session files b'.session := by
  induction entries generalizing b files with
  | nil =>
    obtain ⟨hfiles, rfl⟩ := Prod.mk.inj h
    obtain rfl := Except.ok.inj hfiles
    exact .nil _
  | cons entry rest ih =>
    obtain ⟨d, others, hentry, rfl, hrest⟩ := extractFull_cons_eq_ok h
    exact .cons hentry (ih hrest)

/-- The inputs of a list with their indices from the given one on. -/
def indexed (inputs : List SourceFile) (start : Nat) : List (Nat × SourceFile) :=
  (inputs.zipIdx start).map fun (f, i) => (i, f)

theorem indexed_cons (input : SourceFile) (rest : List SourceFile) (start : Nat) :
    indexed (input :: rest) start = (start, input) :: indexed rest (start + 1) := by
  simp [indexed]

end Progress

namespace Collected

variable {c : Collected} {message : Nat × InputResult} {messages : List (Nat × InputResult)}

/-- A failure that has arrived stays, so without one every result is good. -/
theorem receive_of_failure_eq_none (h : (c.receive message).failure = none) :
    c.failure = none ∧ ∃ files, message.2 = .ok files ∧
      c.receive message = { c with slots := c.slots.set message.1 files } := by
  obtain ⟨index, result⟩ := message
  cases result with
  | ok files => exact ⟨h, files, rfl, rfl⟩
  | error failure =>
    simp only [receive] at h
    split at h
    · simp at h
    · next hfirst =>
      rw [h] at hfirst
      simp at hfirst

theorem failure_of_foldl (h : (messages.foldl receive c).failure = none) : c.failure = none := by
  induction messages generalizing c with
  | nil => exact h
  | cons message messages ih => exact (receive_of_failure_eq_none (ih h)).1

end Collected

namespace Progress

variable {t : FileTree} {b : Progress}

theorem discoverAll_null {input : SourceFile} {rest : List (Nat × SourceFile)} {index : Nat}
    (h : input.isNull = true) :
    discoverAll t ((index, input) :: rest) b = discoverAll t rest b := by
  rw [discoverAll, if_pos h]

theorem discoverAll_cons {input : SourceFile} {rest : List (Nat × SourceFile)} {index : Nat}
    (h : input.isNull = false) :
    discoverAll t ((index, input) :: rest) b =
      ((index, (discover t b input).1) :: (discoverAll t rest (discover t b input).2).1,
        (discoverAll t rest (discover t b input).2).2) := by
  rw [discoverAll, if_neg (by simp [h])]

theorem discover_eq {input : SourceFile} {d : Discovery}
    (h : Discovery.ofInput t b.session input = .ok d) :
    discover t b input = (.ok d.outputs, ⟨d.session, b.events ++ d.events⟩) := by
  simp [discover, finish, h]

theorem exists_of_discover {input : SourceFile} {files : List OutputFile}
    (h : (discover t b input).1 = .ok files) :
    ∃ d, Discovery.ofInput t b.session input = .ok d ∧ d.outputs = files := by
  cases hinput : Discovery.ofInput t b.session input with
  | error halted => simp [discover, finish, hinput] at h
  | ok d =>
    rw [discover_eq hinput] at h
    exact ⟨d, rfl, Except.ok.inj h⟩

/-- If no result is a failure, the inputs have been discovered one by one, and the
results fill the slots in order. -/
theorem discovers_of_discoverAll (inputs : List SourceFile) (start : Nat) {c : Collected}
    (before : List (List OutputFile)) (hbefore : before.length = start)
    (hslots : c.slots = before ++ List.replicate inputs.length [])
    (hnone : ((discoverAll t (indexed inputs start) b).1.foldl Collected.receive c).failure = none) :
    ∃ needed,
      Discovers t inputs b.session needed (discoverAll t (indexed inputs start) b).2.session ∧
      ((discoverAll t (indexed inputs start) b).1.foldl Collected.receive c).slots =
        before ++ needed := by
  induction inputs generalizing start c before b with
  | nil => exact ⟨[], .nil _, by simpa [indexed, discoverAll] using hslots⟩
  | cons input rest ih =>
    have hnext : (before ++ [[]]).length = start + 1 := by simp [hbefore]
    rw [indexed_cons] at hnone ⊢
    cases hnull : input.isNull with
    | true =>
      rw [discoverAll_null hnull] at hnone ⊢
      obtain ⟨needed, hneeded, hfold⟩ :=
        ih _ _ hnext (by simp [hslots, List.replicate_succ]) hnone
      exact ⟨[] :: needed, .null hnull hneeded, by simpa using hfold⟩
    | false =>
      rw [discoverAll_cons hnull, List.foldl_cons] at hnone ⊢
      obtain ⟨-, files, hfiles, hreceive⟩ :=
        Collected.receive_of_failure_eq_none (Collected.failure_of_foldl hnone)
      obtain ⟨d, hd, rfl⟩ := exists_of_discover hfiles
      have hset : (c.receive (start, (discover t b input).1)).slots =
          (before ++ [d.outputs]) ++ List.replicate rest.length [] := by
        rw [hreceive, hslots, List.set_append_right _ _ (by omega), hbefore, Nat.sub_self,
          List.length_cons, List.replicate_succ, List.set_cons_zero, List.append_assoc]
        rfl
      obtain ⟨needed, hneeded, hfold⟩ :=
        ih _ (before ++ [d.outputs]) (by simp [hbefore]) hset hnone
      rw [discover_eq hd] at hneeded
      refine ⟨d.outputs :: needed, .cons hnull hd ?_, by simpa using hfold⟩
      rw [discover_eq hd]
      exact hneeded

/-- Discoveries that come to an end fill the slots in order. -/
theorem discoverAll_of_discovers {inputs : List SourceFile} {needed : List (List OutputFile)}
    {s s' : Session} (h : Discovers t inputs s needed s') (events : List Event) (start : Nat)
    {c : Collected} (before : List (List OutputFile)) (hbefore : before.length = start)
    (hslots : c.slots = before ++ List.replicate inputs.length []) (hnone : c.failure = none) :
    (discoverAll t (indexed inputs start) ⟨s, events⟩).2.session = s' ∧
      (discoverAll t (indexed inputs start) ⟨s, events⟩).1.foldl Collected.receive c =
        { slots := before ++ needed, failure := none } := by
  induction h generalizing start c before events with
  | nil =>
    obtain ⟨slots, failure⟩ := c
    obtain rfl : slots = before := by simpa using hslots
    obtain rfl : failure = none := hnone
    exact ⟨rfl, by simp [indexed, discoverAll]⟩
  | null hnull _ ih =>
    rw [indexed_cons, discoverAll_null hnull]
    obtain ⟨hsession, hfold⟩ := ih events (start + 1) (before ++ [[]]) (by simp [hbefore])
      (by simp [hslots, List.replicate_succ]) hnone
    exact ⟨hsession, by simpa using hfold⟩
  | @cons input rest s s' d needed hfull hok _ ih =>
    rw [indexed_cons, discoverAll_cons hfull, discover_eq hok]
    have hset : (c.receive (start, .ok d.outputs)).slots =
        (before ++ [d.outputs]) ++ List.replicate rest.length [] := by
      rw [Collected.receive, hslots, List.set_append_right _ _ (by omega), hbefore, Nat.sub_self,
        List.length_cons, List.replicate_succ, List.set_cons_zero, List.append_assoc]
      rfl
    obtain ⟨hsession, hfold⟩ :=
      ih (events ++ d.events) (start + 1) (before ++ [d.outputs]) (by simp [hbefore]) hset hnone
    exact ⟨hsession, by simpa using hfold⟩

end Progress

namespace BuildOutput

variable {files : List OutputFile} {r : Resolver} {planner : Planner}

theorem rewriteFile?_eq_some {w : Rewriter} {f f' : OutputFile} (h : rewriteFile? w f = some f') :
    ∃ contents, f' = { f with contents := contents } := by
  unfold rewriteFile? at h
  split at h
  · simp only [Option.bind_eq_bind, Option.bind_eq_some_iff] at h
    obtain ⟨text, -, h⟩ := h
    split at h
    · simp at h
    · exact ⟨_, (Option.some.inj h).symm⟩
  · simp at h

/-- Rewriting leaves everything but the contents as it is. -/
theorem map_rewriteAll (r : Resolver) (planner : Planner) (files : List OutputFile) {β : Type}
    (g : Path → Path → Origin → β) :
    (rewriteAll r planner files).1.map (fun f => g f.source f.relative f.origin) =
      files.map fun f => g f.source f.relative f.origin := by
  simp only [rewriteAll]
  split
  · rfl
  · rw [List.map_map]
    refine List.map_congr_left fun f _ => ?_
    simp only [Function.comp_apply]
    cases hf : rewriteFile?
        { table := PackageTable.ofOutputs planner files, resolver := some r } f with
    | none => rfl
    | some f' =>
      obtain ⟨contents, rfl⟩ := rewriteFile?_eq_some hf
      rfl

/-- Without the inputs, what is left is what came out of the discoveries. -/
theorem filter_interleave {inputs : List SourceFile} {needed : List (List OutputFile)}
    (hlength : inputs.length = needed.length)
    (hneeded : ∀ f ∈ needed.flatten, f.isDependency = true) :
    (interleave inputs needed).filter OutputFile.isDependency = needed.flatten := by
  induction inputs generalizing needed with
  | nil =>
    obtain rfl := List.eq_nil_of_length_eq_zero hlength.symm
    rfl
  | cons input rest ih =>
    cases needed with
    | nil => simp at hlength
    | cons found needed =>
      have hfound : found.filter OutputFile.isDependency = found :=
        List.filter_eq_self.2 fun f hf => hneeded f (List.mem_append_left _ hf)
      have hrest := ih (Nat.succ.inj hlength) fun f hf => hneeded f (List.mem_append_right _ hf)
      have hinput : (ofInput input).isDependency = false := rfl
      rw [interleave] at hrest ⊢
      rw [List.zip_cons_cons, List.flatMap_cons, List.filter_append, hrest,
        List.filter_cons_of_neg (by simp [hinput]), hfound, List.flatten_cons]

/-- The files of packages that leave the build are those that came out of its discoveries. -/
theorem perm_filter_rewriteAll {inputs : List SourceFile} {needed : List (List OutputFile)}
    {extracted : List OutputFile} (r : Resolver) (planner : Planner)
    (hlength : inputs.length = needed.length)
    (hfound : ∀ f ∈ extracted ++ needed.flatten, f.isDependency = true) :
    ((extracted ++ needed.flatten).map fun f => (f.source, f.origin)).Perm
      (((rewriteAll r planner (interleave inputs needed ++ extracted)).1.filter
        OutputFile.isDependency).map fun f => (f.source, f.origin)) := by
  have hfilter (l : List OutputFile) :
      (l.filter OutputFile.isDependency).map (fun f => (f.source, f.origin)) =
        (l.map fun f => (f.source, f.origin)).filter fun x => x.2 ≠ .input := by
    rw [List.filter_map]
    rfl
  have hextracted : extracted.filter OutputFile.isDependency = extracted :=
    List.filter_eq_self.2 fun f hf => hfound f (List.mem_append_left _ hf)
  rw [hfilter, map_rewriteAll r planner _ fun source _ origin => (source, origin), ← hfilter,
    List.filter_append, hextracted,
    filter_interleave hlength fun f hf => hfound f (List.mem_append_right _ hf)]
  exact List.perm_append_comm.map _

/-- What leaves the build is an input, or came out of a discovery. -/
theorem mem_interleave {inputs : List SourceFile} {needed : List (List OutputFile)}
    (hlength : inputs.length = needed.length) {f : OutputFile} :
    f ∈ interleave inputs needed ↔
      (∃ input ∈ inputs, ofInput input = f) ∨ f ∈ needed.flatten := by
  constructor
  · intro hf
    obtain ⟨⟨input, found⟩, hzip, hf⟩ := List.mem_flatMap.1 hf
    rcases List.mem_cons.1 hf with rfl | hf
    · exact .inl ⟨input, (List.of_mem_zip hzip).1, rfl⟩
    · exact .inr (List.mem_flatten.2 ⟨found, (List.of_mem_zip hzip).2, hf⟩)
  · rintro (⟨input, hinput, rfl⟩ | hf)
    · obtain ⟨i, hi, rfl⟩ := List.getElem_of_mem hinput
      refine List.mem_flatMap.2 ⟨(inputs[i], needed[i]), ?_, by simp⟩
      exact List.mem_iff_getElem.2 ⟨i, by simp [← hlength, hi], by simp⟩
    · obtain ⟨found, hfound, hf⟩ := List.mem_flatten.1 hf
      obtain ⟨i, hi, rfl⟩ := List.getElem_of_mem hfound
      refine List.mem_flatMap.2 ⟨(inputs[i], needed[i]), ?_, List.mem_cons_of_mem _ hf⟩
      exact List.mem_iff_getElem.2 ⟨i, by simp [hlength, hi], by simp⟩

end BuildOutput

theorem Discovers.length_eq {t : FileTree} {inputs : List SourceFile} {s s' : Session}
    {needed : List (List OutputFile)} (h : Discovers t inputs s needed s') :
    inputs.length = needed.length := by
  induction h with
  | nil => rfl
  | null _ _ ih => simp [ih]
  | cons _ _ _ ih => simp [ih]

/-- A build that succeeds has taken over its entries, discovered what its inputs need,
rewritten what it found, and reported all of this. -/
theorem Session.build_outcome {s : Session} {t : FileTree} {inputs : List SourceFile}
    {out : BuildOutput} {b : Progress} (h : s.build t inputs = (.ok out, b)) :
    ∃ extracted b₁ needed, Progress.extractFull t s.settings.fullExtract
        ⟨s, [.buildStarted inputs.length, .catalogReady s.catalog.size]⟩ = (.ok extracted, b₁) ∧
      Discovers t inputs b₁.session needed b.session ∧
      BuildOutput.rewriteAll (b.session.resolver t) b.session.planner
        (BuildOutput.interleave inputs needed ++ extracted) = (out.files, out.summary.rewritten) ∧
      out.summary = BuildOutput.summarize out.files out.summary.rewritten ∧
      b.events = (Progress.discoverAll t (Progress.indexed inputs 0) b₁).2.events ++
        [.rewriteFinished out.summary.rewritten, .buildFinished out.summary] := by
  simp only [Session.build] at h
  cases hfull : Progress.extractFull t s.settings.fullExtract
      { session := s, events := [.buildStarted inputs.length, .catalogReady s.catalog.size] } with
  | mk result b₁ =>
    rw [hfull] at h
    cases result with
    | error failure => simp at h
    | ok extracted =>
      simp only at h
      cases hneeded : Collected.ofMessages inputs.length
          (Progress.discoverAll t (inputs.zipIdx.map fun (f, i) => (i, f)) b₁).1 with
      | error failure =>
        rw [hneeded] at h
        simp at h
      | ok needed =>
        rw [hneeded] at h
        obtain ⟨hout, rfl⟩ := Prod.mk.inj h
        obtain rfl := Except.ok.inj hout
        simp only [Collected.ofMessages] at hneeded
        split at hneeded
        · simp at hneeded
        · next hnone =>
          obtain ⟨found, hfound, hslots⟩ :=
            Progress.discovers_of_discoverAll inputs 0 [] rfl (by simp) hnone
          obtain rfl : found = needed := hslots.symm.trans (Except.ok.inj hneeded)
          exact ⟨extracted, b₁, found, rfl, hfound, rfl, rfl, List.append_assoc _ _ _⟩

/-- A build that succeeds has taken over its entries, discovered what its inputs need, and
reported both. -/
theorem Session.build_run {s : Session} {t : FileTree} {inputs : List SourceFile}
    {out : BuildOutput} {b : Progress} (h : s.build t inputs = (.ok out, b)) :
    ∃ extracted b₁ needed, Progress.extractFull t s.settings.fullExtract
        ⟨s, [.buildStarted inputs.length, .catalogReady s.catalog.size]⟩ = (.ok extracted, b₁) ∧
      Discovers t inputs b₁.session needed b.session ∧
      out.files = (BuildOutput.rewriteAll (b.session.resolver t) b.session.planner
        (BuildOutput.interleave inputs needed ++ extracted)).1 ∧
      ∃ count summary, b.events = (Progress.discoverAll t (Progress.indexed inputs 0) b₁).2.events ++
        [.rewriteFinished count, .buildFinished summary] := by
  obtain ⟨extracted, b₁, needed, hfull, hdiscovers, hrewrite, -, hevents⟩ := Session.build_outcome h
  exact ⟨extracted, b₁, needed, hfull, hdiscovers, by rw [hrewrite], _, _, hevents⟩

/-- A build that succeeds has gone through its discoveries. -/
theorem Session.build_eq_ok {s : Session} {t : FileTree} {inputs : List SourceFile}
    {out : BuildOutput} {b : Progress} (h : s.build t inputs = (.ok out, b)) :
    ∃ extracted s₁ needed s₂, Extracts t s.settings.fullExtract s extracted s₁ ∧
      Discovers t inputs s₁ needed s₂ ∧
      out.files = (BuildOutput.rewriteAll (s₂.resolver t) s₂.planner
        (BuildOutput.interleave inputs needed ++ extracted)).1 := by
  obtain ⟨extracted, b₁, needed, hfull, hdiscovers, hfiles, -⟩ := Session.build_run h
  exact ⟨extracted, b₁.session, needed, b.session, Progress.extracts_of_extractFull hfull,
    hdiscovers, hfiles⟩

/-- A build succeeds if its discoveries do. -/
theorem Session.exists_build {s s₁ s₂ : Session} {t : FileTree} {inputs : List SourceFile}
    {extracted : List OutputFile} {needed : List (List OutputFile)}
    (hextracts : Extracts t s.settings.fullExtract s extracted s₁)
    (hdiscovers : Discovers t inputs s₁ needed s₂) : ∃ out, (s.build t inputs).1 = .ok out := by
  obtain ⟨events, hfull⟩ := Progress.extractFull_of_extracts hextracts
    [.buildStarted inputs.length, .catalogReady s.catalog.size]
  obtain ⟨-, hfold⟩ := Progress.discoverAll_of_discovers hdiscovers events 0
    (c := { slots := List.replicate inputs.length [] }) [] rfl rfl rfl
  have hneeded : Collected.ofMessages inputs.length (Progress.discoverAll t
      (inputs.zipIdx.map fun (f, i) => (i, f)) ⟨s₁, events⟩).1 = .ok needed := by
    rw [Collected.ofMessages, show inputs.zipIdx.map (fun (f, i) => (i, f)) =
      Progress.indexed inputs 0 from rfl, hfold]
    rfl
  simp only [Session.build, hfull, hneeded]
  exact ⟨_, rfl⟩

/-- The files of the build are its inputs and those that were collected, whatever became of
their contents. -/
def BuildOutput.Gathers (out : BuildOutput) (inputs : List SourceFile)
    (collected : List OutputFile) : Prop :=
  ∀ source relative origin,
    (∃ f ∈ out.files, f.source = source ∧ f.relative = relative ∧ f.origin = origin) ↔
      (∃ input ∈ inputs, input.path = source ∧ input.relative = relative ∧ .input = origin) ∨
      ∃ f ∈ collected, f.source = source ∧ f.relative = relative ∧ f.origin = origin

section Gathers

variable {out : BuildOutput} {inputs : List SourceFile} {collected : List OutputFile}
  {f : OutputFile}

theorem BuildOutput.Gathers.exists_mem_files (h : out.Gathers inputs collected)
    (hf : f ∈ collected) :
    ∃ g ∈ out.files, g.source = f.source ∧ g.relative = f.relative ∧ g.origin = f.origin :=
  (h _ _ _).2 (.inr ⟨f, hf, rfl, rfl, rfl⟩)

theorem BuildOutput.Gathers.of_mem_files (h : out.Gathers inputs collected)
    (hf : f ∈ out.files) :
    (∃ input ∈ inputs, input.path = f.source ∧ input.relative = f.relative ∧ .input = f.origin) ∨
      ∃ g ∈ collected, g.source = f.source ∧ g.relative = f.relative ∧ g.origin = f.origin :=
  (h _ _ _).1 ⟨f, hf, rfl, rfl, rfl⟩

/-- A file that is no input was collected. -/
theorem BuildOutput.Gathers.exists_mem_collected (h : out.Gathers inputs collected)
    (hf : f ∈ out.files) (horigin : f.origin ≠ .input) :
    ∃ g ∈ collected, g.source = f.source ∧ g.relative = f.relative ∧ g.origin = f.origin :=
  (h.of_mem_files hf).resolve_left fun ⟨_, _, _, _, hinput⟩ => horigin hinput.symm

end Gathers

/-- The files that leave a build are its inputs and what its discoveries collected. -/
theorem Session.exists_gathers {s : Session} {t : FileTree} {inputs : List SourceFile}
    {out : BuildOutput} (h : (s.build t inputs).1 = .ok out) :
    ∃ extracted s₁ needed s₂, Extracts t s.settings.fullExtract s extracted s₁ ∧
      Discovers t inputs s₁ needed s₂ ∧ out.Gathers inputs (extracted ++ needed.flatten) := by
  obtain ⟨extracted, s₁, needed, s₂, hextracts, hdiscovers, hfiles⟩ :=
    Session.build_eq_ok (Prod.ext h rfl)
  refine ⟨extracted, s₁, needed, s₂, hextracts, hdiscovers, fun source relative origin => ?_⟩
  have hmap := BuildOutput.map_rewriteAll (s₂.resolver t) s₂.planner
    (BuildOutput.interleave inputs needed ++ extracted) fun a b c => (a, b, c)
  rw [← hfiles] at hmap
  have hexists (files : List OutputFile) :
      (∃ f ∈ files, f.source = source ∧ f.relative = relative ∧ f.origin = origin) ↔
        (source, relative, origin) ∈ files.map fun f => (f.source, f.relative, f.origin) := by
    simp
  rw [hexists, hmap, ← hexists]
  constructor
  · rintro ⟨f, hf, rfl, rfl, rfl⟩
    rcases List.mem_append.1 hf with hf | hf
    · rcases (BuildOutput.mem_interleave hdiscovers.length_eq).1 hf with ⟨input, hinput, rfl⟩ | hf
      · exact .inl ⟨input, hinput, rfl, rfl, rfl⟩
      · exact .inr ⟨f, List.mem_append_right _ hf, rfl, rfl, rfl⟩
    · exact .inr ⟨f, List.mem_append_left _ hf, rfl, rfl, rfl⟩
  · rintro (⟨input, hinput, rfl, rfl, rfl⟩ | ⟨f, hf, rfl, rfl, rfl⟩)
    · refine ⟨BuildOutput.ofInput input, List.mem_append_left _ ?_, rfl, rfl, rfl⟩
      exact (BuildOutput.mem_interleave hdiscovers.length_eq).2 (.inl ⟨input, hinput, rfl⟩)
    · refine ⟨f, ?_, rfl, rfl, rfl⟩
      rcases List.mem_append.1 hf with hf | hf
      · exact List.mem_append_right _ hf
      · exact List.mem_append_left _ ((BuildOutput.mem_interleave hdiscovers.length_eq).2 (.inr hf))

/-- A build from one input succeeds if its discovery does, and writes what that collects. -/
theorem Session.exists_build_of_ofInput {s : Session} {t : FileTree} {input : SourceFile}
    {d : Discovery} (hentries : s.settings.fullExtract = []) (hfull : input.isNull = false)
    (hd : Discovery.ofInput t s input = .ok d) :
    ∃ out, (s.build t [input]).1 = .ok out ∧ ∀ g ∈ d.outputs,
      ∃ f ∈ out.files, f.source = g.source ∧ f.relative = g.relative ∧ f.origin = g.origin := by
  have hextracts : Extracts t s.settings.fullExtract s [] s := by
    rw [hentries]
    exact .nil s
  have hdiscovers : Discovers t [input] s [d.outputs] d.session := .cons hfull hd (.nil _)
  obtain ⟨out, hout⟩ := Session.exists_build hextracts hdiscovers
  obtain ⟨extracted, s₁, needed, s₂, hextracts', hdiscovers', hgathers⟩ :=
    Session.exists_gathers hout
  obtain ⟨rfl, rfl⟩ := hextracts.unique hextracts'
  obtain ⟨rfl, rfl⟩ := hdiscovers.unique hdiscovers'
  exact ⟨out, hout, fun g hg => hgathers.exists_mem_files (by simpa using hg)⟩

end Vendoring
