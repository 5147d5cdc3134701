/-
# Writing as far as it goes

Outputs are written one after the other, and the first failure ends the writing. What has been
written by then is there, and nothing else is: every file of the tree is as it was, or it is the
target of an output that was listed before the failure and holds the contents of the last such
output. So no temporary file is left behind, whether a file was moved into place or not.
-/

import Vendoring.Build.Write
import Vendoring.Proofs.FileTree.Edits
import Vendoring.Proofs.Path.Descent

namespace Vendoring.FileTree

open FilesM

variable {t u v : FileTree} {dest dir target p : Path} {loc slot : Location}
  {contents : ByteArray}

/-! ## Temporary files -/

/-- A temporary file is a new one. -/
theorem ends_makeTemporary (attempts : Nat) : Ends (makeTemporary dir contents attempts) t
    (fun loc u => t.entry? loc = none ∧ Puts t u loc (.file contents)) (fun _ u => u = t) := by
  induction attempts generalizing t with
  | zero => exact ends_throw rfl
  | succ attempts ih =>
    have hmade : Ends (makeEntry (dir / temporaryName attempts) (.file contents)) t
        (fun loc u => t.entry? loc = none ∧ Puts t u loc (.file contents)) (fun _ u => u = t) :=
      ends_makeEntry.mono (fun _ _ h => h.2) (fun _ _ h => h)
    refine hmade.tryCatch fun cause u hsame => ?_
    subst hsame
    split
    · exact ih
    · exact ends_throw rfl

/-- The second tree has the contents at the end of the path, and otherwise the files of the
first. -/
structure Writes (t u : FileTree) (target : Path) (contents : ByteArray) : Prop extends
    Grows t u where
  exists_slot : ∃ slot, u.locate target = .ok slot ∧
    ∀ loc, u.file? loc = if loc = slot then some contents else t.file? loc

/-- The trees hold the same. -/
structure SameEntries (t u : FileTree) : Prop where
  workingDir : u.workingDir = t.workingDir
  lookup : ∀ loc, u.entry? loc = t.entry? loc

theorem SameEntries.refl (t : FileTree) : SameEntries t t := ⟨rfl, fun _ => rfl⟩

/-- A new file that is moved on leaves the tree as it was, up to the place where it is moved. -/
theorem Moves.writes {mid : FileTree} (hnone : t.entry? loc = none)
    (hputs : Puts t mid loc (.file contents)) (hslot : mid.slotOf target = .ok slot)
    (hmoves : Moves mid u loc slot contents) : Writes t u target contents := by
  obtain ⟨hplace, hpad, hdir⟩ := slotOf_eq_ok hslot
  have hentry (loc' : Location) :
      u.entry? loc' = if loc' = slot then some (.file contents) else t.entry? loc' := by
    rw [hmoves.lookup]
    split
    · rfl
    · split
      · next heq => rw [heq, hnone]
      · next hne => rw [hputs.entry?_of_ne hne]
  have hself : u.entry? slot = some (.file contents) := by rw [hentry, if_pos rfl]
  have hfresh : t.entry? slot ≠ some .directory := by
    intro hslotDir
    apply hdir
    rw [hputs.entry?_of_ne, hslotDir]
    rintro rfl
    rw [hnone] at hslotDir
    cases hslotDir
  have hputsSlot : Puts t u slot (.file contents) :=
    ⟨hmoves.workingDir.trans hputs.workingDir, hentry⟩
  have hkeeps : KeepsDirectories mid u := by
    refine ⟨hmoves.workingDir, fun loc' hloc' => ?_⟩
    rw [hmoves.lookup, if_neg, if_neg, hloc']
    · rintro rfl
      rw [hputs.entry?_self] at hloc'
      cases hloc'
    · rintro rfl
      exact hdir hloc'
  refine ⟨hputsSlot.grows hfresh, slot, ?_, fun loc' => ?_⟩
  · exact locate_of_placeOf hplace hkeeps (by rw [hself]; rfl) (.inl hpad)
  · by_cases hloc' : loc' = slot
    · rw [if_pos hloc', hloc', file?, hself]
    · rw [if_neg hloc']
      exact file?_congr (hputsSlot.entry?_of_ne hloc')

/-- A new file that is taken away again leaves the tree as it was. -/
theorem Puts.sameEntries_without (hnone : t.entry? loc = none)
    (hputs : Puts t u loc (.file contents)) : SameEntries t (u.without loc) where
  workingDir := (workingDir_without loc).trans hputs.workingDir
  lookup loc' := by
    rw [entry?_without hputs.entry?_self]
    split
    · next heq => rw [heq, hnone]
    · next hne => exact hputs.entry?_of_ne hne

theorem ends_writeThrough : Ends (writeThrough dir target contents) t
    (fun _ u => Writes t u target contents) (fun _ u => SameEntries t u) := by
  unfold writeThrough
  have hmade : Ends (makeTemporary dir contents temporaryAttempts) t
      (fun loc u => t.entry? loc = none ∧ Puts t u loc (.file contents))
      (fun _ u => SameEntries t u) := by
    refine (ends_makeTemporary temporaryAttempts).mono (fun _ _ h => h) fun _ u hsame => ?_
    rw [hsame]
    exact .refl t
  apply hmade.bind
  rintro loc mid ⟨hnone, hputs⟩
  have hmoved : Ends (moveFile loc target) mid (fun _ u => Writes t u target contents)
      (fun _ u => u = mid) :=
    (ends_moveFile hputs.entry?_self).mono
      (fun _ _ ⟨_, hslot, hmoves⟩ => hmoves.writes hnone hputs hslot) (fun _ _ h => h)
  refine hmoved.tryCatch fun cause u hsame => ?_
  subst hsame
  exact (ends_modify (hputs.sameEntries_without hnone)).bind fun _ _ h => ends_throw h

/-! ## One output -/

/-- The failure tells that the target could not be written, or the directory that holds it. -/
def Blames (failure : Failure) (target : Path) : Prop :=
  ∃ path cause, failure = .write path cause ∧ (path = target ∨ target.parent? = some path)

theorem GrowsByDirectories.writes {mid : FileTree} (h : GrowsByDirectories t mid)
    (hwrites : Writes mid u target contents) : Writes t u target contents where
  toGrows := h.toGrows.trans hwrites.toGrows
  exists_slot := by
    obtain ⟨slot, hlocate, hfile⟩ := hwrites.exists_slot
    refine ⟨slot, hlocate, fun loc => ?_⟩
    rw [hfile, h.file?]

theorem SameEntries.growsByDirectories (h : SameEntries t u) : GrowsByDirectories t u where
  workingDir := h.workingDir
  directory loc hloc := by rwa [h.lookup]
  isSome loc hloc := by rwa [h.lookup]
  file? loc := file?_congr (h.lookup loc)

theorem ends_writeFile (h : target.parent? = some dir) : Ends (writeFile target contents) t
    (fun _ u => Writes t u target contents)
    (fun failure u => GrowsByDirectories t u ∧ Blames failure target) := by
  unfold writeFile
  simp only [h]
  have hmade : Ends (ExceptT.adapt (Failure.write dir) (makeDirectories dir)) t
      (fun _ u => GrowsByDirectories t u)
      (fun failure u => GrowsByDirectories t u ∧ Blames failure target) :=
    Ends.adapt ((ends_makeDirectoriesOf dir.ancestors).mono (fun _ _ hu => hu)
      fun cause _ hu => ⟨hu, dir, cause, rfl, .inr h⟩)
  apply hmade.bind
  intro _ mid hmid
  exact Ends.adapt (ends_writeThrough.mono (fun _ _ hu => hmid.writes hu)
    fun cause _ hu => ⟨hmid.trans hu.growsByDirectories, target, cause, rfl, .inl rfl⟩)

/-! ## Where outputs are written -/

variable {q : Path}

/-- A path that leads down lies below every directory. -/
theorem exists_parent?_join (hp : p.LeadsDown) : ∃ dir, (dest.join p).parent? = some dir := by
  obtain ⟨name, names, hnames⟩ := hp.exists_names
  obtain ⟨front, last, hlast⟩ : ∃ front last, name :: names = front ++ [last] :=
    ⟨_, _, (List.dropLast_append_getLast (List.cons_ne_nil name names)).symm⟩
  have hjoin : (dest.join p).components =
      (dest.components ++ front.map .name) ++ [.name last] := by
    rw [Path.components_join_of_names dest hnames, hnames, hlast]
    simp
  obtain ⟨dir, hdir, -⟩ := Option.map_eq_some_iff.1 (Path.map_components_parent?_of_name hjoin)
  exact ⟨dir, hdir⟩

/-- Outputs with two paths are written at two places. -/
theorem locationOf_join_eq_iff (hp : p.LeadsDown) (hq : q.LeadsDown) :
    t.locationOf (dest.join p) = t.locationOf (dest.join q) ↔ p.SameAs q := by
  obtain ⟨name, names, hnames⟩ := hp.exists_names
  obtain ⟨name', names', hnames'⟩ := hq.exists_names
  have hjoin := Path.components_join_of_names dest hnames
  have hjoin' := Path.components_join_of_names dest hnames'
  rw [hnames] at hjoin
  rw [hnames'] at hjoin'
  rw [locationOf_append_names _ hjoin, locationOf_append_names _ hjoin', List.append_cancel_left_eq,
    Path.SameAs, hnames, hnames', List.map_inj_right fun _ _ h => Component.name.inj h]

/-! ## All outputs -/

/-- What the last of the files with this path holds. -/
def lastContents (p : Path) : List OutputFile → Option ByteArray
  | [] => none
  | f :: rest =>
    (lastContents p rest).or (if f.relative.SameAs p then f.contents else none)

variable {f g : OutputFile} {files rest : List OutputFile}

theorem lastContents_congr (h : p.SameAs q) (files : List OutputFile) :
    lastContents p files = lastContents q files := by
  induction files with
  | nil => rfl
  | cons f rest ih =>
    have hiff : f.relative.SameAs p ↔ f.relative.SameAs q :=
      ⟨fun hp => Eq.trans hp h, fun hq => Eq.trans hq (Eq.symm h)⟩
    simp only [lastContents, ih, hiff]

theorem lastContents_eq_none (h : lastContents p files = none) (hf : f ∈ files)
    (hcontents : f.contents = some contents) : ¬f.relative.SameAs p := by
  intro hsame
  induction files with
  | nil => cases hf
  | cons g rest ih =>
    rw [lastContents, Option.or_eq_none_iff] at h
    rcases List.mem_cons.1 hf with rfl | hrest
    · rw [if_pos hsame, hcontents] at h
      cases h.2
    · exact ih h.1 hrest

theorem exists_of_lastContents (h : lastContents p files = some contents) :
    ∃ f ∈ files, f.relative.SameAs p ∧ f.contents.isSome = true := by
  induction files with
  | nil => cases h
  | cons g rest ih =>
    rw [lastContents, Option.or_eq_some_iff] at h
    rcases h with hrest | ⟨-, hg⟩
    · obtain ⟨f, hf, hfound⟩ := ih hrest
      exact ⟨f, List.mem_cons_of_mem g hf, hfound⟩
    · split at hg
      · next hsame => exact ⟨g, List.mem_cons_self, hsame, by rw [hg]; rfl⟩
      · cases hg

/-- The files have been written below the directory: the last of those with one path is there,
and the files at all other places are as they were. -/
structure Wrote (t u : FileTree) (dest : Path) (files : List OutputFile) : Prop extends
    Grows t u where
  read : ∀ f ∈ files, f.contents.isSome = true → ∃ contents,
    lastContents f.relative files = some contents ∧ u.read (dest.join f.relative) = .ok contents
  kept : ∀ loc, (∀ f ∈ files, f.contents.isSome = true →
    u.locate (dest.join f.relative) ≠ .ok loc) → u.file? loc = t.file? loc

theorem file?_eq_some : t.file? loc = some contents ↔ t.entry? loc = some (.file contents) := by
  unfold file?
  split <;> simp_all

theorem read_eq_ok : t.read p = .ok contents ↔
    ∃ loc, t.locate p = .ok loc ∧ t.file? loc = some contents := by
  simp only [file?_eq_some]
  constructor
  · exact exists_locate_of_read
  · rintro ⟨loc, hlocate, hentry⟩
    exact read_of_locate hlocate hentry

theorem GrowsByDirectories.wrote_nil (h : GrowsByDirectories t u) : Wrote t u dest [] where
  toGrows := h.toGrows
  read _ hf := absurd hf List.not_mem_nil
  kept loc _ := h.file? loc

/-- An output without contents is passed over. -/
theorem Wrote.skip (h : Wrote t u dest rest) (hf : f.contents = none) :
    Wrote t u dest (f :: rest) where
  toGrows := h.toGrows
  read g hg hsome := by
    rcases List.mem_cons.1 hg with rfl | hg
    · rw [hf] at hsome
      cases hsome
    · obtain ⟨contents, hlast, hread⟩ := h.read g hg hsome
      exact ⟨contents, by rw [lastContents, hlast]; rfl, hread⟩
  kept loc hloc := h.kept loc fun g hg => hloc g (List.mem_cons_of_mem f hg)

/-- An output that is written stays until another one is written at its place. -/
theorem Wrote.cons (hproper : ∀ g ∈ f :: rest, g.relative.LeadsDown)
    (hf : f.contents = some contents) (hwrites : Writes t v (dest.join f.relative) contents)
    (h : Wrote v u dest rest) : Wrote t u dest (f :: rest) := by
  obtain ⟨slot, hlocate, hfile⟩ := hwrites.exists_slot
  have hslot := h.toGrows.locate hlocate
  refine ⟨hwrites.toGrows.trans h.toGrows, fun g hg hsome => ?_, fun loc hloc => ?_⟩
  · rcases List.mem_cons.1 hg with rfl | hrest
    · rw [lastContents, if_pos (show g.relative.SameAs g.relative from rfl), hf]
      cases hlast : lastContents g.relative rest with
      | none =>
        -- No later output has its place.
        refine ⟨contents, rfl, read_eq_ok.2 ⟨slot, hslot, ?_⟩⟩
        rw [h.kept slot, hfile, if_pos rfl]
        intro g' hg' hsome' hlocate'
        obtain ⟨contents', hcontents'⟩ := Option.isSome_iff_exists.1 hsome'
        apply lastContents_eq_none hlast hg' hcontents'
        rw [← locationOf_join_eq_iff (hproper g' (List.mem_cons_of_mem g hg')) (hproper g hg),
          locationOf_of_locate hlocate', locationOf_of_locate hslot]
      | some last =>
        obtain ⟨g', hg', hsame, hsome'⟩ := exists_of_lastContents hlast
        obtain ⟨contents', hlast', hread⟩ := h.read g' hg' hsome'
        rw [lastContents_congr hsame, hlast, Option.some.injEq] at hlast'
        obtain ⟨loc, hlocate', hfile'⟩ := read_eq_ok.1 hread
        refine ⟨last, rfl, read_eq_ok.2 ⟨slot, hslot, ?_⟩⟩
        rw [hlast', ← hfile', ← locationOf_of_locate hlocate', ← locationOf_of_locate hslot,
          (locationOf_join_eq_iff (hproper g' (List.mem_cons_of_mem g hg')) (hproper g hg)).2 hsame]
    · obtain ⟨last, hlast, hread⟩ := h.read g hrest hsome
      exact ⟨last, by rw [lastContents, hlast]; rfl, hread⟩
  · have hne : loc ≠ slot := by
      rintro rfl
      exact hloc f List.mem_cons_self (by rw [hf]; rfl) hslot
    rw [h.kept loc fun g hg => hloc g (List.mem_cons_of_mem f hg), hfile, if_neg hne]

/-- The file at the end of the path is as it was, and can be read if it could be. -/
structure Keeps (t u : FileTree) (p : Path) : Prop where
  file? : u.file? (u.locationOf p) = t.file? (t.locationOf p)
  read : ∀ contents, t.read p = .ok contents → u.read p = .ok contents

/-- A path at which none of the files is written is kept. -/
theorem Wrote.keeps (h : Wrote t u dest files) (hproper : ∀ f ∈ files, f.relative.LeadsDown)
    (hp : p.LeadsDown) (hlast : lastContents p files = none) : Keeps t u (dest.join p) := by
  have hlocation : u.locationOf (dest.join p) = t.locationOf (dest.join p) := by
    rw [locationOf, locationOf, h.workingDir]
  have hfile : u.file? (t.locationOf (dest.join p)) = t.file? (t.locationOf (dest.join p)) := by
    apply h.kept
    intro f hf hsome hlocate
    obtain ⟨contents, hcontents⟩ := Option.isSome_iff_exists.1 hsome
    apply lastContents_eq_none hlast hf hcontents
    rw [← locationOf_join_eq_iff (hproper f hf) hp, locationOf_of_locate hlocate, hlocation]
  refine ⟨by rw [hlocation, hfile], fun contents hread => ?_⟩
  obtain ⟨loc, hlocate, hcontents⟩ := read_eq_ok.1 hread
  refine read_eq_ok.2 ⟨loc, h.toGrows.locate hlocate, ?_⟩
  rw [← hcontents, ← locationOf_of_locate hlocate, hfile]

/-- The writing has stopped at one of the files. Those before it have been written, and writing
this one has failed and changed no file. -/
structure Stops (t u : FileTree) (dest : Path) (files : List OutputFile) (failure : Failure)
    (before : List OutputFile) (f : OutputFile) (after : List OutputFile) : Prop where
  files_eq : files = before ++ f :: after
  reached : ∃ count v contents, (writeOutputs dest before).run t = (.ok count, v) ∧
    f.contents = some contents ∧
    (writeFile (dest.join f.relative) contents).run v = (.error failure, u) ∧
    GrowsByDirectories v u
  wrote : Wrote t u dest before
  blames : Blames failure (dest.join f.relative)

variable {failure : Failure} {before after : List OutputFile}

theorem writeOutputs_skip (hf : f.contents = none) :
    writeOutputs dest (f :: rest) = writeOutputs dest rest := by
  simp only [writeOutputs, hf]

theorem run_writeOutputs_of_ok (hf : f.contents = some contents)
    (h : (writeFile (dest.join f.relative) contents).run t = (.ok (), v)) :
    (writeOutputs dest (f :: rest)).run t = match (writeOutputs dest rest).run v with
      | (.ok count, u) => (.ok (count + 1), u)
      | (.error failure, u) => (.error failure, u) := by
  simp only [writeOutputs, hf]
  rw [run_bind, h]
  show (writeOutputs dest rest >>= fun count => pure (count + 1)).run v = _
  rw [run_bind]
  rcases (writeOutputs dest rest).run v with ⟨failure | count, u⟩ <;> rfl

theorem run_writeOutputs_of_error (hf : f.contents = some contents)
    (h : (writeFile (dest.join f.relative) contents).run t = (.error failure, u)) :
    (writeOutputs dest (f :: rest)).run t = (.error failure, u) := by
  simp only [writeOutputs, hf]
  rw [run_bind, h]

theorem Stops.skip (hf : f.contents = none)
    (h : Stops t u dest rest failure before g after) :
    Stops t u dest (f :: rest) failure (f :: before) g after where
  files_eq := by rw [h.files_eq, List.cons_append]
  reached := by rw [writeOutputs_skip hf]; exact h.reached
  wrote := h.wrote.skip hf
  blames := h.blames

theorem Stops.cons (hproper : ∀ g ∈ f :: rest, g.relative.LeadsDown)
    (hf : f.contents = some contents)
    (hrun : (writeFile (dest.join f.relative) contents).run t = (.ok (), v))
    (hwrites : Writes t v (dest.join f.relative) contents)
    (h : Stops v u dest rest failure before g after) :
    Stops t u dest (f :: rest) failure (f :: before) g after where
  files_eq := by rw [h.files_eq, List.cons_append]
  reached := by
    obtain ⟨count, mid, contents', hbefore, hfailed⟩ := h.reached
    refine ⟨count + 1, mid, contents', ?_, hfailed⟩
    rw [run_writeOutputs_of_ok hf hrun, hbefore]
  wrote := by
    refine Wrote.cons (fun g' hg' => hproper g' ?_) hf hwrites h.wrote
    rw [h.files_eq, ← List.cons_append]
    exact List.mem_append_left _ hg'
  blames := h.blames

theorem ends_writeOutputs_stops (hproper : ∀ f ∈ files, f.relative.LeadsDown) :
    Ends (writeOutputs dest files) t
      (fun count u => count = files.countP (·.contents.isSome) ∧ Wrote t u dest files)
      (fun failure u => ∃ before f after, Stops t u dest files failure before f after) := by
  induction files generalizing t with
  | nil => exact ends_pure ⟨rfl, (GrowsByDirectories.refl t).wrote_nil⟩
  | cons f rest ih =>
    have hrest : ∀ g ∈ rest, g.relative.LeadsDown := fun g hg =>
      hproper g (List.mem_cons_of_mem f hg)
    cases hf : f.contents with
    | none =>
      rw [writeOutputs_skip hf]
      apply (ih hrest).mono
      · rintro count u ⟨hcount, hwrote⟩
        exact ⟨by rw [hcount, List.countP_cons_of_neg (by simp [hf])], hwrote.skip hf⟩
      · rintro failure u ⟨before, g, after, hstops⟩
        exact ⟨f :: before, g, after, hstops.skip hf⟩
    | some contents =>
      obtain ⟨dir, hdir⟩ := @exists_parent?_join dest _ (hproper f List.mem_cons_self)
      have hwritten := @ends_writeFile t dir _ contents hdir
      rcases hrun : (writeFile (dest.join f.relative) contents).run t with ⟨failure | ⟨⟨⟩⟩, v⟩
      · obtain ⟨hgrows, hblames⟩ := hwritten.of_error failure v hrun
        refine ends_of_run_error (run_writeOutputs_of_error hf hrun) ⟨[], f, rest, rfl, ?_, ?_, ?_⟩
        · exact ⟨0, t, contents, rfl, hf, hrun, hgrows⟩
        · exact hgrows.wrote_nil
        · exact hblames
      · have hwrites := hwritten.of_ok () v hrun
        have hall := @run_writeOutputs_of_ok t v dest contents f rest hf hrun
        rcases hlater : (writeOutputs dest rest).run v with ⟨failure | count, u⟩ <;>
          rw [hlater] at hall
        · obtain ⟨before, g, after, hstops⟩ := (ih hrest).of_error failure u hlater
          exact ends_of_run_error hall ⟨f :: before, g, after, hstops.cons hproper hf hrun hwrites⟩
        · obtain ⟨hcount, hwrote⟩ := (ih hrest).of_ok count u hlater
          refine ends_of_run_ok hall ⟨?_, hwrote.cons hproper hf hwrites⟩
          rw [hcount, List.countP_cons_of_pos (by simp [hf])]

/-- Writing outputs is done completely, or up to the first output that cannot be written. The
number of outputs with contents is returned exactly if all of them have been written. Where the
writing stops, the outputs before have been written, and every path at which none of them is
written is kept. -/
theorem ends_writeOutputs (hproper : ∀ f ∈ files, f.relative.LeadsDown) :
    Ends (writeOutputs dest files) t
      (fun count u => count = files.countP (·.contents.isSome) ∧ Wrote t u dest files)
      (fun failure u => ∃ before f after, Stops t u dest files failure before f after ∧
        ∀ g ∈ f :: after, lastContents g.relative before = none →
          Keeps t u (dest.join g.relative)) := by
  apply (ends_writeOutputs_stops hproper).mono
  · exact fun _ _ h => h
  · rintro failure u ⟨before, f, after, hstops⟩
    refine ⟨before, f, after, hstops, fun g hg hlast => ?_⟩
    have hbefore : ∀ f' ∈ before, f'.relative.LeadsDown := by
      intro f' hf'
      apply hproper
      rw [hstops.files_eq]
      exact List.mem_append_left _ hf'
    apply hstops.wrote.keeps hbefore _ hlast
    apply hproper
    rw [hstops.files_eq]
    exact List.mem_append_right _ hg

/-- An output at a place. -/
def plainOutput (relative : Path) (contents : ByteArray) : OutputFile :=
  ⟨Path.join ⟨"/src"⟩ relative, relative, some contents, .input⟩

/-- Two outputs of which the second wants a directory where the first is a file. -/
def shadowed : List OutputFile :=
  [plainOutput ⟨"a.js"⟩ ⟨#[49]⟩, plainOutput ⟨"a.js/b.js"⟩ ⟨#[50]⟩]

/-- The first of them is written, and the writing stops at the second. -/
theorem ends_writeOutputs_shadowed : (∀ f ∈ shadowed, f.relative.LeadsDown) ∧
    ∃ u, (writeOutputs ⟨"/d"⟩ shadowed).run empty =
        (.error (.write ⟨"/d/a.js"⟩ .alreadyExists), u) ∧
      u.read ⟨"/d/a.js"⟩ = .ok ⟨#[49]⟩ ∧
      Stops empty u ⟨"/d"⟩ shadowed (.write ⟨"/d/a.js"⟩ .alreadyExists)
        [plainOutput ⟨"a.js"⟩ ⟨#[49]⟩] (plainOutput ⟨"a.js/b.js"⟩ ⟨#[50]⟩) [] := by
  have hproper : ∀ f ∈ shadowed, f.relative.LeadsDown := by decide
  have hended : ((writeOutputs ⟨"/d"⟩ shadowed).run empty).1 =
        .error (.write ⟨"/d/a.js"⟩ .alreadyExists) ∧
      ((writeOutputs ⟨"/d"⟩ shadowed).run empty).2.read ⟨"/d/a.js"⟩ = .ok ⟨#[49]⟩ := by
    decide +kernel
  rcases hrun : (writeOutputs ⟨"/d"⟩ shadowed).run empty with ⟨result, u⟩
  rw [hrun] at hended
  obtain ⟨rfl, hread⟩ := hended
  obtain ⟨before, f, after, hstops, hkeeps⟩ := (ends_writeOutputs hproper).of_error _ _ hrun
  refine ⟨hproper, u, rfl, hread, ?_⟩
  have hsplit := hstops.files_eq
  rcases before with _ | ⟨first, before⟩
  · -- a writing that stops at once leaves `a.js` missing
    obtain ⟨rfl, -⟩ := List.cons.inj hsplit
    have hkept := (hkeeps _ List.mem_cons_self rfl).file?
    obtain ⟨loc, hloc, hfile⟩ := read_eq_ok.1 hread
    rw [← locationOf_of_locate hloc] at hfile
    cases hfile.symm.trans hkept
  · obtain ⟨rfl, hrest⟩ := List.cons.inj hsplit
    obtain ⟨rfl, hrest⟩ | ⟨-, hrest⟩ := List.append_eq_singleton_iff.1 hrest.symm
    · obtain ⟨rfl, rfl⟩ := List.cons.inj hrest
      exact hstops
    · cases hrest

end Vendoring.FileTree
