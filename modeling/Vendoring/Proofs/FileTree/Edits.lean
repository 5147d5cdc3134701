/-
# What changes of a file tree do

A change ends in a result or in a failure, and either way it leaves a tree. Making
directories only adds directories, as far as it has come. A file that is moved into place
takes the place of a file or of nothing, and where it was nothing is left; if it cannot be
moved, nothing changes.
-/

import Mathlib.Data.List.TakeWhile
import Vendoring.FileTree.Edit
import Vendoring.Proofs.FileTree.Locations
import Vendoring.Proofs.Path.Relative

namespace Vendoring

/-! ## What a change of a file tree ends in -/

namespace FilesM

variable {ε ε' α β : Type} {t : FileTree} {x : FilesM ε α} {f : α → FilesM ε β}
  {ok : α → FileTree → Prop} {failed : ε → FileTree → Prop}

/-- From the tree, a computation gives a result and a tree of one kind, or a failure and a
tree of another kind. -/
structure Ends (x : FilesM ε α) (t : FileTree) (ok : α → FileTree → Prop)
    (failed : ε → FileTree → Prop) : Prop where
  of_ok : ∀ a u, x.run t = (.ok a, u) → ok a u
  of_error : ∀ e u, x.run t = (.error e, u) → failed e u

theorem Ends.mono {ok' : α → FileTree → Prop} {failed' : ε → FileTree → Prop}
    (h : Ends x t ok failed) (hok : ∀ a u, ok a u → ok' a u)
    (hfailed : ∀ e u, failed e u → failed' e u) : Ends x t ok' failed' where
  of_ok a u hrun := hok a u (h.of_ok a u hrun)
  of_error e u hrun := hfailed e u (h.of_error e u hrun)

theorem ends_of_run_ok {a : α} {u : FileTree} (hrun : x.run t = (.ok a, u)) (h : ok a u) :
    Ends x t ok failed where
  of_ok a' u' hrun' := by
    rw [hrun] at hrun'
    cases hrun'
    exact h
  of_error e u' hrun' := by
    rw [hrun] at hrun'
    cases hrun'

theorem ends_of_run_error {e : ε} {u : FileTree} (hrun : x.run t = (.error e, u))
    (h : failed e u) : Ends x t ok failed where
  of_ok a u' hrun' := by
    rw [hrun] at hrun'
    cases hrun'
  of_error e' u' hrun' := by
    rw [hrun] at hrun'
    cases hrun'
    exact h

theorem Ends.of_run_eq {y : FilesM ε α} {u : FileTree} (h : Ends y u ok failed)
    (hrun : x.run t = y.run u) : Ends x t ok failed where
  of_ok a v ha := h.of_ok a v (hrun ▸ ha)
  of_error e v he := h.of_error e v (hrun ▸ he)

theorem ends_pure {a : α} (h : ok a t) : Ends (pure a) t ok failed := ends_of_run_ok rfl h

theorem ends_throw {e : ε} (h : failed e t) : Ends (throw e) t ok failed := ends_of_run_error rfl h

theorem ends_get {g : FileTree → FilesM ε β} {ok : β → FileTree → Prop}
    (h : Ends (g t) t ok failed) : Ends (get >>= g) t ok failed := h.of_run_eq rfl

theorem ends_set {u : FileTree} {ok : PUnit → FileTree → Prop} (h : ok ⟨⟩ u) :
    Ends (set u : FilesM ε PUnit) t ok failed := ends_of_run_ok rfl h

theorem ends_modify {g : FileTree → FileTree} {ok : PUnit → FileTree → Prop} (h : ok ⟨⟩ (g t)) :
    Ends (modify g : FilesM ε PUnit) t ok failed := ends_of_run_ok rfl h

theorem run_bind : (x >>= f).run t = match x.run t with
    | (.ok a, u) => (f a).run u
    | (.error e, u) => (.error e, u) := by
  show ExceptT.bindCont f (x.run t).1 (x.run t).2 = _
  rcases x.run t with ⟨a | e, u⟩ <;> rfl

theorem Ends.bind {ok' : β → FileTree → Prop} (h : Ends x t ok failed)
    (hf : ∀ a u, ok a u → Ends (f a) u ok' failed) : Ends (x >>= f) t ok' failed := by
  rcases hx : x.run t with ⟨e | a, u⟩
  · exact ends_of_run_error (by rw [run_bind, hx]) (h.of_error e u hx)
  · exact (hf a u (h.of_ok a u hx)).of_run_eq (by rw [run_bind, hx])

theorem run_tryCatch {handle : ε → FilesM ε α} :
    (tryCatch x handle).run t = match x.run t with
      | (.ok a, u) => (.ok a, u)
      | (.error e, u) => (handle e).run u := by
  show (match (x.run t).1 with
    | .ok a => (pure a : FilesM ε α).run
    | .error e => (handle e).run) (x.run t).2 = _
  rcases x.run t with ⟨a | e, u⟩ <;> rfl

theorem Ends.tryCatch {failed' : ε → FileTree → Prop} {handle : ε → FilesM ε α}
    (h : Ends x t ok failed) (hhandle : ∀ e u, failed e u → Ends (handle e) u ok failed') :
    Ends (tryCatch x handle) t ok failed' := by
  rcases hx : x.run t with ⟨e | a, u⟩
  · exact (hhandle e u (h.of_error e u hx)).of_run_eq (by rw [run_tryCatch, hx])
  · exact ends_of_run_ok (by rw [run_tryCatch, hx]) (h.of_ok a u hx)

theorem Ends.adapt {g : ε → ε'} {failed' : ε' → FileTree → Prop}
    (h : Ends x t ok fun e u => failed' (g e) u) : Ends (ExceptT.adapt g x) t ok failed' := by
  have hrun : (ExceptT.adapt g x).run t = ((x.run t).1.mapError g, (x.run t).2) := rfl
  rcases hx : x.run t with ⟨e | a, u⟩ <;> rw [hx] at hrun
  · exact ends_of_run_error hrun (h.of_error e u hx)
  · exact ends_of_run_ok hrun (h.of_ok a u hx)

end FilesM

namespace FileTree

variable {t u v : FileTree} {p : Path} {loc loc' : Location} {e : Entry} {s : List Char}

/-! ## Trees that keep their entries -/

/-- The contents of the file at a location. -/
def file? (t : FileTree) (loc : Location) : Option ByteArray :=
  match t.entry? loc with
  | some (.file contents) => some contents
  | _ => none

theorem file?_congr (h : u.entry? loc = t.entry? loc) : u.file? loc = t.file? loc := by
  rw [file?, file?, h]

/-- Paths start at the same places, and lead through the same directories. -/
structure KeepsDirectories (t u : FileTree) : Prop where
  workingDir : u.workingDir = t.workingDir
  directory : ∀ loc, t.entry? loc = some .directory → u.entry? loc = some .directory

/-- Every path that leads somewhere leads there still. -/
structure Grows (t u : FileTree) : Prop extends KeepsDirectories t u where
  isSome : ∀ loc, (t.entry? loc).isSome = true → (u.entry? loc).isSome = true

theorem Grows.refl (t : FileTree) : Grows t t where
  workingDir := rfl
  directory _ h := h
  isSome _ h := h

theorem KeepsDirectories.trans (h : KeepsDirectories t u) (h' : KeepsDirectories u v) :
    KeepsDirectories t v where
  workingDir := h'.workingDir.trans h.workingDir
  directory loc hloc := h'.directory loc (h.directory loc hloc)

theorem Grows.trans (h : Grows t u) (h' : Grows u v) : Grows t v where
  toKeepsDirectories := h.toKeepsDirectories.trans h'.toKeepsDirectories
  isSome loc hloc := h'.isSome loc (h.isSome loc hloc)

/-- A step is taken in every tree that has the directory and the entry behind it. -/
theorem step_congr (h : t.step loc s = .ok loc') (hloc : u.entry? loc = some .directory)
    (hloc' : (u.entry? loc').isSome = true) : u.step loc s = .ok loc' := by
  have hdir := entry?_of_step h
  simp only [step, hdir] at h
  simp only [step, hloc]
  split at h
  · next hpad => rwa [if_pos hpad]
  · next hpad =>
    rw [if_neg hpad]
    split at h
    · next hup => rwa [if_pos hup]
    · next hup =>
      rw [if_neg hup]
      split at h
      · cases h
      · next hshort =>
        rw [if_neg hshort]
        split at h
        · obtain rfl := Except.ok.inj h
          rw [if_pos hloc']
        · cases h

theorem foldlM_step_append {segments rest : List (List Char)}
    (h : segments.foldlM t.step loc = .ok loc') :
    (segments ++ rest).foldlM t.step loc = rest.foldlM t.step loc' := by
  rw [List.foldlM_append, h]
  rfl

theorem foldlM_step_padding {segments : List (List Char)}
    (h : ∀ s ∈ segments, Path.isPadding s = true) (hloc : t.entry? loc = some .directory) :
    segments.foldlM t.step loc = .ok loc := by
  induction segments with
  | nil => rfl
  | cons s segments ih =>
    refine foldlM_step_cons.2 ⟨loc, step_of_isPadding (h s List.mem_cons_self) hloc, ?_⟩
    exact ih fun s' hs' => h s' (List.mem_cons_of_mem s hs')

/-- The directories around an entry exist. -/
theorem entry?_dropLast (h : t.entry? loc = some .directory) :
    t.entry? loc.dropLast = some .directory := by
  rcases List.eq_nil_or_concat' loc with rfl | ⟨front, name, rfl⟩
  · exact t.root_eq
  · rw [List.dropLast_concat]
    apply t.parent_eq front name
    rw [Std.TreeMap.mem_iff_isSome_getElem?]
    exact Option.isSome_of_eq_some h

theorem isSome_of_step (h : t.step loc s = .ok loc') : (t.entry? loc').isSome = true := by
  have hdir := entry?_of_step h
  simp only [step, hdir] at h
  split at h
  · obtain rfl := Except.ok.inj h
    simp [hdir]
  · split at h
    · obtain rfl := Except.ok.inj h
      simp [entry?_dropLast hdir]
    · split at h
      · cases h
      · split at h
        · next hsome =>
          obtain rfl := Except.ok.inj h
          exact hsome
        · cases h

/-- A way that ends in a directory leads through directories only. -/
theorem KeepsDirectories.foldlM_step (h : KeepsDirectories t u) {segments : List (List Char)}
    (hfold : segments.foldlM t.step loc = .ok loc') (hdir : t.entry? loc' = some .directory) :
    segments.foldlM u.step loc = .ok loc' := by
  induction segments generalizing loc with
  | nil => exact hfold
  | cons s segments ih =>
    obtain ⟨next, hstep, hrest⟩ := foldlM_step_cons.1 hfold
    have hnext : t.entry? next = some .directory := by
      cases segments with
      | nil =>
        obtain rfl : next = loc' := Except.ok.inj hrest
        exact hdir
      | cons s' segments =>
        obtain ⟨_, hstep', -⟩ := foldlM_step_cons.1 hrest
        exact entry?_of_step hstep'
    refine foldlM_step_cons.2 ⟨next, ?_, ih hrest⟩
    apply step_congr hstep (h.directory _ (entry?_of_step hstep))
    simp [h.directory _ hnext]

theorem Grows.foldlM_step (h : Grows t u) {segments : List (List Char)}
    (hfold : segments.foldlM t.step loc = .ok loc') : segments.foldlM u.step loc = .ok loc' := by
  induction segments generalizing loc with
  | nil => exact hfold
  | cons s segments ih =>
    obtain ⟨next, hstep, hrest⟩ := foldlM_step_cons.1 hfold
    refine foldlM_step_cons.2 ⟨next, ?_, ih hrest⟩
    exact step_congr hstep (h.directory _ (entry?_of_step hstep))
      (h.isSome _ (isSome_of_step hstep))

theorem Grows.locate (h : Grows t u) (hlocate : t.locate p = .ok loc) : u.locate p = .ok loc := by
  obtain ⟨hrefusal, hfold⟩ := locate_eq_ok hlocate
  rw [locate_of_refusal? hrefusal, startOf, h.workingDir]
  exact h.foldlM_step hfold

/-! ## Places -/

/-- What follows the pieces that are kept of a path is padding. -/
theorem exists_padding (segments : List (List Char)) :
    ∃ rest, segments = Path.trimPadding segments ++ rest ∧ ∀ s ∈ rest, Path.isPadding s = true := by
  refine ⟨(segments.reverse.takeWhile Path.isPadding).reverse, ?_, fun s hs => ?_⟩
  · rw [Path.trimPadding, ← List.reverse_append, List.takeWhile_append_dropWhile,
      List.reverse_reverse]
  · exact List.mem_takeWhile_imp (List.mem_reverse.1 hs)

theorem placeOf_eq_some (h : t.placeOf p = .ok (some loc)) :
    ∃ before last dir, refusal? p = none ∧ Path.trimPadding p.segments = before ++ [last] ∧
      last ≠ ['.', '.'] ∧ before.foldlM t.step (t.startOf p) = .ok dir ∧
      t.entry? dir = some .directory ∧
      (String.ofList last).utf8ByteSize ≤ maxNameLength ∧ loc = dir ++ [String.ofList last] := by
  unfold placeOf at h
  split at h
  · cases h
  · cases h
  · cases hlocate : t.locate p with
    | error cause => simp [hlocate, Except.map] at h
    | ok loc => simp [hlocate, Except.map] at h
  · next before last hdots hrefusal hsegment =>
    obtain ⟨kept, hkept, hsplit⟩ := Option.map_eq_some_iff.1 hsegment
    obtain ⟨rfl, rfl⟩ := Prod.mk.inj hsplit
    have htrim := List.dropLast_append_getLast? _ hkept
    cases hdir : (Path.trimPadding p.segments).dropLast.foldlM t.step (t.startOf p) with
    | error cause => simp [hdir, bind, Except.bind] at h
    | ok dir =>
      simp only [hdir, bind, Except.bind] at h
      split at h
      · next hentry =>
        split at h
        · cases h
        · next hshort =>
          obtain rfl := Option.some.inj (Except.ok.inj h)
          exact ⟨_, kept, dir, hrefusal, htrim.symm, hdots, hdir, hentry, Nat.not_lt.1 hshort, rfl⟩
      · cases h
      · cases h

/-- The place of a path is where the path leads once there is an entry. -/
theorem locate_of_placeOf (h : t.placeOf p = .ok (some loc)) (hkeeps : KeepsDirectories t u)
    (hentry : (u.entry? loc).isSome = true)
    (hpad : hasPaddingBehind p = false ∨ u.entry? loc = some .directory) :
    u.locate p = .ok loc := by
  obtain ⟨before, last, dir, hrefusal, htrim, hdots, hbefore, hdir, hshort, rfl⟩ :=
    placeOf_eq_some h
  obtain ⟨rest, hsegments, hrest⟩ := exists_padding p.segments
  have hlast := Path.not_padding_of_trimPadding htrim
  have hstep : u.step dir last = .ok (dir ++ [String.ofList last]) := by
    simp only [step, hkeeps.directory dir hdir]
    rw [if_neg (by simp [hlast]), if_neg hdots, if_neg (Nat.not_lt.2 hshort), if_pos hentry]
  have hkept : (before ++ [last]).foldlM u.step (t.startOf p) =
      .ok (dir ++ [String.ofList last]) := by
    rw [foldlM_step_append (hkeeps.foldlM_step hbefore hdir)]
    exact foldlM_step_cons.2 ⟨_, hstep, rfl⟩
  rw [locate_of_refusal? hrefusal, startOf, hkeeps.workingDir, ← startOf, hsegments, htrim,
    foldlM_step_append hkept]
  rcases hpad with hnone | hdirectory
  · have hnil : rest = [] := by
      rcases List.eq_nil_or_concat' rest with hnil | ⟨front, s, rfl⟩
      · exact hnil
      · rw [hasPaddingBehind, hsegments, ← List.append_assoc, List.getLast?_concat,
          Option.any_some, hrest s (by simp)] at hnone
        cases hnone
    rw [hnil]
    rfl
  · exact foldlM_step_padding hrest hdirectory

/-! ## One entry more or less -/

/-- The second tree has one more entry, or another one in its place. -/
structure Puts (t u : FileTree) (loc : Location) (e : Entry) : Prop where
  workingDir : u.workingDir = t.workingDir
  lookup : ∀ loc', u.entry? loc' = if loc' = loc then some e else t.entry? loc'

variable {contents : ByteArray}

theorem puts_put (h : t.Admits loc) : Puts t (t.put loc e h) loc e where
  workingDir := rfl
  lookup loc' := by
    show (t.entries.insert loc e)[loc']? = _
    rw [Std.TreeMap.getElem?_insert]
    by_cases hloc : loc' = loc
    · rw [if_pos hloc, if_pos (by simp [hloc])]
    · rw [if_neg hloc, if_neg]
      · rfl
      · rw [Std.LawfulEqCmp.compare_eq_iff_eq]
        exact fun heq => hloc heq.symm

theorem Puts.entry?_self (h : Puts t u loc e) : u.entry? loc = some e := by
  rw [h.lookup, if_pos rfl]

theorem Puts.entry?_of_ne (h : Puts t u loc e) (hne : loc' ≠ loc) :
    u.entry? loc' = t.entry? loc' := by
  rw [h.lookup, if_neg hne]

theorem Puts.grows (h : Puts t u loc e) (hloc : t.entry? loc ≠ some .directory) :
    Grows t u where
  workingDir := h.workingDir
  directory loc' hdir := by
    rw [h.entry?_of_ne, hdir]
    rintro rfl
    exact hloc hdir
  isSome loc' hsome := by
    rw [h.lookup]
    split
    · rfl
    · exact hsome

/-- Every entry in front of another one is a directory. -/
theorem entry?_of_below {rest : Location} (hrest : rest ≠ [])
    (h : (t.entry? (loc ++ rest)).isSome = true) : t.entry? loc = some .directory := by
  induction rest using List.reverseRecOn with
  | nil => exact absurd rfl hrest
  | append_singleton front name ih =>
    have hparent : t.entry? (loc ++ front) = some .directory := by
      apply t.parent_eq (loc ++ front) name
      rw [Std.TreeMap.mem_iff_isSome_getElem?, List.append_assoc]
      exact h
    by_cases hfront : front = []
    · rwa [hfront, List.append_nil] at hparent
    · exact ih hfront (by rw [hparent]; rfl)

/-- Nothing lies below a file, so only the file is taken away. -/
theorem entry?_without (h : t.entry? loc = some (.file contents)) (loc' : Location) :
    FileTree.entry? (t.without loc) loc' = if loc' = loc then none else t.entry? loc' := by
  have hne : loc ≠ [] := by
    rintro rfl
    have hroot : t.entry? [] = some .directory := t.root_eq
    rw [hroot] at h
    cases h
  have herase : FileTree.entry? (t.erase loc hne) loc' =
      if loc <+: loc' then none else t.entry? loc' := by
    show (t.entries.filter fun key _ => decide ¬loc <+: key)[loc']? = _
    rw [Std.TreeMap.getElem?_filter']
    split
    · next hbelow => simp [hbelow]
    · next hbelow =>
      simp only [hbelow, not_false_eq_true, decide_true, entry?]
      cases t.entries[loc']? <;> rfl
  rw [without, dif_pos hne, herase]
  by_cases hloc : loc' = loc
  · rw [if_pos (hloc ▸ List.prefix_rfl), if_pos hloc]
  · rw [if_neg hloc]
    split
    · next hbelow =>
      obtain ⟨rest, rfl⟩ := hbelow
      have hrest : rest ≠ [] := by
        rintro rfl
        exact hloc (List.append_nil loc)
      cases hentry : t.entry? (loc ++ rest) with
      | none => rfl
      | some e =>
        rw [entry?_of_below hrest (by rw [hentry]; rfl)] at h
        cases h
    · rfl

theorem workingDir_without (loc : Location) : (t.without loc).workingDir = t.workingDir := by
  unfold without
  split <;> rfl

/-! ## Directories -/

/-- The second tree has more directories, and the same files. -/
structure GrowsByDirectories (t u : FileTree) : Prop extends Grows t u where
  file? : ∀ loc, u.file? loc = t.file? loc

theorem GrowsByDirectories.refl (t : FileTree) : GrowsByDirectories t t where
  toGrows := .refl t
  file? _ := rfl

theorem GrowsByDirectories.trans (h : GrowsByDirectories t u) (h' : GrowsByDirectories u v) :
    GrowsByDirectories t v where
  toGrows := h.toGrows.trans h'.toGrows
  file? loc := (h'.file? loc).trans (h.file? loc)

theorem Puts.growsByDirectories (h : Puts t u loc .directory) (hloc : t.entry? loc = none) :
    GrowsByDirectories t u where
  toGrows := h.grows (by simp [hloc])
  file? loc' := by
    by_cases hloc' : loc' = loc
    · rw [hloc', FileTree.file?, FileTree.file?, h.entry?_self, hloc]
    · exact file?_congr (h.entry?_of_ne hloc')

open FilesM

theorem ends_putEntry : Ends (putEntry loc e) t (fun _ u => Puts t u loc e) (fun _ u => u = t) := by
  unfold putEntry
  apply ends_get
  split
  · next h => exact ends_set (puts_put h)
  · exact ends_throw rfl

theorem ends_makeEntry : Ends (makeEntry p e) t
    (fun loc u => t.placeOf p = .ok (some loc) ∧ t.entry? loc = none ∧ Puts t u loc e)
    (fun _ u => u = t) := by
  unfold makeEntry
  apply ends_get
  split
  · exact ends_throw rfl
  · exact ends_throw rfl
  · next loc hplace =>
    split
    · exact ends_throw rfl
    · next hnone =>
      refine ends_putEntry.bind fun _ u hputs => ends_pure ⟨hplace, ?_, hputs⟩
      simpa using hnone

theorem ends_makeDirectory : Ends (makeDirectory p) t (fun _ u => GrowsByDirectories t u)
    (fun _ u => u = t) :=
  ends_makeEntry.bind fun _ _ ⟨_, hnone, hputs⟩ => ends_pure (hputs.growsByDirectories hnone)

theorem ends_ensureDirectory {otherwise : FileError → FilesM FileError Unit}
    (h : ∀ cause, Ends (otherwise cause) t (fun _ u => GrowsByDirectories t u)
      (fun _ u => GrowsByDirectories t u)) :
    Ends (ensureDirectory p otherwise) t (fun _ u => GrowsByDirectories t u)
      (fun _ u => GrowsByDirectories t u) := by
  refine ends_makeDirectory.tryCatch fun cause u hsame => ?_
  subst hsame
  apply ends_get
  split
  · exact ends_pure (.refl _)
  · exact h cause

/-- Making directories adds directories, also if it fails. -/
theorem ends_makeDirectoriesOf (ps : List Path) : Ends (makeDirectoriesOf ps) t
    (fun _ u => GrowsByDirectories t u) (fun _ u => GrowsByDirectories t u) := by
  induction ps generalizing t with
  | nil => exact ends_throw (.refl t)
  | cons p outer ih =>
    rw [makeDirectoriesOf]
    split
    · exact ends_pure (.refl t)
    · apply ends_ensureDirectory
      intro cause
      split
      · apply ih.bind
        intro _ u hu
        have hagain : Ends (ensureDirectory p throw) u (fun _ v => GrowsByDirectories u v)
            (fun _ v => GrowsByDirectories u v) :=
          ends_ensureDirectory fun _ => ends_throw (.refl u)
        exact hagain.mono (fun _ _ hv => hu.trans hv) (fun _ _ hv => hu.trans hv)
      · exact ends_throw (.refl t)

/-! ## Files that are moved -/

theorem slotOf_eq_ok (h : t.slotOf p = .ok loc) : t.placeOf p = .ok (some loc) ∧
    hasPaddingBehind p = false ∧ t.entry? loc ≠ some .directory := by
  unfold slotOf at h
  split at h
  · cases h
  · cases h
  · next hplace =>
    split at h
    · cases h
    · next hpad =>
      split at h
      · cases h
      · next hdir =>
        obtain rfl := Except.ok.inj h
        exact ⟨hplace, by simpa using hpad, hdir⟩

/-- Between the two trees, the file has gone from one location to the other. -/
structure Moves (t u : FileTree) (source slot : Location) (contents : ByteArray) : Prop where
  workingDir : u.workingDir = t.workingDir
  lookup : ∀ loc, u.entry? loc = if loc = slot then some (.file contents)
    else if loc = source then none else t.entry? loc

/-- A file is moved to the place of its new path, or stays where it was. -/
theorem ends_moveFile (h : t.entry? loc = some (.file contents)) : Ends (moveFile loc p) t
    (fun _ u => ∃ slot, t.slotOf p = .ok slot ∧ Moves t u loc slot contents)
    (fun _ u => u = t) := by
  unfold moveFile
  apply ends_get
  simp only [h]
  cases hslot : t.slotOf p with
  | error cause => exact ends_throw rfl
  | ok slot =>
    obtain ⟨-, -, hdir⟩ := slotOf_eq_ok hslot
    by_cases hsame : slot = loc
    · subst hsame
      simp only [ne_eq, not_true_eq_false, if_false]
      refine ends_pure ⟨slot, rfl, rfl, fun loc' => ?_⟩
      split
      · next heq => rw [heq, h]
      · rfl
    · simp only [ne_eq, hsame, not_false_eq_true, if_true]
      refine ends_putEntry.bind fun _ u hputs => ends_modify ⟨slot, rfl, ?_, fun loc' => ?_⟩
      · rw [workingDir_without, hputs.workingDir]
      · have hkept : u.entry? loc = some (.file contents) := by
          rw [hputs.entry?_of_ne (Ne.symm hsame), h]
        rw [entry?_without hkept]
        split
        · next heq => rw [heq, if_neg (Ne.symm hsame)]
        · next hne =>
          rw [hputs.lookup]

end FileTree

end Vendoring
