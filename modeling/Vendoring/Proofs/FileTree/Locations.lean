/-
# The location of a path

Where a path leads is decided by its components: the root starts anew, a step up
goes back, and a name goes on. Looking a path up along its pieces ends at just this
location, if it ends at all, so two spellings of one path never lead to different
entries. A path that goes down from the root by names means the location of just
these names.
-/

import Vendoring.Proofs.Path.Rooted

namespace Vendoring.FileTree

variable {t : FileTree} {p q : Path}

/-- Where one more component leads. -/
def move (loc : Location) : Component → Location
  | .root => []
  | .here => loc
  | .up => loc.dropLast
  | .name s => loc ++ [s]

/-- The location that the components of a path mean, whether or not the path can be looked
up. -/
def locationOf (t : FileTree) (p : Path) : Location :=
  p.components.foldl move t.workingDir

theorem locationOf_congr (h : p.SameAs q) : t.locationOf p = t.locationOf q := by
  rw [locationOf, locationOf, h]

theorem foldl_move_names (names : List String) (loc : Location) :
    (names.map Component.name).foldl move loc = loc ++ names := by
  induction names using List.reverseRecOn with
  | nil => simp
  | append_singleton names name ih => simp [ih, move]

/-- Names behind a path lead on by just these names. -/
theorem locationOf_append_names (names : List String)
    (h : q.components = p.components ++ names.map .name) :
    t.locationOf q = t.locationOf p ++ names := by
  rw [locationOf, h, List.foldl_append, foldl_move_names]
  rfl

/-! ## Looking up -/

theorem step_eq_ok {loc loc' : Location} {s : List Char} (h : t.step loc s = .ok loc') :
    loc' = if Path.isPadding s then loc else move loc (Component.ofSegment s) := by
  rw [step, entry?_of_step h] at h
  simp only at h
  split at h
  · next hpad => simpa [hpad] using h.symm
  · next hpad =>
    rw [if_neg hpad]
    have hdot : s ≠ ['.'] := by
      rintro rfl
      exact hpad rfl
    split at h
    · next hup => simpa [Component.ofSegment, hup, move] using h.symm
    · next hup =>
      split at h
      · simp at h
      · split at h
        · simpa [Component.ofSegment, hup, hdot, move] using h.symm
        · simp at h

theorem foldlM_step_eq_ok {segments : List (List Char)} {loc loc' : Location}
    (h : segments.foldlM t.step loc = .ok loc') :
    loc' = (Path.stepsOf segments).foldl move loc := by
  induction segments generalizing loc with
  | nil => exact (Except.ok.inj h).symm
  | cons s rest ih =>
    obtain ⟨next, hstep, hrest⟩ := foldlM_step_cons.1 h
    rw [ih hrest, step_eq_ok hstep, Path.stepsOf_cons]
    split <;> rfl

/-- A path that leads anywhere leads to the location that it means. -/
theorem locationOf_of_locate {loc : Location} (h : t.locate p = .ok loc) :
    t.locationOf p = loc := by
  obtain ⟨hrefusal, hfold⟩ := locate_eq_ok h
  obtain ⟨first, rest, hsegs⟩ := p.exists_segments
  have hcs := Path.components_of_text_ne hsegs (isShort_of_refusal?_eq_none hrefusal).1
  rw [locationOf, hcs, foldlM_step_eq_ok hfold, hsegs, Path.stepsOf_cons, List.foldl_cons]
  cases habs : p.isAbsolute with
  | true =>
    obtain ⟨rfl, -⟩ := (Path.isAbsolute_iff hsegs).1 habs
    rw [startOf, if_pos habs]
    rfl
  | false =>
    have hfirst : first ≠ [] := by
      rintro rfl
      have hrest := (Path.text_ne_empty_iff hsegs).1 (isShort_of_refusal?_eq_none hrefusal).1
      rw [(Path.isAbsolute_iff hsegs).2 ⟨rfl, by simpa using hrest⟩] at habs
      cases habs
    rw [startOf, if_neg (by simp [habs]), Path.leadOf, if_neg hfirst]
    split
    · next hpad =>
      obtain rfl : first = ['.'] := by simpa [Path.isPadding, hfirst] using hpad
      rfl
    · rfl

/-- A path from the root leads to the location of its names. -/
theorem location_of_locate {names : List String} (hp : p.components = .root :: names.map .name)
    {loc : Location} (h : t.locate p = .ok loc) : loc = names := by
  rw [← locationOf_of_locate h, locationOf_append_names (p := ⟨"/"⟩) _ hp]
  rfl

theorem entry?_of_isDirectory (h : t.isDirectory p = true) :
    t.entry? (t.locationOf p) = some .directory := by
  obtain ⟨loc, hloc, hentry⟩ := exists_locate_of_isDirectory h
  rwa [locationOf_of_locate hloc]

/-! ## Listings -/

/-- A file in the listing of a directory has a name behind the directory, and its path means
its location. -/
theorem exists_name_of_mem_filesBelow {dir : Path} (hdir : t.isDirectory dir = true)
    (h : p ∈ t.filesBelow dir) : ∃ front name contents, (∀ s ∈ front ++ [name], IsName s) ∧
      p = pathTo dir (front ++ [name]) ∧
      p.components = dir.components ++ front.map .name ++ [.name name] ∧
      refusal? (pathTo dir front) = none ∧
      t.entry? (t.locationOf p) = some (.file contents) := by
  obtain ⟨loc, hloc, hentryDir⟩ := exists_locate_of_isDirectory hdir
  obtain ⟨names, contents, hentry, hrefusal, rfl⟩ := (mem_filesBelow_iff hloc).1 h
  have hnames : ∀ s ∈ names, IsName s := fun s hs => isName_of_entry? hentry s (by simp [hs])
  have hcs := (pathTo_spec (text_ne_of_locate hloc) hnames).1
  rw [← locationOf_of_locate hloc, ← locationOf_append_names _ hcs] at hentry
  cases names using List.reverseRecOn with
  | nil =>
    -- a directory is not a file
    rw [pathTo_nil, locationOf_of_locate hloc, hentryDir] at hentry
    simp at hentry
  | append_singleton front name =>
    rw [List.dropLast_concat] at hrefusal
    refine ⟨front, name, contents, hnames, rfl, ?_, hrefusal, hentry⟩
    rw [hcs, List.map_append, List.append_assoc]
    rfl

/-- A directory has the shorter path of what lies in it. -/
theorem isShort_of_div {name : String} (hname : IsName name) (h : IsShort (p / name)) :
    IsShort p := by
  refine le_trans ?_ h
  show p.text.utf8ByteSize ≤ (p.join ⟨name⟩).text.utf8ByteSize
  unfold Path.join
  rw [Path.isAbsolute_of_name hname.no_slash]
  by_cases hne : p.text = ""
  · simp [hne]
  · simp only [hne, Bool.false_or, decide_false, Bool.false_eq_true, if_false]
    split
    · rw [String.utf8ByteSize_append]
      omega
    · rw [String.utf8ByteSize_append, String.utf8ByteSize_append]
      omega

/-- A listing of a plain directory from the root has every file below it. -/
theorem mem_filesBelow_of_isFile {dir : Path} (hplain : dir.IsPlain) (hrooted : dir.IsRooted)
    (hdir : t.isDirectory dir = true) (hq : q.IsPlain) (hqRooted : q.IsRooted)
    (hbelow : q.StartsWith dir) (hfile : t.isFile q = true) : q ∈ t.filesBelow dir := by
  obtain ⟨dirNames, hdirNames⟩ := hrooted
  obtain ⟨names, hnames⟩ := hqRooted
  obtain ⟨loc, hloc, -⟩ := exists_locate_of_isDirectory hdir
  obtain ⟨full, contents, hfull, hentry⟩ := exists_locate_of_isFile hfile
  obtain rfl := location_of_locate hdirNames hloc
  obtain rfl := location_of_locate hnames hfull
  obtain ⟨below, rfl⟩ : ∃ below, full = loc ++ below := by
    rw [Path.StartsWith, hdirNames, hnames, List.cons_prefix_cons] at hbelow
    obtain ⟨steps, hsteps⟩ := hbelow.2
    obtain ⟨l, below, rfl, hl, -⟩ := List.append_eq_map_iff.1 hsteps
    exact ⟨below, by rw [List.map_injective_iff.2 (fun a b h => Component.name.inj h) hl]⟩
  have hbelowNames : ∀ s ∈ below, IsName s := fun s hs => isName_of_entry? hentry s (by simp [hs])
  have hne := text_ne_of_locate hloc
  obtain ⟨hcs, -, hpathPlain⟩ := pathTo_spec hne hbelowNames
  have hpath : pathTo dir below = q := by
    refine Path.SameAs.eq_of_isPlain ?_ (hpathPlain hplain) hq
    show (pathTo dir below).components = q.components
    rw [hcs, hdirNames, hnames, List.map_append, List.cons_append]
  -- the directory of the file is one that fits
  have hrefusal : refusal? (pathTo dir below.dropLast) = none := by
    obtain ⟨hdirRefusal, -⟩ := locate_eq_ok hloc
    cases below using List.reverseRecOn with
    | nil => exact hdirRefusal
    | append_singleton init last =>
      rw [List.dropLast_concat]
      have hinit : ∀ s ∈ init, IsName s := fun s hs => hbelowNames s (List.mem_append_left _ hs)
      refine refusal?_eq_none (pathTo_spec hne hinit).2.1
        (not_nul_pathTo (isShort_of_refusal?_eq_none hdirRefusal).2.1 hinit) ?_
      refine isShort_of_div (hbelowNames last (by simp)) ?_
      rw [← pathTo_concat, hpath]
      exact isShort_of_isFile hfile
  exact (mem_filesBelow_iff hloc).2 ⟨below, contents, hentry, hrefusal, hpath.symm⟩

end Vendoring.FileTree
