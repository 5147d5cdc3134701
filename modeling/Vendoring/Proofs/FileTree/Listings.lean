/-
# Listings in order

A listing goes through the locations of the tree in their order, which compares names
one by one. The paths of the listing are compared in the same way, since they have the
directory in common: what lies in a directory comes before a sibling whose name goes on
where the name of the directory ends.

A file can be looked up under the path that it is listed under, unless the path or one
of its names is too long for that.
-/

import Vendoring.Proofs.FileTree.Edits
import Vendoring.Proofs.FileTree.Locations

namespace Vendoring

open Text

/-! ## The order of paths -/

theorem compare_append_left {α : Type} [Ord α] [Std.ReflOrd α] (front a b : List α) :
    compare (front ++ a) (front ++ b) = compare a b := by
  induction front with
  | nil => rfl
  | cons c front ih => rw [List.cons_append, List.cons_append, List.compare_cons_cons,
      Std.ReflOrd.compare_self, ih, Ordering.eq_then]

namespace Path

variable {p q : Path}

theorem compare_map_name (a b : List String) :
    compare (a.map Component.name) (b.map Component.name) = compare a b := by
  induction a generalizing b with
  | nil => cases b <;> rfl
  | cons s a ih =>
    cases b with
    | nil => rfl
    | cons u b =>
      rw [List.map_cons, List.map_cons, List.compare_cons_cons, List.compare_cons_cons, ih]
      rfl

/-- Paths that go on by names from one directory are in the order of these names. -/
theorem compare_of_names {cs : List Component} {a b : List String}
    (hp : p.components = cs ++ a.map .name) (hq : q.components = cs ++ b.map .name) :
    compare p q = compare a b := by
  show compare p.components q.components = _
  rw [hp, hq, compare_append_left, compare_map_name]

/-- Joining a name replaces the slash at the end of a path, if there is one. -/
theorem segments_div {name : String} (hname : '/' ∉ name.toList) (hp : p.text ≠ "") :
    ∃ kept pad, p.segments = kept ++ pad ∧ (∀ s ∈ pad, isPadding s = true) ∧
      (p / name).segments = kept ++ [name.toList] := by
  have hsegments : (⟨name⟩ : Path).segments = [name.toList] := segments_of_name hname
  by_cases hlast : p.text.toList.getLast? = some '/'
  · obtain ⟨before, hbefore⟩ := List.getLast?_eq_some_iff.1 hlast
    refine ⟨splitOn '/' before, [[]], ?_, by simp [isPadding], ?_⟩
    · rw [segments, hbefore, splitOn_append_sep]
      rfl
    · have hjoin : p / name = ⟨p.text ++ name⟩ := by
        show p.join ⟨name⟩ = _
        rw [join, if_neg (by simp [hp, isAbsolute_of_name hname]), if_pos hlast]
      rw [hjoin, segments, String.toList_append, hbefore, List.append_assoc,
        List.singleton_append, splitOn_append_sep, ← hsegments]
      rfl
  · refine ⟨p.segments, [], by simp, by simp, ?_⟩
    have hjoin : p / name = ⟨p.text ++ "/" ++ name⟩ := by
      show p.join ⟨name⟩ = _
      rw [join, if_neg (by simp [hp, isAbsolute_of_name hname]), if_neg hlast]
    rw [hjoin, segments, String.toList_append, String.toList_append,
      show "/".toList = ['/'] from rfl, List.append_assoc, List.singleton_append,
      splitOn_append_sep, ← hsegments]
    rfl

end Path

namespace FileTree

variable {t : FileTree} {p dir : Path} {loc loc' names : Location} {name : String} {e : Entry}

/-! ## Looking up what is listed -/

theorem startOf_div (hname : IsName name) (hp : p.text ≠ "") :
    t.startOf (p / name) = t.startOf p := by
  have habs : (p / name).isAbsolute = p.isAbsolute := by
    rw [Bool.eq_iff_iff, Path.isAbsolute_iff_head, Path.isAbsolute_iff_head,
      hname.components_div]
    obtain ⟨c, cs, hcs⟩ := List.exists_cons_of_ne_nil (Path.components_ne_nil_iff.2 hp)
    simp [hcs]
  rw [startOf, startOf, habs]

/-- A path is refused only with the longer ones. -/
theorem refusal?_of_div (hname : IsName name) (hp : p.text ≠ "")
    (h : refusal? (p / name) = none) : refusal? p = none := by
  obtain ⟨-, hnul, hshort⟩ := isShort_of_refusal?_eq_none h
  refine refusal?_eq_none hp (fun hmem => hnul ?_) (isShort_of_div hname hshort)
  show '\x00' ∈ (p.join ⟨name⟩).text.toList
  rw [Path.join, if_neg (by simp [hp, Path.isAbsolute_of_name hname.no_slash])]
  split <;> simp [hmem]

/-- A step by a name leads from a directory to an entry in it. -/
theorem step_name_iff (hname : IsName name) :
    t.step loc name.toList = .ok loc' ↔ t.entry? loc = some .directory ∧
      name.utf8ByteSize ≤ maxNameLength ∧ loc' = loc ++ [name] ∧ (t.entry? loc').isSome = true := by
  have hup : name.toList ≠ ['.', '.'] := fun h => hname.2.2.1 (String.toList_injective h)
  constructor
  · intro h
    have hdir := entry?_of_step h
    simp only [step, hdir, hname.not_padding, hup, if_false, String.ofList_toList,
      Bool.false_eq_true] at h
    split at h
    · cases h
    · next hshort =>
      split at h
      · next hsome =>
        obtain rfl := Except.ok.inj h
        exact ⟨hdir, Nat.not_lt.1 hshort, rfl, hsome⟩
      · cases h
  · rintro ⟨hdir, hshort, rfl, hsome⟩
    simp only [step, hdir, hname.not_padding, hup, if_false, String.ofList_toList,
      Bool.false_eq_true]
    rw [if_neg (Nat.not_lt.2 hshort), if_pos hsome]

/-- Padding at the end of a path leads nowhere else. -/
theorem foldlM_step_of_append_padding {kept pad : List (List Char)}
    (hpad : ∀ s ∈ pad, Path.isPadding s = true)
    (h : (kept ++ pad).foldlM t.step loc = .ok loc') : kept.foldlM t.step loc = .ok loc' := by
  rw [List.foldlM_append] at h
  cases hkept : kept.foldlM t.step loc with
  | error cause => simp [hkept, bind, Except.bind] at h
  | ok next =>
    rw [hkept] at h
    have hsteps : Path.stepsOf pad = [] := by
      rw [Path.stepsOf, List.map_eq_nil_iff, List.filter_eq_nil_iff]
      intro s hs
      simp [hpad s hs]
    have hloc := foldlM_step_eq_ok (show pad.foldlM t.step next = .ok loc' from h)
    rw [hloc, hsteps]
    rfl

/-- A path that goes on by a name leads on from the directory that its front leads to. -/
theorem locate_div_iff (hname : IsName name) (hp : p.text ≠ "") :
    t.locate (p / name) = .ok loc' ↔ refusal? (p / name) = none ∧
      name.utf8ByteSize ≤ maxNameLength ∧ ∃ loc, t.locate p = .ok loc ∧
        t.entry? loc = some .directory ∧ loc' = loc ++ [name] ∧ (t.entry? loc').isSome = true := by
  obtain ⟨kept, pad, hsegments, hpad, hdiv⟩ := Path.segments_div hname.no_slash hp
  constructor
  · intro h
    obtain ⟨hrefusal, hfold⟩ := locate_eq_ok h
    rw [startOf_div hname hp, hdiv, List.foldlM_append] at hfold
    cases hkept : kept.foldlM t.step (t.startOf p) with
    | error cause => simp [hkept, bind, Except.bind] at hfold
    | ok loc =>
      rw [hkept] at hfold
      obtain ⟨next, hstep, hnext⟩ := foldlM_step_cons.1 hfold
      obtain rfl : next = loc' := Except.ok.inj hnext
      obtain ⟨hdir, hshort, heq, hsome⟩ := (step_name_iff hname).1 hstep
      have hlocate : t.locate p = .ok loc := by
        rw [locate_of_refusal? (refusal?_of_div hname hp hrefusal), hsegments,
          foldlM_step_append hkept]
        exact foldlM_step_padding hpad hdir
      exact ⟨hrefusal, hshort, loc, hlocate, hdir, heq, hsome⟩
  · rintro ⟨hrefusal, hshort, loc, hlocate, hdir, heq, hsome⟩
    obtain ⟨-, hfold⟩ := locate_eq_ok hlocate
    rw [hsegments] at hfold
    have hkept := foldlM_step_of_append_padding hpad hfold
    rw [locate_of_refusal? hrefusal, startOf_div hname hp, hdiv, foldlM_step_append hkept]
    exact foldlM_step_cons.2 ⟨_, (step_name_iff hname).2 ⟨hdir, hshort, heq, hsome⟩, rfl⟩

/-- The directory that an entry lies in. -/
theorem entry?_of_entry?_concat (h : t.entry? (loc ++ [name]) = some e) :
    t.entry? loc = some .directory := by
  refine t.parent_eq loc name ?_
  rw [Std.TreeMap.mem_iff_isSome_getElem?]
  exact Option.isSome_of_eq_some h

/-- An entry below a directory can be looked up under the path that its names make, if the
path and the names are short enough. -/
theorem locate_pathTo_iff (hloc : t.locate dir = .ok loc) (h : t.entry? (loc ++ names) = some e) :
    t.locate (pathTo dir names) = .ok (loc ++ names) ↔
      refusal? (pathTo dir names) = none ∧ ∀ s ∈ names, s.utf8ByteSize ≤ maxNameLength := by
  have hne := text_ne_of_locate hloc
  induction names using List.reverseRecOn generalizing e with
  | nil => simp [hloc, (locate_eq_ok hloc).1]
  | append_singleton names name ih =>
    rw [← List.append_assoc] at h ⊢
    have hparent := entry?_of_entry?_concat h
    have hnames : ∀ s ∈ loc ++ names ++ [name], IsName s := isName_of_entry? h
    have hname : IsName name := hnames name (by simp)
    have htext : (pathTo dir names).text ≠ "" :=
      (pathTo_spec hne fun s hs => hnames s (by simp [hs])).2.1
    rw [pathTo_concat, locate_div_iff hname htext, List.forall_mem_append,
      List.forall_mem_singleton]
    constructor
    · rintro ⟨hrefusal, hshort, loc', hlocate, -, hsame, -⟩
      obtain rfl := List.append_cancel_right hsame
      exact ⟨hrefusal, ((ih hparent).1 hlocate).2, hshort⟩
    · rintro ⟨hrefusal, hshorts, hshort⟩
      have hlocate := (ih hparent).2 ⟨refusal?_of_div hname htext hrefusal, hshorts⟩
      exact ⟨hrefusal, hshort, _, hlocate, hparent, rfl, Option.isSome_of_eq_some h⟩

/-- A directory is no longer than what lies in it. -/
theorem refusal?_pathTo_iff (hloc : t.locate dir = .ok loc)
    (h : t.entry? (loc ++ names) = some e) :
    refusal? (pathTo dir names) = none ↔ IsShort (pathTo dir names) := by
  have hnames : ∀ s ∈ names, IsName s := fun s hs => isName_of_entry? h s (by simp [hs])
  refine ⟨fun hrefusal => (isShort_of_refusal?_eq_none hrefusal).2.2, ?_⟩
  refine refusal?_eq_none (pathTo_spec (text_ne_of_locate hloc) hnames).2.1 ?_
  exact not_nul_pathTo (isShort_of_refusal?_eq_none (locate_eq_ok hloc).1).2.1 hnames

/-- An entry below a directory is found under the path of its names, if they are short. -/
theorem read_pathTo_iff {contents : ByteArray} (hloc : t.locate dir = .ok loc)
    (h : t.entry? (loc ++ names) = some (.file contents)) :
    t.read (pathTo dir names) = .ok contents ↔
      IsShort (pathTo dir names) ∧ ∀ s ∈ names, s.utf8ByteSize ≤ maxNameLength := by
  have hnames : ∀ s ∈ names, IsName s := fun s hs => isName_of_entry? h s (by simp [hs])
  rw [← refusal?_pathTo_iff hloc h, ← locate_pathTo_iff hloc h]
  refine ⟨fun hread => ?_, fun hlocate => read_of_locate hlocate h⟩
  obtain ⟨loc', hlocate, -⟩ := exists_locate_of_read hread
  have hplace : loc' = loc ++ names := by
    rw [← locationOf_of_locate hlocate, ← locationOf_of_locate hloc]
    exact locationOf_append_names names (pathTo_spec (text_ne_of_locate hloc) hnames).1
  rwa [hplace] at hlocate

/-- What can be looked up under its path is listed under it. -/
theorem pathTo_mem_filesBelow {contents : ByteArray} (hloc : t.locate dir = .ok loc)
    (h : t.entry? (loc ++ names) = some (.file contents)) (hshort : IsShort (pathTo dir names)) :
    pathTo dir names ∈ t.filesBelow dir := by
  refine (mem_filesBelow_iff hloc).2 ⟨names, contents, h, ?_, rfl⟩
  have hrefusal := (refusal?_pathTo_iff hloc h).2 hshort
  have hnames : ∀ s ∈ names, IsName s := fun s hs => isName_of_entry? h s (by simp [hs])
  cases names using List.reverseRecOn with
  | nil => exact hrefusal
  | append_singleton names name =>
    rw [List.dropLast_concat]
    rw [pathTo_concat] at hrefusal
    have hfront : ∀ s ∈ names, IsName s := fun s hs => hnames s (by simp [hs])
    exact refusal?_of_div (hnames name (by simp))
      (pathTo_spec (text_ne_of_locate hloc) hfront).2.1 hrefusal

/-! ## The order of a listing -/

/-- The files of a listing are in the order of their paths. -/
theorem pairwise_filesBelow (t : FileTree) (dir : Path) :
    (t.filesBelow dir).Pairwise fun p q => compare p q = .lt := by
  unfold filesBelow
  cases hloc : t.locate dir with
  | error cause => exact .nil
  | ok loc =>
    rw [List.pairwise_filterMap]
    refine Std.TreeMap.ordered_keys_toList.imp_of_mem ?_
    rintro ⟨full, e⟩ ⟨full', e'⟩ hmem hmem' hlt p hp q hq
    have hne := text_ne_of_locate hloc
    have hlisted {full : Location} {e : Entry} (hmem : (full, e) ∈ t.entries.toList)
        {names : Location} (hbelow : locationBelow? loc full = some names) :
        full = loc ++ names ∧
          (pathTo dir names).components = dir.components ++ names.map .name := by
      have hentry : t.entry? full = some e := Std.TreeMap.mem_toList_iff_getElem?_eq_some.1 hmem
      obtain rfl := eq_append_of_locationBelow? hbelow
      exact ⟨rfl, (pathTo_spec hne fun s hs => isName_of_entry? hentry s (by simp [hs])).1⟩
    simp only at hp hq hlt
    split at hp
    · next names contents hbelow =>
      split at hq
      · next names' contents' hbelow' =>
        obtain ⟨rfl, hcs⟩ := hlisted hmem hbelow
        obtain ⟨rfl, hcs'⟩ := hlisted hmem' hbelow'
        obtain rfl := Option.some.inj (Option.ite_none_right_eq_some.1 hp).2
        obtain rfl := Option.some.inj (Option.ite_none_right_eq_some.1 hq).2
        rwa [Path.compare_of_names hcs hcs', ← compare_append_left loc]
      · simp at hq
    · simp at hp

end FileTree

end Vendoring
