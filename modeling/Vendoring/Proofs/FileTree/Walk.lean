/-
# The order of a walk

A walk sorts the names in each directory and nothing else, and still it meets everything in
the order of the paths. The induction goes down the tree with the walk: what is met in a
directory goes on from the path of that directory by names, the first of which tells
siblings apart, so a directory comes before what lies in it, and with it before a sibling
whose name goes on where its own name ends.

The files that are met are those of the listing by locations, in the same order.
-/

import Vendoring.FileTree.Walk
import Vendoring.Proofs.FileTree.Listings

namespace Vendoring.FileTree

variable {t : FileTree} {loc names : Location} {name : String} {e : Entry} {dir p q : Path}

/-! ## The names in a directory -/

/-- The names in a directory are in order, and each is there once. -/
theorem pairwise_namesIn (t : FileTree) (loc : Location) :
    (t.namesIn loc).Pairwise fun a b => compare a b = .lt := by
  have hsorted : (t.namesIn loc).Pairwise fun a b => (compare a b).isLE = true := by
    refine pairwise_sortBy (fun a b c => Std.TransCmp.isLE_trans) (fun a b => ?_) _
    rw [@Std.OrientedCmp.eq_swap _ compare _ b a]
    cases compare a b <;> rfl
  have hnodup : (t.namesIn loc).Nodup := by
    refine (sortBy_perm _).nodup_iff.2 (Std.TreeMap.nodup_keys.filterMap ?_)
    intro full full' name h h'
    rw [nameIn?_eq_some_iff.1 h, nameIn?_eq_some_iff.1 h']
  refine (hsorted.and hnodup).imp ?_
  rintro a b ⟨hle, hne⟩
  cases hab : compare a b with
  | lt => rfl
  | eq => exact absurd (Std.LawfulEqOrd.eq_of_compare hab) hne
  | gt => simp [hab] at hle

theorem isName_of_mem_namesIn (h : name ∈ t.namesIn loc) : IsName name :=
  t.isName_of_mem _ (t.mem_namesIn.1 h) name (by simp)

/-- Every directory on the way to an entry holds the next one. -/
theorem mem_namesIn_of_append (h : t.entry? (loc ++ name :: names) = some e) :
    name ∈ t.namesIn loc := by
  induction names using List.reverseRecOn generalizing e with
  | nil =>
    rw [mem_namesIn, Std.TreeMap.mem_iff_isSome_getElem?]
    exact Option.isSome_of_eq_some h
  | append_singleton names last ih =>
    rw [← List.cons_append, ← List.append_assoc] at h
    exact ih (entry?_of_entry?_concat h)

/-! ## What a walk meets -/

/-- A walk gets from a path to what lies behind it by some names: the directories between them
can be looked up. -/
def IsOpen (p : Path) (names : Location) : Prop :=
  names ≠ [] → refusal? (pathTo p names.dropLast) = none

/-- No path is refused that goes on to one that is not. -/
theorem refusal?_of_pathTo (hnames : ∀ s ∈ names, IsName s) (hp : p.text ≠ "")
    (h : refusal? (pathTo p names) = none) : refusal? p = none := by
  induction names generalizing p with
  | nil => exact h
  | cons name names ih =>
    obtain ⟨hname, hnames⟩ := List.forall_mem_cons.1 hnames
    exact refusal?_of_div hname hp (ih hnames (hname.text_join_ne hp) h)

theorem isOpen_cons_iff (hnames : ∀ s ∈ name :: names, IsName s) (hp : p.text ≠ "") :
    IsOpen p (name :: names) ↔ refusal? p = none ∧ IsOpen (p / name) names := by
  by_cases hne : names = []
  · subst hne
    simp [IsOpen]
  · simp only [IsOpen, ne_eq, reduceCtorEq, not_false_eq_true, forall_const, hne,
      List.dropLast_cons_of_ne_nil hne]
    refine ⟨fun h => ⟨refusal?_of_pathTo (fun s hs => hnames s ?_) hp h, h⟩, And.right⟩
    rw [← List.dropLast_cons_of_ne_nil hne] at hs
    exact List.dropLast_subset _ hs

/-- The entry lies at the location or below it, and a walk gets to it on the path. -/
def IsMet (t : FileTree) (loc : Location) (p q : Path) (e : Entry) : Prop :=
  ∃ names, t.entry? (loc ++ names) = some e ∧ IsOpen p names ∧ q = pathTo p names

/-- What is met lies at the location itself, or the walk goes on by a name. -/
theorem isMet_iff (hp : p.text ≠ "") :
    IsMet t loc p q e ↔ t.entry? loc = some e ∧ q = p ∨
      refusal? p = none ∧ ∃ name ∈ t.namesIn loc, IsMet t (loc ++ [name]) (p / name) q e := by
  constructor
  · rintro ⟨_ | ⟨name, names⟩, hentry, hopen, rfl⟩
    · exact .inl ⟨by simpa using hentry, rfl⟩
    · have hnames : ∀ s ∈ name :: names, IsName s := fun s hs =>
        isName_of_entry? hentry s (List.mem_append_right _ hs)
      obtain ⟨hrefusal, hopen⟩ := (isOpen_cons_iff hnames hp).1 hopen
      exact .inr ⟨hrefusal, name, mem_namesIn_of_append hentry, names,
        by simpa using hentry, hopen, rfl⟩
  · rintro (⟨hentry, rfl⟩ | ⟨hrefusal, name, -, names, hentry, hopen, rfl⟩)
    · exact ⟨[], by simpa using hentry, fun h => absurd rfl h, rfl⟩
    · rw [List.append_assoc] at hentry
      have hnames : ∀ s ∈ name :: names, IsName s := fun s hs =>
        isName_of_entry? hentry s (List.mem_append_right _ hs)
      exact ⟨name :: names, hentry, (isOpen_cons_iff hnames hp).2 ⟨hrefusal, hopen⟩, rfl⟩

/-- From a location, a walk meets the entries there and below on the paths of their names. -/
theorem mem_walkFrom_iff (hp : p.text ≠ "") :
    (q, e) ∈ t.walkFrom loc p ↔ IsMet t loc p q e := by
  induction loc, p using walkFrom.induct (t := t) with
  | case1 loc p hentry =>
    rw [walkFrom, hentry, isMet_iff hp]
    refine ⟨fun h => absurd h List.not_mem_nil, ?_⟩
    rintro (⟨h, -⟩ | ⟨-, name, hname, -⟩)
    · rw [hentry] at h
      cases h
    · rw [t.entry?_of_mem_namesIn hname] at hentry
      cases hentry
  | case2 loc p contents hentry =>
    rw [walkFrom, hentry, isMet_iff hp, hentry, List.mem_singleton, Prod.mk.injEq]
    refine ⟨fun h => .inl ⟨by rw [h.2], h.1⟩, ?_⟩
    rintro (⟨h, hq⟩ | ⟨-, name, hname, -⟩)
    · exact ⟨hq, (Option.some.inj h).symm⟩
    · rw [t.entry?_of_mem_namesIn hname] at hentry
      cases hentry
  | case3 loc p hentry ih =>
    have hbelow (name : String) (hname : name ∈ t.namesIn loc) :=
      ih name hname ((isName_of_mem_namesIn hname).text_join_ne hp)
    rw [mem_walkFrom_directory hentry, isMet_iff hp, hentry, Prod.mk.injEq, Option.some.injEq,
      and_comm, eq_comm (a := e)]
    exact or_congr_right (and_congr_right fun _ => exists_congr fun name =>
      and_congr_right fun hname => hbelow name hname)

/-- A walk from a path meets the entries below it whose directories can be looked up. -/
theorem mem_walk_iff (hloc : t.locate dir = .ok loc) :
    (q, e) ∈ t.walk dir ↔ IsMet t loc dir q e := by
  rw [walk, hloc]
  exact mem_walkFrom_iff (text_ne_of_locate hloc)

/-! ## The order -/

/-- What a walk meets in a directory goes on from there by the name of one of the entries. -/
theorem exists_names_of_mem_walkFrom (hname : name ∈ t.namesIn loc) (hp : p.text ≠ "")
    (h : (q, e) ∈ t.walkFrom (loc ++ [name]) (p / name)) :
    ∃ names : List String, q.components = p.components ++ (name :: names).map .name := by
  have hne := (isName_of_mem_namesIn hname).text_join_ne hp
  obtain ⟨names, hentry, -, rfl⟩ := (mem_walkFrom_iff hne).1 h
  rw [List.append_assoc] at hentry
  have hnames : ∀ s ∈ name :: names, IsName s := fun s hs =>
    isName_of_entry? hentry s (List.mem_append_right _ hs)
  exact ⟨names, (pathTo_spec hp hnames).1⟩

/-- From a location, a walk meets everything in the order of the paths: a directory before
what lies in it, and that before the siblings behind the directory. -/
theorem pairwise_walkFrom (hp : p.text ≠ "") :
    (t.walkFrom loc p).Pairwise fun a b => compare a.1 b.1 = .lt := by
  induction loc, p using walkFrom.induct (t := t) with
  | case1 loc p hentry =>
    rw [walkFrom, hentry]
    exact .nil
  | case2 loc p contents hentry =>
    rw [walkFrom, hentry]
    exact List.pairwise_singleton _ _
  | case3 loc p hentry ih =>
    rw [walkFrom_directory hentry]
    split
    · refine List.pairwise_cons.2 ⟨?inside, List.pairwise_flatMap.2 ⟨?below, ?siblings⟩⟩
      case inside =>
        rintro ⟨q, e⟩ h
        obtain ⟨name, hname, h⟩ := List.mem_flatMap.1 h
        obtain ⟨names, hcs⟩ := exists_names_of_mem_walkFrom hname hp h
        exact Path.compare_of_names (a := []) (by simp) hcs
      case below =>
        exact fun name hname => ih name hname ((isName_of_mem_namesIn hname).text_join_ne hp)
      case siblings =>
        refine (pairwise_namesIn t loc).imp_of_mem fun {a b} ha hb hlt => ?_
        rintro ⟨q, e⟩ h ⟨q', e'⟩ h'
        obtain ⟨names, hcs⟩ := exists_names_of_mem_walkFrom ha hp h
        obtain ⟨names', hcs'⟩ := exists_names_of_mem_walkFrom hb hp h'
        rw [Path.compare_of_names hcs hcs', List.compare_cons_cons, hlt]
        rfl
    · exact List.pairwise_singleton _ _

/-- A walk meets everything in the order of the paths. -/
theorem pairwise_walk (t : FileTree) (dir : Path) :
    (t.walk dir).Pairwise fun a b => compare a.1 b.1 = .lt := by
  unfold walk
  cases hloc : t.locate dir with
  | error cause => exact .nil
  | ok loc => exact pairwise_walkFrom (text_ne_of_locate hloc)

/-! ## The files of a walk -/

theorem isOpen_iff (h : refusal? p = none) :
    IsOpen p names ↔ refusal? (pathTo p names.dropLast) = none := by
  by_cases hne : names = []
  · simp [IsOpen, hne, h]
  · simp [IsOpen, hne]

theorem mem_files_walk :
    p ∈ ((t.walk dir).filter (·.2.isFile)).map (·.1) ↔ p ∈ t.filesBelow dir := by
  cases hloc : t.locate dir with
  | error cause => simp [walk, filesBelow, hloc]
  | ok loc =>
    simp only [List.mem_map, List.mem_filter, Prod.exists, exists_and_right, exists_eq_right,
      mem_walk_iff hloc, IsMet, mem_filesBelow_iff hloc, isOpen_iff (locate_eq_ok hloc).1]
    constructor
    · rintro ⟨contents | _, ⟨names, hentry, hopen, rfl⟩, hfile⟩
      · exact ⟨names, ⟨contents, hentry⟩, hopen, rfl⟩
      · cases hfile
    · rintro ⟨names, ⟨contents, hentry⟩, hopen, rfl⟩
      exact ⟨.file contents, ⟨names, hentry, hopen, rfl⟩, rfl⟩

/-- A walk meets the files of the listing, in the same order. -/
theorem files_walk (t : FileTree) (dir : Path) :
    ((t.walk dir).filter (·.2.isFile)).map (·.1) = t.filesBelow dir := by
  have hasymm {p q : Path} (hlt : compare p q = .lt) : compare q p ≠ .lt := by
    rw [Std.OrientedCmp.gt_of_lt hlt]
    decide
  have hnodup {l : List Path} (h : l.Pairwise fun p q => compare p q = .lt) : l.Nodup := by
    refine h.imp fun {p q} hlt heq => ?_
    subst heq
    exact hasymm hlt hlt
  have hmet : (((t.walk dir).filter (·.2.isFile)).map (·.1)).Pairwise fun p q =>
      compare p q = .lt :=
    List.pairwise_map.2 ((pairwise_walk t dir).filter _)
  have hlisted := pairwise_filesBelow t dir
  have hperm := (List.perm_ext_iff_of_nodup (hnodup hmet) (hnodup hlisted)).2 fun p => mem_files_walk
  exact hperm.eq_of_pairwise (fun p q _ _ hlt hgt => absurd hgt (hasymm hlt)) hmet hlisted

end Vendoring.FileTree
