/-
# What an outline shows

The outline of a graph follows it in depth from the places that the starting file
refers to, in the order of their paths. A place is expanded where it comes up first:
the places that it refers to are shown below it. Where it comes up again it has a line
of its own and nothing below it. That walk is said here as a relation without a bound,
with the places shown so far handed on from line to line. The bound of the outline is
never met, since an expanded place is one of the graph, and no place is expanded twice.

A graph may lead back to any place that it holds, but has to hold every place that it
leads to; of a place that is not there nothing can be shown.
-/

import Vendoring.Graph.Component
import Vendoring.Proofs.Path.Keys

namespace Vendoring

theorem PathSet.mem_of_mem_toPaths {s : PathSet} {p : Path} (h : p ∈ s.toPaths) : p ∈ s := by
  obtain ⟨n, hn, rfl⟩ := List.mem_map.1 h
  exact PathMap.mem_of_getElem? s (PathMap.getElem?_of_mem_toList s hn)

theorem PathSet.exists_mem_toPaths {s : PathSet} {p : Path} (h : p ∈ s) :
    ∃ q ∈ s.toPaths, q.SameAs p := by
  obtain ⟨n, hn, hsame⟩ := PathMap.exists_mem_toList_of_mem s h
  exact ⟨n.1, List.mem_map.2 ⟨n, hn, rfl⟩, hsame.symm⟩

/-- A map whose keys are all keys of another one is no larger. -/
theorem PathMap.size_le_of_forall_mem {α β : Type} {m : PathMap α} {m' : PathMap β}
    (h : ∀ p ∈ m, p ∈ m') : m.size ≤ m'.size := by
  have hkeys : ∀ p ∈ m.keys, ∃ q ∈ m'.keys, p.SameAs q := by
    intro p hp
    obtain ⟨n, hn, hsame⟩ := m'.exists_mem_toList_of_mem (h p (Std.TreeMap.mem_of_mem_keys hp))
    exact ⟨n.1, Std.TreeMap.map_fst_toList_eq_keys ▸ List.mem_map.2 ⟨n, hn, rfl⟩, hsame⟩
  choose! key hkey hsame using hkeys
  have hnodup : (m.keys.map key).Nodup := by
    refine List.pairwise_map.2 (Std.TreeMap.distinct_keys.imp_of_mem ?_)
    intro p q hp hq hne heq
    exact hne (Path.compare_eq_iff.2 ((hsame p hp).trans (heq ▸ (hsame q hq).symm)))
  have hsubset : m.keys.map key ⊆ m'.keys := by
    intro q hq
    obtain ⟨p, hp, rfl⟩ := List.mem_map.1 hq
    exact hkey p hp
  have hle := (List.subperm_of_subset hnodup hsubset).length_le
  rwa [List.length_map, Std.TreeMap.length_keys, Std.TreeMap.length_keys] at hle

theorem PathMap.forall_mem_insert {α β : Type} {m : PathMap α} {m' : PathMap β} {q : Path}
    (a : α) (h : ∀ p ∈ m, p ∈ m') (hq : q ∈ m') : ∀ p ∈ m.insert q a, p ∈ m' := by
  intro p hp
  rcases (m.mem_insert q p a).1 hp with hsame | hp
  · exact (m'.mem_congr hsame).1 hq
  · exact h p hp

namespace Graph

variable {ρ : Type}

/-- Every place that the graph leads to is one of its places. -/
structure IsClosed (g : Graph ρ) : Prop where
  roots : ∀ p ∈ g.roots, p ∈ g.nodes
  children : ∀ (p : Path) (n : Node ρ), g.nodes[p]? = some n → ∀ q ∈ n.children, q ∈ g.nodes

/-- The places that the starting file leads to, over any number of references. -/
inductive Reaches (g : Graph ρ) : Path → Prop
  | root {p : Path} : p ∈ g.roots → Reaches g p
  | child {p q : Path} {n : Node ρ} : Reaches g p → g.nodes[p]? = some n → q ∈ n.children →
      Reaches g q

/-- A line of an outline before it is written: the place that it shows, and whether the
places that this one refers to are shown below it. -/
structure Row (ρ : Type) where
  key : Path
  depth : Nat
  node : Node ρ
  isExpanded : Bool

namespace Row

variable (r : Row ρ)

/-- The places that the place of the row refers to, one step further in. -/
def below : List (Path × Nat) := r.node.children.toPaths.map (·, r.depth + 1)

/-- Whether something is left out below the row. -/
def isMarked : Bool := !r.isExpanded && !r.node.children.isEmpty

/-- The line of the row. -/
def line (describe : Node ρ → String) : String :=
  indented r.depth (describe r.node) ++ if r.isMarked then repeatMark else ""

end Row

/-- The rows for some places, each at its depth, when some places have been shown
before, with the places that have been shown after them. The places that an expanded
one refers to come below it, before anything else is shown. -/
inductive Displays (g : Graph ρ) :
    PathSet → List (Path × Nat) → List (Row ρ) → PathSet → Prop
  | nil {shown : PathSet} : Displays g shown [] [] shown
  | again {shown after : PathSet} {key : Path} {depth : Nat} {todo : List (Path × Nat)}
      {node : Node ρ} {rows : List (Row ρ)} : g.nodes[key]? = some node → key ∈ shown →
      Displays g shown todo rows after →
      Displays g shown ((key, depth) :: todo) (⟨key, depth, node, false⟩ :: rows) after
  | first {shown middle after : PathSet} {key : Path} {depth : Nat} {todo : List (Path × Nat)}
      {node : Node ρ} {inner rows : List (Row ρ)} : g.nodes[key]? = some node → key ∉ shown →
      Displays g (shown.insert key ()) (Row.below ⟨key, depth, node, true⟩) inner middle →
      Displays g middle todo rows after →
      Displays g shown ((key, depth) :: todo) (⟨key, depth, node, true⟩ :: (inner ++ rows)) after

variable {g : Graph ρ} {shown middle after : PathSet} {todo todo' : List (Path × Nat)}
variable {rows rows' : List (Row ρ)} {describe : Node ρ → String} {p : Path}

namespace Displays

theorem append (h : g.Displays shown todo rows middle) (h' : g.Displays middle todo' rows' after) :
    g.Displays shown (todo ++ todo') (rows ++ rows') after := by
  induction h with
  | nil => exact h'
  | again hnode hshown _ ih => exact .again hnode hshown (ih h')
  | first hnode hnew hinner _ _ ih =>
    rw [List.cons_append, List.cons_append, List.append_assoc]
    exact .first hnode hnew hinner (ih h')

theorem of_append (h : g.Displays shown (todo ++ todo') rows after) :
    ∃ front middle behind, g.Displays shown todo front middle ∧
      g.Displays middle todo' behind after ∧ rows = front ++ behind := by
  induction todo generalizing shown rows with
  | nil => exact ⟨[], shown, rows, .nil, h, rfl⟩
  | cons x todo ih =>
    rw [List.cons_append] at h
    cases h with
    | again hnode hshown hrest =>
      obtain ⟨front, middle, behind, hfront, hbehind, rfl⟩ := ih hrest
      exact ⟨_, middle, behind, .again hnode hshown hfront, hbehind, rfl⟩
    | first hnode hnew hinner hrest =>
      obtain ⟨front, middle, behind, hfront, hbehind, rfl⟩ := ih hrest
      refine ⟨_, middle, behind, .first hnode hnew hinner hfront, hbehind, ?_⟩
      rw [List.cons_append, List.append_assoc]

/-- The places below a new one may wait in one list with those behind it. -/
theorem first_of_append {key : Path} {depth : Nat} {node : Node ρ}
    (hnode : g.nodes[key]? = some node) (hnew : key ∉ shown)
    (h : g.Displays (shown.insert key ()) (Row.below ⟨key, depth, node, true⟩ ++ todo) rows after) :
    g.Displays shown ((key, depth) :: todo) (⟨key, depth, node, true⟩ :: rows) after := by
  obtain ⟨inner, middle, behind, hinner, hbehind, rfl⟩ := h.of_append
  exact .first hnode hnew hinner hbehind

end Displays

/-! ## The outline displays the graph -/

theorem line_again (key : Path) (depth : Nat) (node : Node ρ) :
    (⟨key, depth, node, false⟩ : Row ρ).line describe = repeatedLine describe depth node := by
  cases h : node.children.isEmpty <;> simp [Row.line, Row.isMarked, repeatedLine, h]

theorem line_first (key : Path) (depth : Nat) (node : Node ρ) :
    (⟨key, depth, node, true⟩ : Row ρ).line describe = indented depth (describe node) := by
  simp [Row.line, Row.isMarked]

/-- Nothing but places that have been shown: each has its line, and none is expanded. -/
theorem repeatedLines_eq_none {lines : List String} (hin : ∀ x ∈ todo, x.1 ∈ g.nodes)
    (h : repeatedLines describe g shown todo = (lines, none)) :
    ∃ rows, g.Displays shown todo rows shown ∧ lines = rows.map (·.line describe) := by
  induction todo generalizing lines with
  | nil =>
    obtain ⟨rfl, -⟩ := Prod.mk.inj h
    exact ⟨[], .nil, rfl⟩
  | cons x todo ih =>
    obtain ⟨key, depth⟩ := x
    obtain ⟨node, hnode⟩ := g.nodes.exists_getElem?_of_mem (hin _ List.mem_cons_self)
    simp only [repeatedLines, hnode] at h
    split at h
    · next hshown =>
      obtain ⟨rfl, hnext⟩ := Prod.mk.inj h
      obtain ⟨rows, hrows, hlines⟩ :=
        ih (fun x hx => hin x (List.mem_cons_of_mem _ hx)) (Prod.ext rfl hnext)
      refine ⟨⟨key, depth, node, false⟩ :: rows,
        .again hnode (Std.TreeMap.contains_iff_mem.1 hshown) hrows, ?_⟩
      rw [List.map_cons, ← hlines, line_again]
    · exact absurd (Prod.mk.inj h).2 (Option.some_ne_none _)

/-- In front of a place that has not been shown stand only such that have been. -/
theorem repeatedLines_eq_some {lines : List String} {new : Unshown ρ}
    (hin : ∀ x ∈ todo, x.1 ∈ g.nodes)
    (h : repeatedLines describe g shown todo = (lines, some new)) :
    ∃ done rows, todo = done ++ (new.key, new.depth) :: new.rest ∧
      g.nodes[new.key]? = some new.node ∧ new.key ∉ shown ∧
      g.Displays shown done rows shown ∧ lines = rows.map (·.line describe) := by
  induction todo generalizing lines with
  | nil => simp [repeatedLines] at h
  | cons x todo ih =>
    obtain ⟨key, depth⟩ := x
    obtain ⟨node, hnode⟩ := g.nodes.exists_getElem?_of_mem (hin _ List.mem_cons_self)
    simp only [repeatedLines, hnode] at h
    split at h
    · next hshown =>
      obtain ⟨rfl, hnext⟩ := Prod.mk.inj h
      obtain ⟨done, rows, rfl, hnew, hunshown, hrows, hlines⟩ :=
        ih (fun x hx => hin x (List.mem_cons_of_mem _ hx)) (Prod.ext rfl hnext)
      refine ⟨(key, depth) :: done, ⟨key, depth, node, false⟩ :: rows, rfl, hnew, hunshown,
        .again hnode (Std.TreeMap.contains_iff_mem.1 hshown) hrows, ?_⟩
      rw [List.map_cons, ← hlines, line_again]
    · next hshown =>
      obtain ⟨rfl, hnext⟩ := Prod.mk.inj h
      obtain rfl := Option.some.inj hnext
      exact ⟨[], [], rfl, hnode, fun hmem => hshown (Std.TreeMap.contains_iff_mem.2 hmem),
        .nil, rfl⟩

/-- An outline is the lines of a display, if its bound allows for the places that have
not been shown. -/
theorem exists_displays (hg : g.IsClosed) {bound : Nat} (hin : ∀ x ∈ todo, x.1 ∈ g.nodes)
    (hshown : ∀ p ∈ shown, p ∈ g.nodes) (hbound : g.nodes.size ≤ shown.size + bound) :
    ∃ rows after, g.Displays shown todo rows after ∧
      outlineFrom describe g bound todo shown = rows.map (·.line describe) := by
  induction bound generalizing todo shown with
  | zero =>
    match hrepeated : repeatedLines describe g shown todo with
    | (lines, none) =>
      obtain ⟨rows, hrows, rfl⟩ := repeatedLines_eq_none hin hrepeated
      exact ⟨rows, shown, hrows, by simp [outlineFrom, hrepeated]⟩
    | (lines, some new) =>
      -- one more place would be one more than the graph has
      obtain ⟨-, -, -, hnode, hnew, -⟩ := repeatedLines_eq_some hin hrepeated
      have hle := PathMap.size_le_of_forall_mem
        (PathMap.forall_mem_insert () hshown (g.nodes.mem_of_getElem? hnode))
      rw [PathMap.size_insert_of_not_mem _ hnew] at hle
      omega
  | succ bound ih =>
    match hrepeated : repeatedLines describe g shown todo with
    | (lines, none) =>
      obtain ⟨rows, hrows, rfl⟩ := repeatedLines_eq_none hin hrepeated
      exact ⟨rows, shown, hrows, by simp [outlineFrom, hrepeated]⟩
    | (lines, some new) =>
      obtain ⟨done, repeated, rfl, hnode, hnew, hrepeats, rfl⟩ :=
        repeatedLines_eq_some hin hrepeated
      have hbelow : ∀ x ∈ Row.below ⟨new.key, new.depth, new.node, true⟩ ++ new.rest,
          x.1 ∈ g.nodes := by
        intro x hx
        rcases List.mem_append.1 hx with hx | hx
        · obtain ⟨q, hq, rfl⟩ := List.mem_map.1 hx
          exact hg.children _ _ hnode q (PathSet.mem_of_mem_toPaths hq)
        · exact hin x (by simp [hx])
      have hshown' := PathMap.forall_mem_insert () hshown (g.nodes.mem_of_getElem? hnode)
      obtain ⟨rows, after, hrows, hlines⟩ := ih hbelow hshown' (by
        rw [PathMap.size_insert_of_not_mem _ hnew]
        omega)
      refine ⟨_, after, hrepeats.append (.first_of_append hnode hnew hrows), ?_⟩
      rw [outlineFrom.eq_def, hrepeated, List.map_append, List.map_cons, line_first, ← hlines]
      rfl

/-! ## What a display accounts for -/

namespace Displays

/-- Each place at hand has a row, and so has each place that an expanded one refers to. -/
theorem perm (h : g.Displays shown todo rows after) :
    (rows.map fun r => (r.key, r.depth)).Perm
      (todo ++ (rows.filter (·.isExpanded)).flatMap Row.below) := by
  induction h with
  | nil => simp
  | again _ _ _ ih => exact ih.cons _
  | first _ _ _ _ ihInner ih =>
    simp only [List.map_cons, List.map_append, List.filter_cons, if_true, List.filter_append,
      List.flatMap_cons, List.flatMap_append, List.cons_append]
    refine .cons _ ((ihInner.append ih).trans ?_)
    refine (List.perm_append_comm_assoc _ _ _).trans ?_
    rw [List.append_assoc]

theorem getElem?_of_mem (h : g.Displays shown todo rows after) {r : Row ρ} (hr : r ∈ rows) :
    g.nodes[r.key]? = some r.node := by
  induction h with
  | nil => simp at hr
  | again hnode _ _ ih =>
    rcases List.mem_cons.1 hr with rfl | hr
    · exact hnode
    · exact ih hr
  | first hnode _ _ _ ihInner ih =>
    rcases List.mem_cons.1 hr with rfl | hr
    · exact hnode
    · rcases List.mem_append.1 hr with hr | hr
      · exact ihInner hr
      · exact ih hr

/-- What has been shown in the end was shown before, or has a row. -/
theorem mem_after_iff (h : g.Displays shown todo rows after) :
    p ∈ after ↔ p ∈ shown ∨ ∃ r ∈ rows, r.key.SameAs p := by
  induction h with
  | nil => simp
  | @again shown _ key _ _ _ _ _ hshown _ ih =>
    have hkey : key.SameAs p → p ∈ shown := fun hsame => (PathMap.mem_congr _ hsame).1 hshown
    simp only [ih, List.exists_mem_cons_iff]
    tauto
  | first _ _ _ _ ihInner ih =>
    rw [ih, ihInner, PathMap.mem_insert, List.exists_mem_cons_iff, or_assoc, or_assoc, or_left_comm]
    simp only [List.mem_append, or_and_right, exists_or]

/-- A row is expanded exactly if its place has not been shown before, in this display or
ahead of it. -/
theorem isExpanded_iff (h : g.Displays shown todo rows after) {front behind : List (Row ρ)}
    {r : Row ρ} (hrows : rows = front ++ r :: behind) :
    r.isExpanded = true ↔ r.key ∉ shown ∧ ∀ s ∈ front, ¬s.key.SameAs r.key := by
  induction h generalizing front behind with
  | nil => simp at hrows
  | @again shown _ key _ _ _ rows _ hshown _ ih =>
    cases front with
    | nil =>
      obtain ⟨rfl, -⟩ := List.cons.inj hrows
      simpa using hshown
    | cons s front =>
      obtain ⟨rfl, htail⟩ := List.cons.inj hrows
      have hkey : key.SameAs r.key → r.key ∈ shown := fun hsame =>
        (PathMap.mem_congr _ hsame).1 hshown
      simp only [ih htail, List.forall_mem_cons]
      tauto
  | @first shown _ _ key _ _ _ inner rows _ hnew hinner _ ihInner ih =>
    cases front with
    | nil =>
      obtain ⟨rfl, -⟩ := List.cons.inj hrows
      simpa using hnew
    | cons s front =>
      obtain ⟨rfl, htail⟩ := List.cons.inj hrows
      simp only [List.forall_mem_cons]
      rcases List.append_eq_append_iff.1 htail with ⟨more, rfl, hmore⟩ | ⟨more, hmore, hbehind⟩
      · -- the row stands behind those below the new place
        rw [ih hmore, hinner.mem_after_iff, PathMap.mem_insert, List.forall_mem_append]
        simp only [not_or, not_exists, not_and]
        tauto
      · cases more with
        | nil =>
          rw [List.append_nil] at hmore
          rw [@ih [] _ hbehind.symm, hinner.mem_after_iff, PathMap.mem_insert, hmore]
          simp only [not_or, not_exists, not_and, List.not_mem_nil, false_imp_iff, implies_true]
          tauto
        | cons s more =>
          obtain ⟨rfl, -⟩ := List.cons.inj hbehind
          rw [ihInner hmore, PathMap.mem_insert, not_or]
          tauto

/-- A place is expanded once if it comes up and has not been shown before, and not
otherwise. -/
theorem countP_expanded (h : g.Displays shown todo rows after) (p : Path) :
    (rows.countP fun r => r.isExpanded && decide (r.key.SameAs p)) + (if p ∈ shown then 1 else 0) =
      if p ∈ after then 1 else 0 := by
  induction h with
  | nil => simp
  | again _ _ _ ih => simpa using ih
  | @first shown _ _ key _ _ _ _ _ _ hnew _ _ ihInner ih =>
    have hkey : key.SameAs p → p ∉ shown := fun hsame hp =>
      hnew ((PathMap.mem_congr _ hsame).2 hp)
    rw [← ih, ← ihInner, List.countP_cons, List.countP_append]
    simp only [PathMap.mem_insert, Bool.true_and, decide_eq_true_eq]
    by_cases hsame : key.SameAs p
    · simp only [hsame, true_or, if_true, hkey hsame, if_false]
      omega
    · simp only [hsame, false_or, if_false]
      omega

/-- Only places that can be reached have rows. -/
theorem reaches (h : g.Displays shown todo rows after) (htodo : ∀ x ∈ todo, g.Reaches x.1)
    {r : Row ρ} (hr : r ∈ rows) : g.Reaches r.key := by
  induction h with
  | nil => simp at hr
  | again _ _ _ ih =>
    obtain ⟨hkey, hrest⟩ := List.forall_mem_cons.1 htodo
    rcases List.mem_cons.1 hr with rfl | hr
    · exact hkey
    · exact ih hrest hr
  | first hnode _ _ _ ihInner ih =>
    obtain ⟨hkey, hrest⟩ := List.forall_mem_cons.1 htodo
    rcases List.mem_cons.1 hr with rfl | hr
    · exact hkey
    · rcases List.mem_append.1 hr with hr | hr
      · refine ihInner (fun x hx => ?_) hr
        obtain ⟨q, hq, rfl⟩ := List.mem_map.1 hx
        exact .child hkey hnode (PathSet.mem_of_mem_toPaths hq)
      · exact ih hrest hr

/-- What is at hand has been shown in the end, and so has what an expanded place refers
to. -/
theorem mem_after (h : g.Displays shown todo rows after) {x : Path × Nat}
    (hx : x ∈ todo ++ (rows.filter (·.isExpanded)).flatMap Row.below) : x.1 ∈ after := by
  obtain ⟨r, hr, rfl⟩ := List.mem_map.1 (h.perm.symm.subset hx)
  exact h.mem_after_iff.2 (.inr ⟨r, hr, rfl⟩)

/-- All that can be reached has been shown in the end. -/
theorem mem_of_reaches (h : g.Displays ∅ (g.roots.toPaths.map (·, 1)) rows after)
    (hp : g.Reaches p) : p ∈ after := by
  induction hp with
  | root hroot =>
    obtain ⟨q, hq, hsame⟩ := PathSet.exists_mem_toPaths hroot
    have hmem : (q, 1) ∈ g.roots.toPaths.map (·, 1) := List.mem_map.2 ⟨q, hq, rfl⟩
    exact (PathMap.mem_congr _ hsame).1 (h.mem_after (List.mem_append_left _ hmem))
  | @child p q n _ hn hq ih =>
    -- the place has been expanded, so the one it refers to has a row
    have hcount := h.countP_expanded p
    rw [if_pos ih, if_neg (by simp), Nat.add_zero] at hcount
    obtain ⟨r, hr, hexpanded⟩ := List.countP_pos_iff.1 (hcount.symm ▸ Nat.one_pos)
    rw [Bool.and_eq_true, decide_eq_true_eq] at hexpanded
    have hnode : r.node = n := by
      have hsame := Path.SameAs.getElem? g.nodes hexpanded.2
      rw [h.getElem?_of_mem hr, hn] at hsame
      exact Option.some.inj hsame
    obtain ⟨q', hq', hsame⟩ := PathSet.exists_mem_toPaths hq
    have hbelow : (q', r.depth + 1) ∈ (rows.filter (·.isExpanded)).flatMap Row.below :=
      List.mem_flatMap.2 ⟨r, List.mem_filter.2 ⟨hr, hexpanded.1⟩,
        List.mem_map.2 ⟨q', hnode ▸ hq', rfl⟩⟩
    exact (PathMap.mem_congr _ hsame).1 (h.mem_after (List.mem_append_right _ hbelow))

end Displays

/-! ## Outlines -/

/-- The rows are the outline of a graph: they follow it in depth from its roots; each root
has a row, and so has each child of an expanded place, one step further in; the places of
the rows can be reached, and each place that can be reached is expanded once, where it
comes up first. -/
structure IsOutline (g : Graph ρ) (rows : List (Row ρ)) : Prop where
  displays : ∃ after, g.Displays ∅ (g.roots.toPaths.map (·, 1)) rows after
  perm : (rows.map fun r => (r.key, r.depth)).Perm
    (g.roots.toPaths.map (·, 1) ++ (rows.filter (·.isExpanded)).flatMap Row.below)
  reaches : ∀ r ∈ rows, g.Reaches r.key ∧ g.nodes[r.key]? = some r.node
  once : ∀ p, g.Reaches p → (rows.countP fun r => r.isExpanded && decide (r.key.SameAs p)) = 1
  first : ∀ front r behind, rows = front ++ r :: behind →
    (r.isExpanded = true ↔ ∀ s ∈ front, ¬s.key.SameAs r.key)

theorem Displays.isOutline (h : g.Displays ∅ (g.roots.toPaths.map (·, 1)) rows after) :
    g.IsOutline rows where
  displays := ⟨after, h⟩
  perm := h.perm
  reaches r hr := by
    refine ⟨h.reaches (fun x hx => ?_) hr, h.getElem?_of_mem hr⟩
    obtain ⟨q, hq, rfl⟩ := List.mem_map.1 hx
    exact .root (PathSet.mem_of_mem_toPaths hq)
  once p hp := by
    have hcount := h.countP_expanded p
    rwa [if_pos (h.mem_of_reaches hp), if_neg (by simp), Nat.add_zero] at hcount
  first front r behind hrows := by
    rw [h.isExpanded_iff hrows]
    simp

/-- The lines are those of the outline of a graph, and a line ends with the mark exactly if
its place was shown on an earlier line and refers to others. -/
def Prints (g : Graph ρ) (describe : Node ρ → String) (lines : List String) : Prop :=
  ∃ rows, g.IsOutline rows ∧ lines = rows.map (·.line describe) ∧
    ∀ front r behind, rows = front ++ r :: behind →
      ((∃ s, r.line describe = s ++ repeatMark) ↔
        (∃ s ∈ front, s.key.SameAs r.key) ∧ r.node.children.isEmpty = false)

/-- A line that is not marked ends as the description of its place does. -/
theorem line_ends_with_mark_iff {r : Row ρ}
    (hdescribe : (describe r.node).toList.getLast?.any (· ≠ '.') = true) :
    (∃ s, r.line describe = s ++ repeatMark) ↔ r.isMarked = true := by
  constructor
  · rintro ⟨s, hs⟩
    by_contra hmarked
    have hlast := congrArg (fun u : String => u.toList.getLast?) hs
    have hmark : (s ++ repeatMark).toList.getLast? = some '.' := by
      rw [String.toList_append, List.getLast?_append]
      rfl
    rw [Row.line, if_neg hmarked, String.append_empty, hmark, indented, String.toList_append,
      List.getLast?_append] at hlast
    cases hend : (describe r.node).toList.getLast? with
    | none => simp [hend] at hdescribe
    | some c =>
      rw [hend, Option.some_or] at hlast
      simp [hend, Option.some.inj hlast] at hdescribe
  · intro hmarked
    exact ⟨_, by rw [Row.line, if_pos hmarked]⟩

theorem prints_outline (hg : g.IsClosed)
    (hdescribe : ∀ n, (describe n).toList.getLast?.any (· ≠ '.') = true) :
    g.Prints describe (g.outline describe) := by
  have hin : ∀ x ∈ g.roots.toPaths.map (·, 1), x.1 ∈ g.nodes := by
    intro x hx
    obtain ⟨q, hq, rfl⟩ := List.mem_map.1 hx
    exact hg.roots q (PathSet.mem_of_mem_toPaths hq)
  obtain ⟨rows, after, hrows, hlines⟩ : ∃ rows after,
      g.Displays ∅ (g.roots.toPaths.map (·, 1)) rows after ∧
        g.outline describe = rows.map (·.line describe) :=
    exists_displays hg hin (by simp) (Nat.le_add_left _ _)
  refine ⟨rows, hrows.isOutline, hlines, fun front r behind hsplit => ?_⟩
  rw [line_ends_with_mark_iff (hdescribe r.node), Row.isMarked, Bool.and_eq_true, Bool.not_eq_true',
    Bool.not_eq_true', ← Bool.not_eq_true, hrows.isOutline.first front r behind hsplit]
  simp

end Graph

theorem DependencyGraph.getLast?_describe (root : Path) (n : Node Reference) :
    (describe root n).toList.getLast?.any (· ≠ '.') = true := by
  rw [describe, String.toList_append, List.getLast?_append]
  cases n.isMain with
  | true => rfl
  | false =>
    rw [String.toList_append, List.getLast?_append]
    rfl

theorem ComponentGraph.getLast?_describe (root : Path) (n : Node ComponentRef) :
    (describe root n).toList.getLast?.any (· ≠ '.') = true := by
  rw [describe, String.toList_append, List.getLast?_append]
  rfl

namespace Graph

/-- The outlines of dependencies and of components show all that their graphs hold, each
place once with what it refers to. -/
theorem outlines_complete (root : Path) :
    (∀ g : DependencyGraph, g.IsClosed →
      g.Prints (DependencyGraph.describe root) (DependencyGraph.outline g root)) ∧
    ∀ g : ComponentGraph, g.IsClosed →
      g.Prints (ComponentGraph.describe root) (ComponentGraph.outline g root) :=
  ⟨fun _ hg => prints_outline hg (DependencyGraph.getLast?_describe root),
    fun _ hg => prints_outline hg (ComponentGraph.getLast?_describe root)⟩

/-! ## A graph that leads back -/

/-- The main file of a package. -/
def loopMain : Reference := ⟨"lodash", ⟨"/p/node_modules/lodash/index.js"⟩, "lodash", true⟩

/-- A file that the main file imports, and that imports it in turn. -/
def loopBase : Reference := ⟨"./_base", ⟨"/p/node_modules/lodash/_base.js"⟩, "lodash", false⟩

/-- Two files of a package that import each other. -/
def loop : DependencyGraph where
  roots := (∅ : PathSet).insert loopMain.target ()
  nodes := ((∅ : PathMap (Node Reference)).insert loopMain.target
    ⟨loopMain, true, true, (∅ : PathSet).insert loopBase.target ()⟩).insert loopBase.target
    ⟨loopBase, false, false, (∅ : PathSet).insert loopMain.target ()⟩

theorem isClosed_loop : loop.IsClosed where
  roots p hp := by
    simp only [loop, PathMap.mem_insert, Std.TreeMap.not_mem_emptyc, or_false] at hp ⊢
    exact .inr hp
  children p n hn q hq := by
    simp only [loop, PathMap.getElem?_insert] at hn
    simp only [loop, PathMap.mem_insert, Std.TreeMap.not_mem_emptyc, or_false]
    split at hn
    · obtain rfl := Option.some.inj hn
      simp only [PathMap.mem_insert, Std.TreeMap.not_mem_emptyc, or_false] at hq
      exact .inr hq
    · split at hn
      · obtain rfl := Option.some.inj hn
        simp only [PathMap.mem_insert, Std.TreeMap.not_mem_emptyc, or_false] at hq
        exact .inl hq
      · simp at hn

theorem outlines_complete_loop : loop.IsClosed ∧
    loop.Prints (DependencyGraph.describe ⟨"/p"⟩)
      ["  lodash -> node_modules/lodash/index.js [lodash] (main)",
        "    ./_base -> node_modules/lodash/_base.js [lodash]",
        "      lodash -> node_modules/lodash/index.js [lodash] (main) ..."] := by
  have hlines : DependencyGraph.outline loop ⟨"/p"⟩ =
      ["  lodash -> node_modules/lodash/index.js [lodash] (main)",
        "    ./_base -> node_modules/lodash/_base.js [lodash]",
        "      lodash -> node_modules/lodash/index.js [lodash] (main) ..."] := by
    decide +kernel
  exact ⟨isClosed_loop, hlines ▸ (outlines_complete ⟨"/p"⟩).1 loop isClosed_loop⟩

end Graph

end Vendoring
