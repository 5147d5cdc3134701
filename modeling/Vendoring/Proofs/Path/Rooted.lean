/-
# Paths from the root

A path from the root is absolute and goes down by names only. Normalizing an
absolute path gives one, and every way in which paths are made longer or shorter
here keeps to them, so long as no step up is written. Such a path is the same as
its normal form, and where it leads to an entry, its names are the location.
-/

import Vendoring.Proofs.Path.Below
import Vendoring.Proofs.Path.Keys

namespace Vendoring

open Text

namespace Path

/-- The path goes down from the root by names. -/
def IsRooted (p : Path) : Prop := ∃ names : List String, p.components = .root :: names.map .name

variable {p q : Path}

theorem IsRooted.isAbsolute (h : p.IsRooted) : p.isAbsolute = true := by
  obtain ⟨names, hcs⟩ := h
  rw [isAbsolute_iff_head, hcs]
  rfl

theorem IsRooted.text_ne (h : p.IsRooted) : p.text ≠ "" := by
  obtain ⟨names, hcs⟩ := h
  rw [← components_ne_nil_iff, hcs]
  simp

theorem SameAs.isRooted (h : p.SameAs q) (hp : p.IsRooted) : q.IsRooted := by
  obtain ⟨names, hcs⟩ := hp
  exact ⟨names, (Eq.symm h).trans hcs⟩

theorem isSettled_rooted (names : List String) : IsSettled (.root :: names.map .name) :=
  IsSettled.append_names (show IsSettled [.root] by decide) (by simp)

theorem IsRooted.isSettled (h : p.IsRooted) : IsSettled p.components := by
  obtain ⟨names, hcs⟩ := h
  rw [hcs]
  exact isSettled_rooted names

theorem IsRooted.normalize_sameAs (h : p.IsRooted) : p.normalize.SameAs p := by
  have hne : collapse p.components ≠ [] := by
    rw [h.isSettled]
    exact components_ne_nil_iff.2 h.text_ne
  exact (components_normalize hne).trans h.isSettled

theorem IsRooted.normalize_eq (h : p.IsRooted) (hp : p.IsPlain) : p.normalize = p :=
  hp.normalize_eq h.isSettled h.text_ne

/-- From the root, steps up lead nowhere but to names and the root again. -/
theorem foldl_advance_rooted {steps : List Component} (hsteps : ∀ c ∈ steps, c.IsStep)
    (names : List String) : ∃ names' : List String,
      steps.foldl advance ((names.map .name).reverse ++ [.root]) =
        (names'.map Component.name).reverse ++ [.root] := by
  induction steps generalizing names with
  | nil => exact ⟨names, rfl⟩
  | cons c steps ih =>
    have hrest : ∀ d ∈ steps, d.IsStep := fun d hd => hsteps d (List.mem_cons_of_mem c hd)
    have hc := hsteps c (by simp)
    cases c with
    | root => exact absurd rfl hc.ne_root
    | here => exact absurd rfl hc.ne_here
    | name s => simpa [advance] using ih hrest (names ++ [s])
    | up =>
      induction names using List.reverseRecOn with
      | nil => exact ih hrest []
      | append_singleton names s _ => simpa [advance] using ih hrest names

theorem isRooted_normalize (h : p.isAbsolute = true) : p.normalize.IsRooted := by
  have hspelled := p.isSpelled_components
  rw [isAbsolute_iff_head] at h
  match hcs : p.components with
  | [] => simp [hcs] at h
  | c :: steps =>
    obtain rfl : c = .root := by simpa [hcs] using h
    rw [hcs] at hspelled
    obtain ⟨names, hnames⟩ := foldl_advance_rooted hspelled.2 []
    have hcollapse : collapse p.components = .root :: names.map .name := by
      rw [hcs, collapse, List.foldl_cons, show advance [] .root =
        (([] : List String).map Component.name).reverse ++ [.root] from rfl, hnames]
      simp
    refine ⟨names, ?_⟩
    rw [components_normalize (by simp [hcollapse]), hcollapse]

/-- Pieces without a step up are names once the padding is gone. -/
theorem exists_names_of_stepsOf {segments : List (List Char)} (h : ['.', '.'] ∉ segments) :
    ∃ names : List String, stepsOf segments = names.map .name := by
  induction segments with
  | nil => exact ⟨[], rfl⟩
  | cons s rest ih =>
    obtain ⟨hs, hrest⟩ : ['.', '.'] ≠ s ∧ ['.', '.'] ∉ rest := by simpa using h
    obtain ⟨names, hnames⟩ := ih hrest
    rw [stepsOf_cons]
    by_cases hpad : isPadding s
    · exact ⟨names, by simp [hpad, hnames]⟩
    · refine ⟨String.ofList s :: names, ?_⟩
      have hdot : s ≠ ['.'] := by
        rintro rfl
        exact hpad rfl
      simp [hpad, hnames, Component.ofSegment, hs.symm, hdot]

theorem isRooted_of_segments (habs : q.isAbsolute = true) (h : ['.', '.'] ∉ q.segments) :
    q.IsRooted := by
  obtain ⟨first, rest, hsegs⟩ := q.exists_segments
  have hfirst := ((isAbsolute_iff hsegs).1 habs).1
  obtain ⟨names, hnames⟩ := exists_names_of_stepsOf (fun hmem => h (by simp [hsegs, hmem]) :
    ['.', '.'] ∉ rest)
  refine ⟨names, ?_⟩
  rw [components_eq hsegs, hnames, leading, if_pos habs]
  rfl

theorem IsRooted.not_mem_segments (hp : p.IsRooted) : ['.', '.'] ∉ p.segments := by
  obtain ⟨names, hcs⟩ := id hp
  obtain ⟨first, rest, hsegs⟩ := p.exists_segments
  have hfirst := ((isAbsolute_iff hsegs).1 hp.isAbsolute).1
  rw [components_eq hsegs, leading, if_pos hp.isAbsolute, List.singleton_append,
    List.cons.injEq] at hcs
  rw [hsegs, hfirst, List.mem_cons, not_or]
  refine ⟨by simp, fun hmem => ?_⟩
  have hup : Component.up ∈ stepsOf rest := by
    refine List.mem_map.2 ⟨['.', '.'], List.mem_filter.2 ⟨hmem, by decide⟩, by decide⟩
  simp [hcs.2] at hup

theorem IsRooted.join (hp : p.IsRooted) (hq : ['.', '.'] ∉ q.segments) : (p.join q).IsRooted := by
  cases habs : q.isAbsolute with
  | true =>
    rw [join_absolute habs]
    exact isRooted_of_segments habs hq
  | false =>
    obtain ⟨names, hcs⟩ := hp
    obtain ⟨names', hnames'⟩ := exists_names_of_stepsOf hq
    refine ⟨names ++ names', ?_⟩
    have htext : p.text ≠ "" := by
      rw [← components_ne_nil_iff, hcs]
      simp
    rw [components_join habs htext, hcs, hnames']
    simp

theorem IsRooted.join_name (hp : p.IsRooted) {s : String} (h : IsName s) :
    (p / s).IsRooted := by
  obtain ⟨names, hcs⟩ := hp
  refine ⟨names ++ [s], ?_⟩
  rw [h.components_div, hcs]
  simp

/-- The directories around a path from the root are on the way to it. -/
theorem IsRooted.of_startsWith (hp : p.IsRooted) (h : q.components <+: p.components)
    (hne : q.text ≠ "") : q.IsRooted := by
  obtain ⟨names, hcs⟩ := hp
  rw [hcs] at h
  match hq : q.components with
  | [] => exact absurd hq (components_ne_nil_iff.2 hne)
  | c :: steps =>
    rw [hq, List.cons_prefix_cons] at h
    obtain ⟨rfl, hsteps⟩ := h
    refine ⟨names.take steps.length, ?_⟩
    rw [hq, List.map_take, ← List.prefix_iff_eq_take.1 hsteps]

theorem IsRooted.parent? (hp : p.IsRooted) (h : p.parent? = some q) : q.IsRooted := by
  obtain ⟨hq, -⟩ := components_of_parent? h
  have hmem : q ∈ p.ancestors := List.mem_cons_of_mem p (List.mem_of_mem_head? h)
  have habs := isAbsolute_of_mem_ancestors hp.isAbsolute hmem
  refine hp.of_startsWith (prefix_of_mem_ancestors hmem) ?_
  rw [← components_ne_nil_iff]
  rw [isAbsolute_iff_head] at habs
  rintro hnil
  simp [hnil] at habs

theorem isAbsolute_append (hp : p.isAbsolute = true) (s : String) :
    (⟨p.text ++ s⟩ : Path).isAbsolute = true := by
  rw [Path.isAbsolute, decide_eq_true_eq] at hp ⊢
  rw [String.toList_append, List.head?_append, hp]
  rfl

/-- A longer last name is a name again, and behind the root it is the first one. -/
theorem IsRooted.append (hp : p.IsRooted) {u : List Char} (hslash : '/' ∉ u)
    (hdots : ∀ s : List Char, s ++ u ≠ ['.', '.']) :
    (⟨p.text ++ String.ofList u⟩ : Path).IsRooted := by
  obtain ⟨parts, last, hs, hsu⟩ := splitOn_append_of_not_mem (s := p.text.toList) hslash
  have hjoined : (⟨p.text ++ String.ofList u⟩ : Path).segments = parts ++ [last ++ u] := by
    simpa [segments] using hsu
  refine isRooted_of_segments (isAbsolute_append hp.isAbsolute _) ?_
  rw [hjoined]
  intro hmem
  rcases List.mem_append.1 hmem with hmem | hmem
  · refine hp.not_mem_segments ?_
    rw [segments, hs]
    exact List.mem_append_left _ hmem
  · exact hdots last (List.mem_singleton.1 hmem).symm

/-- An ending makes the last name of a path longer, and leaves its directory alone. -/
theorem IsRooted.components_append (hp : p.IsRooted) (hplain : p.IsPlain)
    (hparent : p.parent? = some q) {u : List Char} (hslash : '/' ∉ u) (hlen : 3 ≤ u.length) :
    ∃ name : List Char, name ≠ [] ∧
      (⟨p.text ++ String.ofList u⟩ : Path).components =
        q.components ++ [.name (String.ofList (name ++ u))] := by
  obtain ⟨parts, last, hs, hsu⟩ := splitOn_append_of_not_mem (s := p.text.toList) hslash
  have habs := hp.isAbsolute
  have hjoined : (⟨p.text ++ String.ofList u⟩ : Path).segments = parts ++ [last ++ u] := by
    simpa [segments] using hsu
  have hjoinedAbs := isAbsolute_append habs (String.ofList u)
  have hroot : p ≠ ⟨"/"⟩ := by
    rintro rfl
    rw [show (⟨"/"⟩ : Path).parent? = none by decide] at hparent
    simp at hparent
  cases parts with
  | nil => exact absurd rfl ((isAbsolute_iff hs).1 habs).2
  | cons first parts =>
    have hlast : isPadding last = false := hplain.not_padding hroot hs last (by simp)
    have hlong : isPadding (last ++ u) = false ∧
        Component.ofSegment (last ++ u) = .name (String.ofList (last ++ u)) := by
      have hlen' : 3 ≤ (last ++ u).length := by simp; omega
      generalize last ++ u = cs at hlen'
      rcases cs with _ | ⟨a, _ | ⟨b, _ | ⟨c, cs⟩⟩⟩
      · simp at hlen'
      · simp at hlen'
      · simp at hlen'
      · simp [isPadding, Component.ofSegment]
    refine ⟨last, by rintro rfl; simp [isPadding] at hlast, ?_⟩
    have hdir : q.components = .root :: stepsOf parts := by
      have hcs : p.components = (.root :: stepsOf parts) ++ [Component.ofSegment last] := by
        simp [components_eq hs, leading, habs, stepsOf_cons, hlast]
      rw [(components_of_parent? hparent).1, hcs, List.dropLast_concat]
    simp [hdir, components_eq hjoined, leading, hjoinedAbs, stepsOf_cons, hlong]

/-! ## Absolute paths -/

theorem isAbsolute_join (hp : p.isAbsolute = true) (q : Path) : (p.join q).isAbsolute = true := by
  cases hq : q.isAbsolute with
  | true => rwa [join_absolute hq]
  | false =>
    have hne : p.text ≠ "" := by
      rintro htext
      simp [isAbsolute, htext] at hp
    rw [isAbsolute_iff_head] at hp ⊢
    rw [components_join hq hne, List.head?_append, hp]
    rfl

theorem isAbsolute_parent?_getD (hp : p.isAbsolute = true) :
    (p.parent?.getD ⟨"/"⟩).isAbsolute = true := by
  cases hparent : p.parent? with
  | none => decide
  | some d =>
    exact isAbsolute_of_mem_ancestors hp (List.mem_cons_of_mem p (List.mem_of_mem_head? hparent))

theorem isAbsolute_withLastSegment (hp : p.isAbsolute = true) (segment : List Char) :
    (p.withLastSegment segment).isAbsolute = true := by
  unfold withLastSegment
  obtain ⟨first, rest, hsegs⟩ := p.exists_segments
  have hfirst := ((isAbsolute_iff hsegs).1 hp).1
  cases hkept : trimPadding p.segments with
  | nil => exact hp
  | cons head kept =>
    -- what is kept begins with the empty piece and does not end with padding
    have hprefix := trimPadding_isPrefix p.segments
    rw [hkept, hsegs, List.cons_prefix_cons, hfirst] at hprefix
    obtain ⟨rfl, -⟩ := hprefix
    cases kept with
    | nil =>
      have hhead := List.head?_dropWhile_not isPadding p.segments.reverse
      rw [← List.getLast?_reverse, ← trimPadding, hkept] at hhead
      simp [isPadding] at hhead
    | cons next kept =>
      rw [isAbsolute, decide_eq_true_eq, String.toList_ofList,
        List.dropLast_cons_of_ne_nil (by simp), List.cons_append]
      cases happ : (next :: kept).dropLast ++ [segment] with
      | nil => simp at happ
      | cons a b => rfl

theorem isAbsolute_withoutExtension (hp : p.isAbsolute = true) :
    p.withoutExtension.isAbsolute = true := by
  unfold withoutExtension
  split
  · exact hp
  · exact isAbsolute_withLastSegment hp _

/-! ## Package trees on the way -/

/-- A package tree is on the way to the path. -/
def HasTree (p : Path) : Prop := Component.name packageTreeName ∈ p.components

instance (p : Path) : Decidable p.HasTree :=
  inferInstanceAs (Decidable (_ ∈ _))

theorem SameAs.hasTree (h : p.SameAs q) (hp : p.HasTree) : q.HasTree := by
  unfold HasTree
  rw [← h]
  exact hp

theorem HasTree.of_startsWith (hq : q.HasTree) (h : q.components <+: p.components) : p.HasTree :=
  h.subset hq

theorem HasTree.join (hp : p.HasTree) (hq : q.isAbsolute = false) : (p.join q).HasTree := by
  have hne : p.text ≠ "" := by
    rw [← components_ne_nil_iff]
    exact List.ne_nil_of_mem hp
  unfold HasTree
  rw [components_join hq hne]
  exact List.mem_append_left _ hp

theorem splitAtTree_eq_none_iff {cs : List Component} :
    splitAtTree cs = none ↔ Component.name packageTreeName ∉ cs := by
  induction cs with
  | nil => simp [splitAtTree]
  | cons c cs ih =>
    rw [splitAtTree]
    cases hcs : splitAtTree cs with
    | some split =>
      rw [hcs] at ih
      have hmem : Component.name packageTreeName ∈ cs := by simpa using ih
      simp [hmem]
    | none =>
      have hnot := ih.1 hcs
      by_cases hc : c = .name packageTreeName
      · simp [hc]
      · simp [hc, hnot, Ne.symm hc]

/-- A path is split behind the innermost tree on the way. -/
theorem splitAtTree_eq_some {cs tree within : List Component}
    (h : splitAtTree cs = some (tree, within)) :
    cs = tree ++ within ∧ tree.getLast? = some (.name packageTreeName) ∧
      Component.name packageTreeName ∉ within := by
  induction cs generalizing tree with
  | nil => simp [splitAtTree] at h
  | cons c cs ih =>
    rw [splitAtTree] at h
    cases hcs : splitAtTree cs with
    | some split =>
      obtain ⟨tree', within'⟩ := split
      simp only [hcs, Option.some.injEq, Prod.mk.injEq] at h
      obtain ⟨rfl, rfl⟩ := h
      obtain ⟨rfl, hlast, hwithin⟩ := ih hcs
      refine ⟨rfl, ?_, hwithin⟩
      rw [List.getLast?_cons, hlast]
      rfl
    | none =>
      simp only [hcs] at h
      split at h
      · next hc =>
        simp only [Option.some.injEq, Prod.mk.injEq] at h
        obtain ⟨rfl, rfl⟩ := h
        exact ⟨rfl, by simp [hc], splitAtTree_eq_none_iff.1 hcs⟩
      · simp at h

/-- What is behind a package tree consists of steps. -/
theorem isStep_of_splitAtTree {p : Path} {tree within : List Component}
    (h : splitAtTree p.components = some (tree, within)) : ∀ c ∈ within, c.IsStep := by
  obtain ⟨hcs, hlast, -⟩ := splitAtTree_eq_some h
  refine fun c hc => IsSpelled.isStep_of_mem (hcs ▸ p.isSpelled_components) ?_ hc
  rintro rfl
  simp at hlast

end Path

end Vendoring
