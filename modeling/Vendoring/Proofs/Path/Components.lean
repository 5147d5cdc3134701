/-
# What the components of a path are made of

Paths are compared by their components, so every law about where a path leads is
a law about components. This module says what the components of a joined path
are, which lists of components some path has, and that writing such a list down
and reading it again gives the list back.

Padding between slashes leaves no component, so most laws speak about the pieces
behind the first one through `stepsOf`, which drops the padding.
-/

import Vendoring.Path.Basic

namespace Vendoring

open Text

namespace Text

variable {sep : Char}

theorem splitOn_append_sep (s u : List Char) :
    splitOn sep (s ++ sep :: u) = splitOn sep s ++ splitOn sep u := by
  induction s with
  | nil => simp [splitOn]
  | cons c cs ih =>
    by_cases hc : c = sep
    · simp [splitOn, hc, ih]
    · obtain ⟨part, parts, hs⟩ := List.exists_cons_of_ne_nil (splitOn_ne_nil sep cs)
      simp [splitOn, hc, ih, hs]

/-- Text without a separator only makes the last part longer. -/
theorem splitOn_append_of_not_mem {s u : List Char} (hu : sep ∉ u) :
    ∃ parts last, splitOn sep s = parts ++ [last] ∧
      splitOn sep (s ++ u) = parts ++ [last ++ u] := by
  induction s with
  | nil => exact ⟨[], [], rfl, by simpa using splitOn_of_not_mem hu⟩
  | cons c cs ih =>
    obtain ⟨parts, last, hs, hsu⟩ := ih
    by_cases hc : c = sep
    · exact ⟨[] :: parts, last, by simp [splitOn, hc, hs], by simp [splitOn, hc, hsu]⟩
    · cases parts with
      | nil => exact ⟨[], c :: last, by simp_all [splitOn], by simp_all [splitOn]⟩
      | cons part parts =>
        exact ⟨(c :: part) :: parts, last, by simp_all [splitOn], by simp_all [splitOn]⟩

end Text

namespace Component

/-- A component that one piece of text between slashes spells wherever it stands:
`..` or a name. -/
structure IsStep (c : Component) : Prop where
  /-- The piece holds no slash. -/
  no_slash : '/' ∉ c.text.toList
  /-- The piece is no padding. -/
  not_padding : Path.isPadding c.text.toList = false
  /-- The piece is read as the component. -/
  read_back : ofSegment c.text.toList = c

@[simp] theorem text_ofSegment (segment : List Char) :
    (ofSegment segment).text.toList = segment := by
  unfold ofSegment
  split
  · next h => simp [h, text]
  · split
    · next h => simp [h, text]
    · simp [text]

/-- A piece that is no padding spells a step. -/
theorem isStep_ofSegment {segment : List Char} (hslash : '/' ∉ segment)
    (hpad : Path.isPadding segment = false) : (ofSegment segment).IsStep where
  no_slash := by simpa using hslash
  not_padding := by simpa using hpad
  read_back := by simp

theorem IsStep.ne_root {c : Component} (h : c.IsStep) : c ≠ root := by
  rintro rfl
  exact absurd h.not_padding (by decide)

theorem IsStep.ne_here {c : Component} (h : c.IsStep) : c ≠ here := by
  rintro rfl
  exact absurd h.not_padding (by decide)

end Component

namespace Path

/-- The components that pieces of text stand for behind the first piece. -/
def stepsOf (segments : List (List Char)) : List Component :=
  (segments.filter fun s => !isPadding s).map Component.ofSegment

@[simp] theorem stepsOf_nil : stepsOf [] = [] := rfl

theorem stepsOf_cons (s : List Char) (rest : List (List Char)) :
    stepsOf (s :: rest) =
      if isPadding s then stepsOf rest else Component.ofSegment s :: stepsOf rest := by
  by_cases hs : isPadding s <;> simp [stepsOf, hs]

@[simp] theorem stepsOf_append (a b : List (List Char)) :
    stepsOf (a ++ b) = stepsOf a ++ stepsOf b := by
  simp [stepsOf]

theorem isStep_of_mem_stepsOf {segments : List (List Char)}
    (hslash : ∀ s ∈ segments, '/' ∉ s) {c : Component} (hc : c ∈ stepsOf segments) :
    c.IsStep := by
  obtain ⟨s, hs, rfl⟩ := List.mem_map.1 hc
  obtain ⟨hs, hpad⟩ := List.mem_filter.1 hs
  exact Component.isStep_ofSegment (hslash s hs) (by simpa using hpad)

variable {p q : Path}

theorem segments_ne_nil (p : Path) : p.segments ≠ [] := splitOn_ne_nil _ _

theorem exists_segments (p : Path) : ∃ first rest, p.segments = first :: rest :=
  List.exists_cons_of_ne_nil p.segments_ne_nil

theorem not_slash_of_mem_segments {s : List Char} (hs : s ∈ p.segments) : '/' ∉ s :=
  not_mem_of_mem_splitOn hs

theorem components_eq {first : List Char} {rest : List (List Char)}
    (h : p.segments = first :: rest) : p.components = p.leading first ++ stepsOf rest := by
  simp [components, h, stepsOf]

/-- The first piece is empty in front of a root and in the empty path. -/
theorem isAbsolute_iff {first : List Char} {rest : List (List Char)}
    (h : p.segments = first :: rest) : p.isAbsolute = true ↔ first = [] ∧ rest ≠ [] := by
  have htext : p.text.toList = joinWith '/' (first :: rest) := by
    rw [← h, segments, joinWith_splitOn]
  have hslash : '/' ∉ first := not_slash_of_mem_segments (p := p) (by simp [h])
  unfold isAbsolute
  rw [htext]
  cases rest with
  | nil =>
    cases first with
    | nil => simp [joinWith]
    | cons c cs =>
      have hc : c ≠ '/' := by
        rintro rfl
        exact hslash (by simp)
      simp [joinWith, hc]
  | cons next rest =>
    cases first with
    | nil => simp [joinWith]
    | cons c cs =>
      have hc : c ≠ '/' := by
        rintro rfl
        exact hslash (by simp)
      simp [joinWith, hc]

/-- The component that the first piece of a path stands for if it stands for one. -/
def leadOf (first : List Char) : Component :=
  if first = [] then .root else Component.ofSegment first

theorem leading_of_ne_nil {first : List Char} {rest : List (List Char)}
    (h : p.segments = first :: rest) (hne : first ≠ [] ∨ rest ≠ []) :
    p.leading first = [leadOf first] := by
  unfold leading leadOf
  by_cases hf : first = []
  · have : p.isAbsolute = true := (isAbsolute_iff h).2 ⟨hf, hne.resolve_left (by simpa using hf)⟩
    simp [this, hf]
  · have : p.isAbsolute = false := by
      rw [Bool.eq_false_iff]
      exact fun habs => hf ((isAbsolute_iff h).1 habs).1
    simp [this, hf]

theorem text_ne_empty_iff {first : List Char} {rest : List (List Char)}
    (h : p.segments = first :: rest) : p.text ≠ "" ↔ first ≠ [] ∨ rest ≠ [] := by
  have htext : p.text.toList = joinWith '/' (first :: rest) := by
    rw [← h, segments, joinWith_splitOn]
  rw [Ne, ← String.toList_eq_nil_iff, htext]
  cases rest with
  | nil => simp [joinWith]
  | cons next rest => simp [joinWith]

/-- A path with some text begins with a component, and steps follow. -/
theorem components_of_text_ne {first : List Char} {rest : List (List Char)}
    (h : p.segments = first :: rest) (hne : p.text ≠ "") :
    p.components = leadOf first :: stepsOf rest := by
  rw [components_eq h, leading_of_ne_nil h ((text_ne_empty_iff h).1 hne)]
  rfl

theorem components_empty : (⟨""⟩ : Path).components = [] := by decide

theorem components_eq_nil (h : p.text = "") : p.components = [] := by
  obtain ⟨text⟩ := p
  subst h
  exact components_empty

theorem components_ne_nil_iff : p.components ≠ [] ↔ p.text ≠ "" := by
  obtain ⟨first, rest, h⟩ := p.exists_segments
  constructor
  · rintro hne htext
    obtain ⟨text⟩ := p
    subst htext
    exact hne components_empty
  · intro htext
    simp [components_of_text_ne h htext]

theorem isAbsolute_iff_head : p.isAbsolute = true ↔ p.components.head? = some .root := by
  obtain ⟨first, rest, h⟩ := p.exists_segments
  by_cases htext : p.text = ""
  · obtain ⟨text⟩ := p
    subst htext
    simp [components_empty, isAbsolute]
  · rw [components_of_text_ne h htext, isAbsolute_iff h, List.head?_cons, Option.some.injEq]
    have hne := (text_ne_empty_iff h).1 htext
    unfold leadOf
    split
    · next hf => simpa [hf] using hne
    · next hf =>
      have : Component.ofSegment first ≠ .root := by
        intro hroot
        have htext := Component.text_ofSegment first
        rw [hroot] at htext
        exact hf htext.symm
      simp [hf, this]

theorem components_ne_nil (h : p.isAbsolute = true) : p.components ≠ [] := by
  rintro hnil
  rw [isAbsolute_iff_head, hnil] at h
  cases h

/-! ## Joining -/

/-- Joining appends the pieces of the second path behind those of the first, up
to padding. -/
theorem segments_join (hq : q.isAbsolute = false) (hp : p.text ≠ "") :
    ∃ first rest kept, p.segments = first :: rest ∧
      (p.join q).segments = first :: (kept ++ q.segments) ∧ stepsOf kept = stepsOf rest := by
  obtain ⟨first, rest, h⟩ := p.exists_segments
  have hjoin : p.join q =
      if p.text.toList.getLast? = some '/' then ⟨p.text ++ q.text⟩
      else ⟨p.text ++ "/" ++ q.text⟩ := by
    simp [join, hq, hp]
  by_cases hlast : p.text.toList.getLast? = some '/'
  · obtain ⟨before, hbefore⟩ := List.getLast?_eq_some_iff.1 hlast
    have hsegs : p.segments = splitOn '/' before ++ [[]] := by
      rw [segments, hbefore, splitOn_append_sep]
      rfl
    have hjoined : (p.join q).segments = splitOn '/' before ++ q.segments := by
      rw [hjoin, if_pos hlast, segments, String.toList_append, hbefore, List.append_assoc,
        List.singleton_append, splitOn_append_sep]
      rfl
    match hs : splitOn '/' before with
    | [] => exact absurd hs (splitOn_ne_nil _ _)
    | part :: parts =>
      refine ⟨part, parts ++ [[]], parts, by simp [hsegs, hs], by simp [hjoined, hs], ?_⟩
      simp [stepsOf_cons, isPadding]
  · refine ⟨first, rest, rest, h, ?_, rfl⟩
    rw [hjoin, if_neg hlast, segments, String.toList_append, String.toList_append,
      show "/".toList = ['/'] from rfl, List.append_assoc, List.singleton_append,
      splitOn_append_sep, ← segments, h]
    rfl

/-- The components of a joined path are those of the first path and then the
steps of the second. -/
theorem components_join (hq : q.isAbsolute = false) (hp : p.text ≠ "") :
    (p.join q).components = p.components ++ stepsOf q.segments := by
  obtain ⟨first, rest, kept, h, hjoined, hkept⟩ := segments_join hq hp
  have hne : (p.join q).text ≠ "" :=
    (text_ne_empty_iff hjoined).2 (.inr (by simp [q.segments_ne_nil]))
  rw [components_of_text_ne hjoined hne, components_of_text_ne h hp, stepsOf_append, hkept]
  rfl

theorem text_join_ne (hp : p.text ≠ "") (hq : q.isAbsolute = false) : (p.join q).text ≠ "" := by
  rw [← components_ne_nil_iff, components_join hq hp]
  simp [components_ne_nil_iff.2 hp]

theorem join_absolute (hq : q.isAbsolute = true) : p.join q = q := by
  simp [join, hq]

theorem join_of_empty (hp : p.text = "") : p.join q = q := by
  simp [join, hp]

/-- Joining looks at nothing but the components of the first path. -/
theorem SameAs.join_left {p' : Path} (h : p.SameAs p') (hp : p.text ≠ "") :
    (p.join q).SameAs (p'.join q) := by
  have hp' : p'.text ≠ "" := by
    rw [← components_ne_nil_iff] at hp ⊢
    exact fun h' => hp (h.trans h')
  cases hq : q.isAbsolute with
  | true => simp [SameAs, join, hq]
  | false => exact (components_join hq hp).trans ((congrArg (· ++ _) h).trans
      (components_join hq hp').symm)

/-- A text that can name an entry of a directory is a path of one step. -/
theorem segments_of_name {name : String} (h : '/' ∉ name.toList) :
    (⟨name⟩ : Path).segments = [name.toList] := splitOn_of_not_mem h

theorem isAbsolute_of_name {name : String} (h : '/' ∉ name.toList) :
    (⟨name⟩ : Path).isAbsolute = false := by
  rw [Bool.eq_false_iff]
  intro habs
  have := (isAbsolute_iff (segments_of_name h)).1 habs
  simp at this

theorem components_div {name : String} (hname : '/' ∉ name.toList) (hp : p.text ≠ "") :
    (p / name).components = p.components ++ stepsOf [name.toList] := by
  have hjoin := components_join (isAbsolute_of_name hname) hp
  rw [segments_of_name hname] at hjoin
  exact hjoin

theorem stepsOf_name {name : String} (hpad : isPadding name.toList = false)
    (hup : name ≠ "..") : stepsOf [name.toList] = [.name name] := by
  have hname : name.toList ≠ ['.', '.'] := by
    intro h
    exact hup (String.toList_injective (h.trans (by decide)))
  have hdot : name.toList ≠ ['.'] := by
    rintro h
    simp [isPadding, h] at hpad
  simp [stepsOf_cons, hpad, Component.ofSegment, hname, hdot]

theorem isStep_name {name : String} (hslash : '/' ∉ name.toList)
    (hpad : isPadding name.toList = false) (hup : name ≠ "..") : (Component.name name).IsStep := by
  have hstep := stepsOf_name hpad hup
  exact isStep_of_mem_stepsOf (show ∀ s ∈ [name.toList], '/' ∉ s by simpa using hslash)
    (by simp [hstep])

end Path

end Vendoring
