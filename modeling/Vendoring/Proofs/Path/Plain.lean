/-
# Plain and settled paths

A path is plain if it is the plainest spelling of its components. Plain paths
with equal components are equal, so a plain path is a key by its text as well as
by its meaning. A list of components is settled if nothing in it is left to be
resolved: the root or a run of `..`, and then names. Normalizing gives a plain
path with settled components, unless nothing is left but the directory itself,
and does not change such a path again.
-/

import Mathlib.Data.List.Induction
import Mathlib.Tactic.Set
import Vendoring.Path.Normal
import Vendoring.Proofs.Path.Components

namespace Vendoring

open Text

namespace Component

/-- A component that a path can begin with. -/
def IsLead (c : Component) : Prop := c = root ∨ c = here ∨ c.IsStep

theorem isLead_leadOf {first : List Char} (h : '/' ∉ first) : (Path.leadOf first).IsLead := by
  unfold Path.leadOf
  by_cases hf : first = []
  · simp [hf, IsLead]
  · by_cases hdot : first = ['.']
    · right; left
      simp [hdot, ofSegment]
    · right; right
      rw [if_neg hf]
      exact isStep_ofSegment h (by simp [Path.isPadding, hf, hdot])

theorem IsLead.leadOf_text {c : Component} (h : c.IsLead) : Path.leadOf c.text.toList = c := by
  rcases h with rfl | rfl | h
  · decide
  · decide
  · have hne : c.text.toList ≠ [] := by
      intro hnil
      have := h.not_padding
      simp [hnil, Path.isPadding] at this
    rw [Path.leadOf, if_neg hne, h.read_back]

theorem IsLead.no_slash {c : Component} (h : c.IsLead) : '/' ∉ c.text.toList := by
  rcases h with rfl | rfl | h
  · decide
  · decide
  · exact h.no_slash

end Component

namespace Path

variable {p q : Path}

/-- The list is the components of some path. -/
def IsSpelled : List Component → Prop
  | [] => True
  | c :: cs => c.IsLead ∧ ∀ d ∈ cs, d.IsStep

theorem isSpelled_of_isStep {cs : List Component} (h : ∀ c ∈ cs, c.IsStep) : IsSpelled cs := by
  cases cs with
  | nil => trivial
  | cons c cs => exact ⟨.inr (.inr (h c (by simp))), fun d hd => h d (by simp [hd])⟩

theorem isSpelled_components (p : Path) : IsSpelled p.components := by
  by_cases htext : p.text = ""
  · obtain ⟨text⟩ := p
    subst htext
    rw [components_empty]
    trivial
  · obtain ⟨first, rest, h⟩ := p.exists_segments
    rw [components_of_text_ne h htext]
    refine ⟨Component.isLead_leadOf (not_slash_of_mem_segments (p := p) (by simp [h])), ?_⟩
    intro d hd
    refine isStep_of_mem_stepsOf (fun s hs => not_slash_of_mem_segments (p := p) ?_) hd
    simp [h, hs]

theorem IsSpelled.no_slash_of_mem {cs : List Component} (h : IsSpelled cs) {c : Component}
    (hc : c ∈ cs) : '/' ∉ c.text.toList := by
  cases cs with
  | nil => simp at hc
  | cons d cs =>
    rcases List.mem_cons.1 hc with rfl | hc
    · exact h.1.no_slash
    · exact (h.2 c hc).no_slash

theorem stepsOf_texts {cs : List Component} (h : ∀ c ∈ cs, c.IsStep) :
    stepsOf (cs.map fun c => c.text.toList) = cs := by
  induction cs with
  | nil => rfl
  | cons c cs ih =>
    have hc := h c (by simp)
    rw [List.map_cons, stepsOf_cons, hc.not_padding, hc.read_back,
      ih fun d hd => h d (List.mem_cons_of_mem c hd)]
    rfl

/-- The plainest spelling of anything but the root alone consists of the texts of
the components. -/
theorem segments_ofComponents {c : Component} {cs : List Component}
    (h : IsSpelled (c :: cs)) (hroot : ofComponents (c :: cs) ≠ ⟨"/"⟩) :
    (ofComponents (c :: cs)).segments = c.text.toList :: cs.map fun d => d.text.toList := by
  obtain ⟨hc, hcs⟩ := h
  have hlong : ¬((c.text.toList = [] && (cs.map fun d => d.text.toList).isEmpty) = true) := by
    intro hshort
    exact hroot (by rw [ofComponents, ofSegments, if_pos hshort])
  rw [ofComponents, ofSegments, if_neg hlong, segments, String.toList_ofList]
  refine splitOn_joinWith (by simp) fun s hs => ?_
  rcases List.mem_cons.1 hs with rfl | hs
  · exact hc.no_slash
  · obtain ⟨d, hd, rfl⟩ := List.mem_map.1 hs
    exact (hcs d hd).no_slash

theorem ofComponents_eq_root {c : Component} {cs : List Component}
    (h : IsSpelled (c :: cs)) (hroot : ofComponents (c :: cs) = ⟨"/"⟩) : c = .root ∧ cs = [] := by
  obtain ⟨hc, hcs⟩ := h
  by_cases hshort : (c.text.toList = [] && (cs.map fun d => d.text.toList).isEmpty) = true
  · obtain ⟨htext, hnil⟩ : c.text.toList = [] ∧ cs = [] := by simpa using hshort
    refine ⟨?_, hnil⟩
    rw [← hc.leadOf_text, htext]
    rfl
  · rw [ofComponents, ofSegments, if_neg hshort] at hroot
    have hslash : ∀ s ∈ c.text.toList :: cs.map fun d => d.text.toList, '/' ∉ s := by
      intro s hs
      rcases List.mem_cons.1 hs with rfl | hs
      · exact hc.no_slash
      · obtain ⟨d, hd, rfl⟩ := List.mem_map.1 hs
        exact (hcs d hd).no_slash
    have hsegs := splitOn_joinWith (by simp) hslash
    have hjoin : joinWith '/' (c.text.toList :: cs.map fun d => d.text.toList) = ['/'] := by
      have := congrArg (fun p : Path => p.text.toList) hroot
      simpa using this
    -- a slash alone splits into two empty pieces, and no step is empty
    rw [hjoin, show splitOn '/' ['/'] = [[], []] from rfl] at hsegs
    cases cs with
    | nil => simp at hsegs
    | cons d ds =>
      have hd := (hcs d (by simp)).not_padding
      have hempty : d.text.toList = [] := by
        simp only [List.map_cons, List.cons.injEq] at hsegs
        exact hsegs.2.1.symm
      simp [hempty, isPadding] at hd

/-- A list of components that some path has is read back from its spelling. -/
theorem components_ofComponents {cs : List Component} (h : IsSpelled cs) :
    (ofComponents cs).components = cs := by
  cases cs with
  | nil => exact components_empty
  | cons c cs =>
    by_cases hroot : ofComponents (c :: cs) = ⟨"/"⟩
    · obtain ⟨rfl, rfl⟩ := ofComponents_eq_root h hroot
      decide
    · have hsegs := segments_ofComponents h hroot
      have hne : (ofComponents (c :: cs)).text ≠ "" := by
        rw [text_ne_empty_iff hsegs]
        cases cs with
        | nil =>
          left
          intro htext
          have : c = .root := by
            rw [← h.1.leadOf_text, htext]
            rfl
          subst this
          exact hroot (by decide)
        | cons d ds => simp
      rw [components_of_text_ne hsegs hne, h.1.leadOf_text, stepsOf_texts h.2]

/-- The plainest spelling of some steps is a relative path with just these steps. -/
theorem stepsOf_segments_ofComponents {cs : List Component} (h : ∀ c ∈ cs, c.IsStep) :
    (ofComponents cs).isAbsolute = false ∧ stepsOf (ofComponents cs).segments = cs := by
  cases cs with
  | nil => exact ⟨by decide, by decide⟩
  | cons c cs =>
    have hc : c ≠ .root := (h c (by simp)).ne_root
    have hspelled := isSpelled_of_isStep h
    have hroot : ofComponents (c :: cs) ≠ ⟨"/"⟩ := fun heq => hc (ofComponents_eq_root hspelled heq).1
    constructor
    · rw [Bool.eq_false_iff, Ne, isAbsolute_iff_head, components_ofComponents hspelled]
      simpa using hc
    · rw [segments_ofComponents hspelled hroot]
      exact stepsOf_texts h

/-! ## Plain paths -/

/-- The path is written with single slashes and without padding. -/
def IsPlain (p : Path) : Prop := ofComponents p.components = p

instance (p : Path) : Decidable p.IsPlain :=
  inferInstanceAs (Decidable (ofComponents p.components = p))

theorem SameAs.eq_of_isPlain (h : p.SameAs q) (hp : p.IsPlain) (hq : q.IsPlain) : p = q :=
  calc
    p = ofComponents p.components := hp.symm
    _ = ofComponents q.components := by rw [h]
    _ = q := hq

theorem isPlain_ofComponents {cs : List Component} (h : IsSpelled cs) :
    (ofComponents cs).IsPlain := by
  rw [IsPlain, components_ofComponents h]

/-- Every path has a plain spelling. -/
theorem exists_isPlain (p : Path) : ∃ q : Path, q.IsPlain ∧ p.SameAs q :=
  ⟨ofComponents p.components, isPlain_ofComponents p.isSpelled_components,
    (components_ofComponents p.isSpelled_components).symm⟩

/-- A path whose pieces behind the first are no padding is plain. -/
theorem isPlain_of_segments {first : List Char} {rest : List (List Char)}
    (h : p.segments = first :: rest) (hrest : ∀ s ∈ rest, isPadding s = false) : p.IsPlain := by
  have htext : p.text = String.ofList (joinWith '/' (first :: rest)) := by
    rw [← h, segments, joinWith_splitOn, String.ofList_toList]
  by_cases hne : p.text = ""
  · obtain ⟨text⟩ := p
    subst hne
    rw [IsPlain, components_empty]
    rfl
  · have hsteps : (stepsOf rest).map (fun d => d.text.toList) = rest := by
      have hkept : rest.filter (fun s => !isPadding s) = rest :=
        List.filter_eq_self.2 fun s hs => by simp [hrest s hs]
      rw [stepsOf, hkept, List.map_map]
      exact List.map_id'' (fun s => Component.text_ofSegment s) rest
    have hlead : (leadOf first).text.toList = first := by
      unfold leadOf
      split
      · next hf => simp [hf, Component.text]
      · exact Component.text_ofSegment first
    have hlong : ¬((first = [] && rest.isEmpty) = true) := by
      rcases (text_ne_empty_iff h).1 hne with hfirst | hrest <;> simp_all
    rw [IsPlain, components_of_text_ne h hne, ofComponents, hsteps, hlead, ofSegments,
      if_neg hlong, ← htext]

/-- A plain path other than the root holds no padding behind its first piece. -/
theorem IsPlain.not_padding (hp : p.IsPlain) (hroot : p ≠ ⟨"/"⟩) {first : List Char}
    {rest : List (List Char)} (h : p.segments = first :: rest) :
    ∀ s ∈ rest, isPadding s = false := by
  intro s hs
  have hspelled := p.isSpelled_components
  match hcs : p.components with
  | [] =>
    have hne : p.text ≠ "" := (text_ne_empty_iff h).2 (.inr (List.ne_nil_of_mem hs))
    exact absurd hcs (components_ne_nil_iff.2 hne)
  | c :: cs =>
    rw [hcs] at hspelled
    have hspell : ofComponents (c :: cs) = p := by rw [← hcs, hp]
    have hsegs := segments_ofComponents hspelled (by rwa [hspell])
    rw [hspell, h, List.cons.injEq] at hsegs
    rw [hsegs.2] at hs
    obtain ⟨d, hd, rfl⟩ := List.mem_map.1 hs
    exact (hspelled.2 d hd).not_padding

/-- An ending of two or more characters keeps the last piece from being padding. -/
theorem IsPlain.append (hp : p.IsPlain) {u : List Char} (hslash : '/' ∉ u)
    (hlen : 2 ≤ u.length) : (⟨p.text ++ String.ofList u⟩ : Path).IsPlain := by
  obtain ⟨parts, last, hs, hsu⟩ := splitOn_append_of_not_mem (s := p.text.toList) hslash
  have hlast : isPadding (last ++ u) = false := by
    have hlen' : 2 ≤ (last ++ u).length := by simp; omega
    match last ++ u, hlen' with
    | _ :: _ :: _, _ => simp [isPadding]
  have hjoined : (⟨p.text ++ String.ofList u⟩ : Path).segments = parts ++ [last ++ u] := by
    simpa [segments] using hsu
  cases parts with
  | nil => exact isPlain_of_segments hjoined (by simp)
  | cons part parts =>
    refine isPlain_of_segments hjoined fun s hs' => ?_
    rcases List.mem_append.1 hs' with hmem | hmem
    · by_cases hroot : p = ⟨"/"⟩
      · -- the root splits into two empty pieces, so nothing lies between them
        have hsplit : splitOn '/' p.text.toList = [[], []] := by rw [hroot]; decide
        have hparts : parts = [] := by
          have hlen := congrArg List.length (hsplit.symm.trans hs)
          simpa using hlen.symm
        simp [hparts] at hmem
      · exact hp.not_padding hroot hs s (by simp [hmem])
    · rw [List.mem_singleton.1 hmem]
      exact hlast

theorem IsPlain.getLast?_ne (hp : p.IsPlain) (hroot : p ≠ ⟨"/"⟩) :
    p.text.toList.getLast? ≠ some '/' := by
  intro hlast
  obtain ⟨before, hbefore⟩ := List.getLast?_eq_some_iff.1 hlast
  have hsegs : p.segments = splitOn '/' before ++ [[]] := by
    rw [segments, hbefore, splitOn_append_sep]
    rfl
  obtain ⟨part, parts, hs⟩ := List.exists_cons_of_ne_nil (splitOn_ne_nil '/' before)
  have hcons : p.segments = part :: (parts ++ [[]]) := by
    rw [hsegs, hs]
    rfl
  have hpad := hp.not_padding hroot hcons [] (by simp)
  simp [isPadding] at hpad

/-- An entry of a directory is plain if the directory is. -/
theorem IsPlain.join_name (hp : p.IsPlain) (hne : p.text ≠ "") {name : String}
    (hslash : '/' ∉ name.toList) (hpad : isPadding name.toList = false) :
    (p / name).IsPlain := by
  have hrel := isAbsolute_of_name hslash
  by_cases hroot : p = ⟨"/"⟩
  · have hsegs : (p / name).segments = [] :: [name.toList] := by
      have hjoin : (p / name : Path) = ⟨"/" ++ name⟩ := by
        show p.join ⟨name⟩ = _
        rw [hroot, join, if_neg (by simp [hrel]), if_pos (by decide)]
      rw [hjoin, segments, String.toList_append, show "/".toList = ['/'] from rfl,
        List.singleton_append, splitOn, if_pos rfl, splitOn_of_not_mem hslash]
    exact isPlain_of_segments hsegs (by simpa using hpad)
  · obtain ⟨first, rest, h⟩ := p.exists_segments
    have hsegs : (p / name).segments = first :: (rest ++ [name.toList]) := by
      have hjoin : (p / name : Path) = ⟨p.text ++ "/" ++ name⟩ := by
        show p.join ⟨name⟩ = _
        rw [join, if_neg (by simp [hrel, hne]), if_neg (hp.getLast?_ne hroot)]
      rw [hjoin, segments, String.toList_append, String.toList_append,
        show "/".toList = ['/'] from rfl, List.append_assoc, List.singleton_append,
        splitOn_append_sep, ← segments, h, splitOn_of_not_mem hslash]
      rfl
    refine isPlain_of_segments hsegs fun s hs => ?_
    rcases List.mem_append.1 hs with hs | hs
    · exact hp.not_padding hroot h s hs
    · rw [List.mem_singleton.1 hs]
      exact hpad

/-! ## Settled components -/

/-- Nothing in the list is left to be resolved. -/
def IsSettled (cs : List Component) : Prop := collapse cs = cs

instance (cs : List Component) : Decidable (IsSettled cs) :=
  inferInstanceAs (Decidable (collapse cs = cs))

/-- One component leads at most one step further. -/
theorem length_advance_le (walked : List Component) (c : Component) :
    (advance walked c).length ≤ walked.length + 1 := by
  cases c with
  | up =>
    cases walked with
    | nil => simp [advance]
    | cons d before =>
      cases d with
      | name s =>
        simp only [advance, List.length_cons]
        omega
      | _ => simp [advance]
  | _ => simp [advance]

theorem length_foldl_advance_le (cs walked : List Component) :
    (cs.foldl advance walked).length ≤ walked.length + cs.length := by
  induction cs generalizing walked with
  | nil => simp
  | cons c cs ih =>
    have hstep := length_advance_le walked c
    have hrest := ih (advance walked c)
    simp only [List.foldl_cons, List.length_cons]
    omega

/-- A component that leads one step further is the step. -/
theorem advance_of_length {walked : List Component} {c : Component}
    (h : (advance walked c).length = walked.length + 1) : advance walked c = c :: walked := by
  cases c with
  | up =>
    cases walked with
    | nil => rfl
    | cons d before =>
      cases d with
      | name s =>
        simp only [advance, List.length_cons] at h
        omega
      | root => simp [advance] at h
      | _ => rfl
  | here => simp [advance] at h
  | _ => rfl

/-- Whatever comes before the end of a settled list is settled. -/
theorem IsSettled.of_append {cs ds : List Component} (h : IsSettled (cs ++ ds)) :
    IsSettled cs := by
  induction ds using List.reverseRecOn with
  | nil => simpa using h
  | append_singleton ds d ih =>
    apply ih
    rw [← List.append_assoc, IsSettled, collapse, List.foldl_append, List.foldl_cons,
      List.foldl_nil] at h
    set walked := (cs ++ ds).foldl advance [] with hwalked
    have hlen : (advance walked d).length = walked.length + 1 := by
      have hall := congrArg List.length h
      have hle := length_foldl_advance_le (cs ++ ds) []
      have hone := length_advance_le walked d
      simp only [List.length_reverse, List.length_append, List.length_singleton] at hall
      simp only [← hwalked, List.length_nil, List.length_append] at hle
      omega
    rw [advance_of_length hlen, List.reverse_cons, List.append_cancel_right_eq] at h
    exact h

theorem foldl_advance_names {names : List Component} (h : ∀ c ∈ names, ∃ s, c = .name s)
    (walked : List Component) : names.foldl advance walked = names.reverse ++ walked := by
  induction names generalizing walked with
  | nil => rfl
  | cons c names ih =>
    obtain ⟨s, rfl⟩ := h c (by simp)
    rw [List.foldl_cons, ih (fun d hd => h d (List.mem_cons_of_mem _ hd))]
    simp [advance]

/-- Names behind a list stay as they are. -/
theorem collapse_append_names (cs : List Component) {names : List Component}
    (h : ∀ c ∈ names, ∃ s, c = .name s) : collapse (cs ++ names) = collapse cs ++ names := by
  simp [collapse, foldl_advance_names h]

theorem IsSettled.append_names {cs names : List Component} (hcs : IsSettled cs)
    (h : ∀ c ∈ names, ∃ s, c = .name s) : IsSettled (cs ++ names) := by
  rw [IsSettled, collapse_append_names cs h, hcs]

theorem IsSettled.foldl_advance {walked : List Component} (h : IsSettled walked.reverse) :
    walked.reverse.foldl advance [] = walked := by
  rw [← List.reverse_reverse (List.foldl _ _ _)]
  exact (congrArg List.reverse h).trans walked.reverse_reverse

/-- Resolving a list of components leaves nothing to be resolved. -/
theorem isSettled_collapse (cs : List Component) : IsSettled (collapse cs) := by
  have hfold (cs walked : List Component) (h : IsSettled walked.reverse) :
      IsSettled (cs.foldl advance walked).reverse := by
    induction cs generalizing walked with
    | nil => exact h
    | cons c cs ih =>
      refine ih _ ?_
      have hextend (d : Component) (hd : advance walked d = d :: walked) :
          IsSettled (d :: walked).reverse := by
        rw [List.reverse_cons, IsSettled, collapse, List.foldl_append, h.foldl_advance,
          List.foldl_cons, hd, List.foldl_nil, List.reverse_cons]
      cases c with
      | here => exact h
      | root => exact hextend .root rfl
      | name s => exact hextend (.name s) rfl
      | up =>
        match walked with
        | [] => exact hextend .up rfl
        | .name _ :: before =>
          rw [List.reverse_cons] at h
          exact h.of_append
        | .root :: before => exact h
        | .up :: before => exact hextend .up rfl
        | .here :: before => exact hextend .up rfl
  exact hfold cs [] rfl

theorem IsSpelled.of_append {cs ds : List Component} (h : IsSpelled (cs ++ ds)) :
    IsSpelled cs := by
  cases cs with
  | nil => trivial
  | cons c cs => exact ⟨h.1, fun d hd => h.2 d (List.mem_append_left _ hd)⟩

/-- Behind the first component every one is a step. -/
theorem IsSpelled.isStep_of_mem {cs ds : List Component} (h : IsSpelled (cs ++ ds)) (hne : cs ≠ [])
    {c : Component} (hc : c ∈ ds) : c.IsStep := by
  obtain ⟨d, cs, rfl⟩ := List.exists_cons_of_ne_nil hne
  exact h.2 c (List.mem_append_right cs hc)

theorem IsSpelled.append_step {cs : List Component} (h : IsSpelled cs) {c : Component}
    (hc : c.IsStep) : IsSpelled (cs ++ [c]) := by
  cases cs with
  | nil => exact ⟨.inr (.inr hc), by simp⟩
  | cons d ds =>
    refine ⟨h.1, fun e he => ?_⟩
    rcases List.mem_append.1 he with he | he
    · exact h.2 e he
    · rw [List.mem_singleton.1 he]
      exact hc

theorem isSpelled_advance {walked : List Component} (h : IsSpelled walked.reverse)
    {c : Component} (hc : c.IsStep) : IsSpelled (advance walked c).reverse := by
  have hextend : IsSpelled (c :: walked).reverse := by
    rw [List.reverse_cons]
    exact h.append_step hc
  cases c with
  | here => exact h
  | root => exact absurd rfl hc.ne_root
  | name s => exact hextend
  | up =>
    match walked with
    | [] => exact hextend
    | .name _ :: before =>
      rw [List.reverse_cons] at h
      exact h.of_append
    | .root :: before => exact h
    | .up :: before => exact hextend
    | .here :: before => exact hextend

theorem isSpelled_foldl_advance {cs walked : List Component} (hcs : ∀ c ∈ cs, c.IsStep)
    (h : IsSpelled walked.reverse) : IsSpelled (cs.foldl advance walked).reverse := by
  induction cs generalizing walked with
  | nil => exact h
  | cons c cs ih =>
    exact ih (fun d hd => hcs d (List.mem_cons_of_mem c hd))
      (isSpelled_advance h (hcs c (by simp)))

theorem IsSpelled.collapse {cs : List Component} (h : IsSpelled cs) :
    IsSpelled (collapse cs) := by
  cases cs with
  | nil => trivial
  | cons c cs =>
    obtain ⟨hlead, hcs⟩ := h
    show IsSpelled (cs.foldl advance (advance [] c)).reverse
    refine isSpelled_foldl_advance hcs ?_
    rcases hlead with rfl | rfl | hlead
    · exact ⟨.inl rfl, by simp⟩
    · trivial
    · exact isSpelled_advance (show IsSpelled [].reverse from trivial) hlead

/-! ## Normal paths -/

theorem SameAs.normalize_eq (h : p.SameAs q) : p.normalize = q.normalize := by
  rw [normalize, normalize, h]

theorem isPlain_normalize (p : Path) : p.normalize.IsPlain := by
  unfold normalize
  split
  · decide
  · next hcs => exact isPlain_ofComponents p.isSpelled_components.collapse

theorem components_normalize (h : collapse p.components ≠ []) :
    p.normalize.components = collapse p.components := by
  unfold normalize
  split
  · next hcs => exact absurd hcs h
  · exact components_ofComponents p.isSpelled_components.collapse

theorem text_normalize_ne (p : Path) : p.normalize.text ≠ "" := by
  by_cases h : collapse p.components = []
  · unfold normalize
    rw [h]
    decide
  · rw [← components_ne_nil_iff, components_normalize h]
    exact h

/-- A plain path in which nothing is left to be resolved is its own normal form. -/
theorem IsPlain.normalize_eq (hp : p.IsPlain) (hsettled : IsSettled p.components)
    (hne : p.text ≠ "") : p.normalize = p := by
  have hcs : collapse p.components ≠ [] := by
    rw [hsettled]
    exact components_ne_nil_iff.2 hne
  refine SameAs.eq_of_isPlain ?_ p.isPlain_normalize hp
  exact (components_normalize hcs).trans hsettled

/-- A normal path is its own normal form. -/
theorem normalize_normalize (p : Path) : p.normalize.normalize = p.normalize := by
  by_cases hcs : collapse p.components = []
  · rw [show p.normalize = ⟨"."⟩ by rw [normalize, hcs]]
    decide
  · refine p.isPlain_normalize.normalize_eq ?_ p.text_normalize_ne
    rw [components_normalize hcs]
    exact isSettled_collapse _

end Path

end Vendoring
