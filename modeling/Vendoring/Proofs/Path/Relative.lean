/-
# Relative paths

The way to a goal is written into a file as a specifier. Walked from the directory of the
file, the specifier leads where the way leads, since the `./` that it may have in front is
padding.

Removing the extension of a file changes its last name and nothing else, unless the name
that is left would be read as a step.
-/

import Vendoring.Proofs.Path.Extensions
import Vendoring.Proofs.Path.Ways

namespace Vendoring.Path

open Text

variable {p q dir goal : Path} {cs : List Component}

/-! ## Specifiers -/

/-- A step to the directory itself in front of a path is padding. -/
theorem stepsOf_segments_here (s : String) :
    stepsOf (⟨"./" ++ s⟩ : Path).segments = stepsOf (⟨s⟩ : Path).segments := by
  have hsplit : (⟨"./" ++ s⟩ : Path).segments = ['.'] :: (⟨s⟩ : Path).segments := by
    rw [segments, String.toList_append, show "./".toList = ['.'] ++ '/' :: [] from rfl,
      List.append_assoc, List.cons_append, List.nil_append]
    exact splitOn_append_cons (show '/' ∉ ['.'] by decide) s.toList
  rw [hsplit, stepsOf_cons, if_pos (by decide)]

/-- The steps of a relative path are its components, but for a leading `.`. -/
theorem stepsOf_segments (h : p.isAbsolute = false) :
    stepsOf p.segments = p.components.filter (· ≠ .here) := by
  have hsteps : (stepsOf p.segments).filter (· ≠ .here) = stepsOf p.segments :=
    List.filter_eq_self.2 fun c hc => decide_eq_true
      (isStep_of_mem_stepsOf (fun s hs => not_slash_of_mem_segments hs) hc).ne_here
  rcases components_of_relative h with hcs | hcs <;> rw [hcs]
  · exact hsteps.symm
  · rw [List.filter_cons_of_neg (by decide), hsteps]

/-- A relative path and its specifier have the same steps. -/
theorem stepsOf_relativeSpecifier (h : p.isAbsolute = false) :
    (⟨p.relativeSpecifier⟩ : Path).isAbsolute = false ∧
      stepsOf (⟨p.relativeSpecifier⟩ : Path).segments = stepsOf p.segments := by
  have hcs : (⟨p.slashed⟩ : Path).components = p.components :=
    components_ofComponents p.isSpelled_components
  have hrelative : (⟨p.slashed⟩ : Path).isAbsolute = false := by
    rw [Bool.eq_false_iff, Ne, isAbsolute_iff_head] at h ⊢
    rwa [hcs]
  have hsteps : stepsOf (⟨p.slashed⟩ : Path).segments = stepsOf p.segments := by
    rw [stepsOf_segments hrelative, stepsOf_segments h, hcs]
  rw [relativeSpecifier]
  split
  · next hdot =>
    rw [← hsteps, hdot]
    decide
  · split
    · exact ⟨hrelative, hsteps⟩
    · refine ⟨?_, (stepsOf_segments_here _).trans hsteps⟩
      rw [isAbsolute, String.toList_append]
      rfl

theorem exists_names_of_relative (hdir : dir.isAbsolute = false) (hup : .up ∉ dir.components) :
    ∃ names : List String, collapse dir.components = names.map .name := by
  obtain ⟨names, hnames⟩ : ∃ names : List String, stepsOf dir.segments = names.map .name := by
    apply exists_names_of_stepsOf
    rintro hmem
    have hstep : Component.up ∈ stepsOf dir.segments := by
      rw [stepsOf, List.mem_map]
      exact ⟨['.', '.'], List.mem_filter.2 ⟨hmem, by decide⟩, by decide⟩
    rw [stepsOf_segments hdir] at hstep
    exact hup (List.mem_of_mem_filter hstep)
  refine ⟨names, ?_⟩
  rw [collapse, foldl_advance_components hdir, hnames, foldl_advance_names (by simp),
    List.append_nil, List.reverse_reverse]

/-- The specifier for the way to a goal leads to the goal. -/
theorem normalize_join_relativePath (hdir : dir.isAbsolute = false) (hup : .up ∉ dir.components)
    (hgoal : goal.isAbsolute = false) :
    (dir / (dir.relativePath goal).relativeSpecifier).normalize = goal.normalize := by
  have habsolute : goal.isAbsolute = true → dir.isAbsolute = true := by simp [hgoal]
  obtain ⟨names, hnames⟩ := exists_names_of_relative hdir hup
  obtain ⟨hrelative, hsteps⟩ := stepsOf_relativePath habsolute
  obtain ⟨hrelative', hsteps'⟩ := stepsOf_relativeSpecifier hrelative
  exact normalize_join_of_steps hrelative' (hsteps'.trans hsteps) (hnames ▸ climbable_names names _)

/-! ## Names without their extensions -/

variable {name : String} {segment : List Char}

/-- What is kept of some pieces ends with a piece that is no padding. -/
theorem not_padding_of_trimPadding {segments front : List (List Char)} {last : List Char}
    (h : trimPadding segments = front ++ [last]) : isPadding last = false := by
  have hhead := List.head?_dropWhile_not isPadding segments.reverse
  rw [← List.getLast?_reverse, ← trimPadding, h, List.getLast?_concat] at hhead
  simpa using hhead

/-- A path is spelled by its pieces. -/
theorem segments_joinWith {first : List Char} {rest : List (List Char)}
    (h : ∀ s ∈ first :: rest, '/' ∉ s) :
    (⟨String.ofList (joinWith '/' (first :: rest))⟩ : Path).segments = first :: rest := by
  rw [segments, String.toList_ofList]
  exact splitOn_joinWith (by simp) h

theorem leadOf_ne_name {first : List Char} (h : isPadding first = true) :
    leadOf first ≠ .name name := by
  rcases Bool.or_eq_true_iff.1 h with hnil | hdot
  · rw [of_decide_eq_true hnil]
    simp [leadOf]
  · rw [of_decide_eq_true hdot]
    simp [leadOf, Component.ofSegment]

/-- The pieces of a path up to its last name, and its components in front of that name. -/
theorem trimPadding_of_name (hp : p.components = cs ++ [.name name]) :
    (∃ first, trimPadding p.segments = [first] ∧ cs = []) ∨
      ∃ first mid last, trimPadding p.segments = first :: (mid ++ [last]) ∧
        cs = leadOf first :: stepsOf mid := by
  obtain ⟨first, rest, hsegs⟩ := p.exists_segments
  have hcomponents : cs ++ [.name name] = leadOf first :: stepsOf rest := by
    rw [← hp]
    refine components_of_text_ne hsegs ?_
    rw [← components_ne_nil_iff, hp]
    simp
  have hsteps := stepsOf_trimPadding p.segments
  have hbegins := trimPadding_isPrefix p.segments
  rw [hsegs] at hsteps hbegins
  rw [hsegs]
  rcases List.eq_nil_or_concat' (trimPadding (first :: rest)) with hkept | ⟨front, last, hkept⟩
  · -- all pieces are padding, so there would be no name
    rw [hkept, stepsOf_cons] at hsteps
    split at hsteps
    · next hpad =>
      rw [← hsteps, stepsOf_nil] at hcomponents
      have hlead := (List.append_inj' (hcomponents.trans (List.nil_append _).symm) rfl).2
      exact absurd (List.singleton_inj.1 hlead).symm (leadOf_ne_name hpad)
    · cases hsteps
  · have hlast := not_padding_of_trimPadding hkept
    cases front with
    | nil =>
      rw [hkept] at hsteps hbegins
      obtain ⟨rfl, -⟩ := List.cons_prefix_cons.1 hbegins
      refine .inl ⟨_, hkept, ?_⟩
      rw [List.nil_append, stepsOf_cons, stepsOf_cons, if_neg (by simp [hlast]),
        if_neg (by simp [hlast])] at hsteps
      rw [← (List.cons.inj hsteps).2, stepsOf_nil] at hcomponents
      exact (List.append_inj' (hcomponents.trans (List.nil_append _).symm) rfl).1
    | cons head mid =>
      rw [hkept] at hsteps hbegins
      obtain ⟨rfl, -⟩ := List.cons_prefix_cons.1 hbegins
      refine .inr ⟨_, mid, last, hkept, ?_⟩
      have hrest : stepsOf (mid ++ [last]) = stepsOf rest := by
        rw [List.cons_append, stepsOf_cons, stepsOf_cons] at hsteps
        split at hsteps
        · exact hsteps
        · exact (List.cons.inj hsteps).2
      rw [← hrest, stepsOf_append, stepsOf_cons, if_neg (by simp [hlast]), stepsOf_nil,
        ← List.cons_append] at hcomponents
      exact (List.append_inj' hcomponents rfl).1

/-- The last name of a path can be replaced by another step. -/
theorem components_withLastSegment (hp : p.components = cs ++ [.name name])
    (hslash : '/' ∉ segment) (hpad : isPadding segment = false) :
    (p.withLastSegment segment).components = cs ++ [Component.ofSegment segment] := by
  have hbegins := trimPadding_isPrefix p.segments
  have hslashes : ∀ s ∈ trimPadding p.segments, '/' ∉ s := fun s hs =>
    not_slash_of_mem_segments (hbegins.subset hs)
  rcases trimPadding_of_name hp with ⟨first, hkept, rfl⟩ | ⟨first, mid, last, hkept, rfl⟩
  · have hsegs : (⟨String.ofList (joinWith '/' [segment])⟩ : Path).segments = [segment] :=
      segments_joinWith (by simpa using hslash)
    have hpath : p.withLastSegment segment = ⟨String.ofList (joinWith '/' [segment])⟩ := by
      rw [withLastSegment, hkept]
      rfl
    rw [hpath, (components_of_head hsegs hpad).2, hsegs, stepsOf_cons, if_neg (by simp [hpad])]
    rfl
  · rw [hkept] at hslashes
    have hsegs : (⟨String.ofList (joinWith '/' (first :: (mid ++ [segment])))⟩ : Path).segments =
        first :: (mid ++ [segment]) := by
      apply segments_joinWith
      rintro s hs
      rcases List.mem_cons.1 hs with rfl | hs
      · exact hslashes _ List.mem_cons_self
      · rcases List.mem_append.1 hs with hs | hs
        · exact hslashes s (by simp [hs])
        · rwa [List.mem_singleton.1 hs]
    have hpath : p.withLastSegment segment =
        ⟨String.ofList (joinWith '/' (first :: (mid ++ [segment])))⟩ := by
      rw [withLastSegment, hkept]
      show (⟨String.ofList (joinWith '/' ((first :: (mid ++ [last])).dropLast ++ [segment]))⟩ : Path) = _
      rw [← List.cons_append, List.dropLast_concat, List.cons_append]
    have htext := (text_ne_empty_iff hsegs).2 (.inr (by simp))
    rw [hpath, components_of_text_ne hsegs htext, stepsOf_append, stepsOf_cons,
      if_neg (by simp [hpad])]
    rfl

/-- The first half of a name is a name too, if it would not be read as a step. -/
theorem isStep_stem (h : (Component.name name).IsStep) (hdot : (splitName name).1 ≠ ".")
    (hdots : (splitName name).1 ≠ "..") : (Component.name (splitName name).1).IsStep := by
  have hpiece : isPadding (splitName name).1.toList = false ∧ '/' ∉ (splitName name).1.toList := by
    unfold splitName at hdot ⊢
    split
    · exact ⟨h.not_padding, h.no_slash⟩
    · exact ⟨h.not_padding, h.no_slash⟩
    · next stem extension hne hsplit =>
      obtain ⟨hname, -⟩ := splitAtLastDot_eq_some_iff.1 hsplit
      rw [hsplit] at hdot
      constructor
      · rw [String.toList_ofList, isPadding, Bool.or_eq_false_iff]
        exact ⟨decide_eq_false hne, decide_eq_false fun heq => hdot (by rw [heq])⟩
      · rw [String.toList_ofList]
        intro hmem
        exact h.no_slash (hname ▸ List.mem_append_left _ hmem)
  exact isStep_name hpiece.2 hpiece.1 hdots

theorem isStep_of_name_mem (h : .name name ∈ p.components) : (Component.name name).IsStep := by
  have hspelled := p.isSpelled_components
  cases hcs : p.components with
  | nil => simp [hcs] at h
  | cons c cs =>
    rw [hcs] at h hspelled
    rcases List.mem_cons.1 h with rfl | h
    · rcases hspelled.1 with hroot | hhere | hstep
      · cases hroot
      · cases hhere
      · exact hstep
    · exact hspelled.2 _ h

/-- Without its extension, a file is called by the first half of its name. -/
theorem components_withoutExtension (hp : p.components = cs ++ [.name name])
    (hdot : (splitName name).1 ≠ ".") (hdots : (splitName name).1 ≠ "..") :
    p.withoutExtension.components = cs ++ [.name (splitName name).1] := by
  have hfile : p.fileName? = some name := by simp [fileName?, hp]
  have hstep := isStep_stem (isStep_of_name_mem (p := p) (by simp [hp])) hdot hdots
  rw [withoutExtension, hfile]
  simp only [if_neg hdot]
  have hread : Component.ofSegment (splitName name).1.toList = .name (splitName name).1 :=
    hstep.read_back
  have hreplaced := components_withLastSegment hp hstep.no_slash hstep.not_padding
  rw [← hread]
  exact hreplaced

theorem exists_of_fileName? (h : p.fileName? = some name) :
    ∃ cs, p.components = cs ++ [.name name] := by
  unfold fileName? at h
  split at h
  · next s hlast =>
    obtain rfl := Option.some.inj h
    exact List.getLast?_eq_some_iff.1 hlast
  · cases h

theorem extension?_of_name (hp : p.components = cs ++ [.name name]) :
    p.extension? = (splitName name).2 := by
  simp [extension?, fileName?, hp]

/-- The last component of a file without its extension, whatever is left of the name: a name
that comes to `.` is written `..`, and so both are read as a step up. -/
theorem components_withoutExtension_of_name (hp : p.components = cs ++ [.name name]) :
    p.withoutExtension.components = cs ++ [.name (splitName name).1] ∨
      (splitName name).2 ≠ none ∧ p.withoutExtension.components = cs ++ [.up] := by
  have hstep : (Component.name name).IsStep := isStep_of_name_mem (p := p) (by simp [hp])
  by_cases hdot : (splitName name).1 = "." ∨ (splitName name).1 = ".."
  · right
    constructor
    · rw [Ne, ← splitName_fst_eq_iff]
      rintro heq
      rw [heq] at hdot
      rcases hdot with rfl | rfl
      · exact absurd hstep.not_padding (by decide)
      · exact absurd hstep.read_back (by decide)
    · have hfile : p.fileName? = some name := by simp [fileName?, hp]
      have hpath : p.withoutExtension = p.withLastSegment ['.', '.'] := by
        rw [withoutExtension, hfile]
        rcases hdot with heq | heq <;> simp [heq]
      rw [hpath]
      exact components_withLastSegment hp (by decide) (by decide)
  · rw [not_or] at hdot
    exact .inl (components_withoutExtension hp hdot.1 hdot.2)

/-- A path without an extension has nothing removed. -/
theorem sameAs_withoutExtension (h : p.extension? = none) : p.withoutExtension.SameAs p := by
  cases hfile : p.fileName? with
  | none =>
    rw [withoutExtension, hfile]
    exact SameAs.refl p
  | some name =>
    obtain ⟨cs, hp⟩ := exists_of_fileName? hfile
    rw [extension?_of_name hp] at h
    rcases components_withoutExtension_of_name hp with hname | ⟨hne, -⟩
    · rw [SameAs, hname, splitName_fst_eq_iff.2 h, hp]
    · exact absurd h hne

theorem isAbsolute_withoutExtension_of_relative (h : p.isAbsolute = false) :
    p.withoutExtension.isAbsolute = false := by
  cases hfile : p.fileName? with
  | none => rwa [withoutExtension, hfile]
  | some name =>
    obtain ⟨cs, hp⟩ := exists_of_fileName? hfile
    rw [Bool.eq_false_iff, Ne, isAbsolute_iff_head, hp] at h
    have hlead {last : Component} (hlast : last ≠ .root) :
        (cs ++ [last]).head? ≠ some .root := by
      cases cs with
      | nil => simpa using hlast
      | cons c cs => exact h
    rw [Bool.eq_false_iff, Ne, isAbsolute_iff_head]
    rcases components_withoutExtension_of_name hp with hcs | ⟨-, hcs⟩
    · rw [hcs]
      exact hlead (by simp)
    · rw [hcs]
      exact hlead (by simp)

/-- A normal path that ends in a name has nothing left to be resolved. -/
theorem isSettled_of_name (hp : p.components = cs ++ [.name name]) (h : p.normalize.SameAs p) :
    IsSettled (cs ++ [.name name]) := by
  have hne : collapse p.components ≠ [] := by
    rw [hp, collapse_append_names cs (by simp)]
    simp
  rw [IsSettled, ← hp]
  exact (components_normalize hne).symm.trans h

/-- A path without its extension is relative and normal if the path is. -/
theorem normalize_withoutExtension (hrelative : p.isAbsolute = false) (h : p.normalize.SameAs p)
    (hdot : p.stem? ≠ some ".") (hdots : p.stem? ≠ some "..") :
    p.withoutExtension.isAbsolute = false ∧
      p.withoutExtension.normalize.SameAs p.withoutExtension := by
  cases hfile : p.fileName? with
  | none =>
    rw [withoutExtension, hfile]
    exact ⟨hrelative, h⟩
  | some name =>
    rw [stem?, hfile, Option.map_some, Ne, Option.some.injEq] at hdot hdots
    obtain ⟨cs, hp⟩ := exists_of_fileName? hfile
    have hcs := components_withoutExtension hp hdot hdots
    have hsettled : collapse p.withoutExtension.components = p.withoutExtension.components := by
      rw [hcs]
      exact (isSettled_of_name hp h).of_append.append_names (by simp)
    refine ⟨isAbsolute_withoutExtension_of_relative hrelative, ?_⟩
    rw [SameAs, components_normalize (by rw [hsettled, hcs]; simp), hsettled]

/-! ## Ways down -/

/-- A relative path that leads down by names: it is normal, takes no step up, and is not the
empty path, whose normal form is written `.`. -/
structure LeadsDown (p : Path) : Prop where
  relative : p.isAbsolute = false
  nonempty : p.normalize ≠ ⟨"."⟩
  normal : p.normalize.SameAs p
  no_up : .up ∉ p.components

instance (p : Path) : Decidable p.LeadsDown :=
  decidable_of_iff (p.isAbsolute = false ∧ p.normalize ≠ ⟨"."⟩ ∧ p.normalize.SameAs p ∧
      .up ∉ p.components)
    ⟨fun ⟨hrelative, hnonempty, hnormal, hup⟩ => ⟨hrelative, hnonempty, hnormal, hup⟩,
      fun h => ⟨h.relative, h.nonempty, h.normal, h.no_up⟩⟩

theorem LeadsDown.exists_names (h : p.LeadsDown) :
    ∃ (name : String) (names : List String), p.components = (name :: names).map .name := by
  obtain ⟨names, hnames⟩ := exists_names_of_relative h.relative h.no_up
  cases names with
  | nil =>
    refine absurd ?_ h.nonempty
    rw [normalize, hnames]
    rfl
  | cons name names =>
    refine ⟨name, names, ?_⟩
    rw [← hnames, ← components_normalize (by simp [hnames])]
    exact h.normal.symm

end Vendoring.Path
