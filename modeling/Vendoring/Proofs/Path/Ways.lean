/-
# The way from one place to another

The path that leads from a directory to a goal climbs to what the two have in common and
goes down from there. It is walked from where the directory has led, and resolving it there
undoes what was climbed, so it leads to the goal. Only names can be climbed out of: from
behind a step up there is no way back by text alone.

All of this is said of the components that are left when a path is resolved. How a way is
spelled, as a path or as a specifier, matters only as far as its steps are these.
-/

import Vendoring.Proofs.Path.Descent

namespace Vendoring.Path

variable {p q dir goal : Path} {cs ds walked : List Component} {c d : Component}

/-! ## Resolving relative paths -/

/-- A relative path has its steps as components, perhaps behind a leading `.`. -/
theorem components_of_relative (h : p.isAbsolute = false) :
    p.components = stepsOf p.segments ∨ p.components = .here :: stepsOf p.segments := by
  obtain ⟨first, rest, hsegs⟩ := p.exists_segments
  cases hpad : isPadding first with
  | false => exact .inl (components_of_head hsegs hpad).2
  | true =>
    rw [components_eq hsegs, hsegs, stepsOf_cons, if_pos hpad, leading, h]
    rcases Bool.or_eq_true_iff.1 hpad with hnil | hdot
    · exact .inl (by rw [of_decide_eq_true hnil]; rfl)
    · exact .inr (by rw [of_decide_eq_true hdot]; rfl)

theorem foldl_advance_components (h : p.isAbsolute = false) :
    p.components.foldl advance [] = (stepsOf p.segments).foldl advance [] := by
  rcases components_of_relative h with hcs | hcs <;> rw [hcs]
  rfl

/-- A path is resolved from where the path in front of it has led. -/
theorem foldl_advance_join (hq : q.isAbsolute = false) :
    (p.join q).components.foldl advance [] =
      (stepsOf q.segments).foldl advance (p.components.foldl advance []) := by
  by_cases hp : p.text = ""
  · rw [join_of_empty hp, components_eq_nil hp, foldl_advance_components hq, List.foldl_nil]
  · rw [components_join hq hp, List.foldl_append]

theorem collapse_join (hq : q.isAbsolute = false) : collapse (p.join q).components =
    ((stepsOf q.segments).foldl advance (collapse p.components).reverse).reverse := by
  rw [collapse, foldl_advance_join hq, collapse, List.reverse_reverse]

/-- Where a path leads depends on nothing but what is left of it. -/
theorem normalize_congr (h : collapse p.components = collapse q.components) :
    p.normalize = q.normalize := by
  rw [normalize, normalize, h]

theorem mem_advance (h : d ∈ advance walked c) : d ∈ walked ∨ d = c ∧ d ≠ .here := by
  have htaken {before : List Component} (hc : c ≠ .here) (h : d ∈ c :: before) :
      d ∈ before ∨ d = c ∧ d ≠ .here :=
    (List.mem_cons.1 h).symm.imp_right fun hd => ⟨hd, hd ▸ hc⟩
  cases c with
  | here => exact .inl h
  | up =>
    cases walked with
    | nil => exact htaken (by decide) h
    | cons e before =>
      cases e with
      | name s => exact .inl (List.mem_cons_of_mem _ h)
      | root => exact .inl h
      | here => exact htaken (by decide) h
      | up => exact htaken (by decide) h
  | root => exact htaken (by decide) h
  | name s => exact htaken (by simp) h

/-- Resolving a list of components brings no other components in, and takes every `.` out. -/
theorem mem_of_mem_collapse (h : d ∈ collapse cs) : d ∈ cs ∧ d ≠ .here := by
  have hfold (cs walked : List Component) (h : d ∈ cs.foldl advance walked) :
      d ∈ walked ∨ d ∈ cs ∧ d ≠ .here := by
    induction cs generalizing walked with
    | nil => exact .inl h
    | cons c cs ih =>
      rcases ih (advance walked c) h with h | h
      · exact (mem_advance h).imp_right fun ⟨hc, hhere⟩ => ⟨List.mem_cons.2 (.inl hc), hhere⟩
      · exact .inr ⟨List.mem_cons_of_mem c h.1, h.2⟩
  simpa using hfold cs [] (List.mem_reverse.1 h)

/-! ## What is left of a path -/

/-- What is left of a relative path are steps. -/
theorem isStep_of_mem_collapse (h : p.isAbsolute = false) (hc : c ∈ collapse p.components) :
    c.IsStep := by
  rw [collapse, foldl_advance_components h] at hc
  exact isStep_of_mem_stepsOf (fun s hs => not_slash_of_mem_segments hs) (mem_of_mem_collapse hc).1

/-- The components of a normal path are what is left of the path, but for the `.` that is
written if nothing is left. -/
theorem filter_components_normalize (p : Path) :
    p.normalize.components.filter (· ≠ .here) = collapse p.components := by
  by_cases hcs : collapse p.components = []
  · rw [hcs, normalize, hcs]
    decide
  · rw [components_normalize hcs, List.filter_eq_self]
    exact fun c hc => decide_eq_true (mem_of_mem_collapse hc).2

/-- What is left of an absolute path are the root and names. -/
theorem exists_names_of_absolute (h : p.isAbsolute = true) :
    ∃ names : List String, collapse p.components = .root :: names.map .name := by
  obtain ⟨names, hnames⟩ := isRooted_normalize h
  refine ⟨names, ?_⟩
  rw [← filter_components_normalize, hnames, List.filter_eq_self]
  simp

/-- What is left of a relative path are names, unless it begins with a step up. -/
theorem exists_names_of_head? (h : p.isAbsolute = false)
    (hup : p.normalize.components.head? ≠ some .up) :
    ∃ names : List String, collapse p.components = names.map .name := by
  cases hcs : collapse p.components with
  | nil => exact ⟨[], rfl⟩
  | cons c cs =>
    have hstep : ∀ d ∈ c :: cs, d.IsStep := fun d hd => isStep_of_mem_collapse h (hcs ▸ hd)
    rw [components_normalize (by simp [hcs]), hcs, List.head?_cons] at hup
    cases c with
    | root => exact absurd rfl (hstep .root (by simp)).ne_root
    | here => exact absurd rfl (hstep .here (by simp)).ne_here
    | up => exact absurd rfl hup
    | name s =>
      have hsettled : IsSettled ([] ++ .name s :: cs) := hcs ▸ isSettled_collapse p.components
      obtain ⟨names, hnames⟩ := hsettled.exists_names (.inr ⟨s, rfl⟩) fun d hd =>
        hstep d (List.mem_cons_of_mem _ hd)
      exact ⟨s :: names, by rw [hnames, List.map_cons]⟩

/-! ## The way to a goal -/

theorem take_commonLength (cs ds : List Component) :
    cs.take (commonLength cs ds) = ds.take (commonLength cs ds) := by
  induction cs generalizing ds with
  | nil => simp [commonLength]
  | cons c cs ih =>
    cases ds with
    | nil => simp [commonLength]
    | cons d ds =>
      simp only [commonLength]
      split
      · next hcd => rw [List.take_succ_cons, List.take_succ_cons, hcd, ih]
      · rfl

/-- The steps from one list of components to another: up to what they have in common, and
down from there. -/
def stepsBetween (start target : List Component) : List Component :=
  List.replicate (start.length - commonLength start target) .up ++
    target.drop (commonLength start target)

/-- Behind what it has in common with the target, the start has names only. -/
def Climbable (start target : List Component) : Prop :=
  ∀ c ∈ start.drop (commonLength start target), ∃ s, c = .name s

theorem climbable_names (names : List String) (target : List Component) :
    Climbable (names.map .name) target := by
  intro c hc
  obtain ⟨s, -, rfl⟩ := List.mem_map.1 (List.mem_of_mem_drop hc)
  exact ⟨s, rfl⟩

theorem climbable_rooted (names : List String) (target : List Component) :
    Climbable (.root :: names.map .name) (.root :: target) := by
  intro c hc
  rw [commonLength, if_pos rfl, List.drop_succ_cons] at hc
  exact climbable_names names target c hc

/-- Steps up undo the names that were walked last. -/
theorem foldl_advance_up {names : List Component} (h : ∀ c ∈ names, ∃ s, c = .name s)
    (walked : List Component) :
    (List.replicate names.length .up).foldl advance (names ++ walked) = walked := by
  induction names with
  | nil => rfl
  | cons c names ih =>
    obtain ⟨s, rfl⟩ := h c (by simp)
    exact ih fun d hd => h d (List.mem_cons_of_mem _ hd)

/-- Walked from where they start, the steps lead to their target. -/
theorem foldl_advance_stepsBetween (hcs : Climbable cs ds) (hds : IsSettled ds) :
    (stepsBetween cs ds).foldl advance cs.reverse = ds.reverse := by
  set common := commonLength cs ds with hcommon
  have hclimb : (List.replicate (cs.length - common) .up).foldl advance cs.reverse =
      (ds.take common).reverse := by
    have hback := @foldl_advance_up (cs.drop common).reverse
      (fun c hc => hcs c (List.mem_reverse.1 hc)) (cs.take common).reverse
    rwa [List.length_reverse, List.length_drop, ← List.reverse_append, List.take_append_drop,
      hcommon, take_commonLength] at hback
  have hfront : IsSettled (ds.take common).reverse.reverse := by
    rw [List.reverse_reverse]
    rw [← List.take_append_drop common ds] at hds
    exact hds.of_append
  have hwalked := hfront.foldl_advance
  rw [List.reverse_reverse] at hwalked
  calc (stepsBetween cs ds).foldl advance cs.reverse
      = (ds.drop common).foldl advance (ds.take common).reverse := by
        rw [stepsBetween, ← hcommon, List.foldl_append, hclimb]
    _ = ds.foldl advance [] := by
        rw [← hwalked, ← List.foldl_append, List.take_append_drop]
    _ = ds.reverse := by
        rw [← List.reverse_reverse (ds.foldl advance [])]
        exact congrArg List.reverse hds

/-- The plainest spelling of some steps; no step at all is written `.`. -/
def ofSteps : List Component → Path
  | [] => ⟨"."⟩
  | c :: cs => ofComponents (c :: cs)

/-- The plainest spelling of some steps is relative, and its steps are these. -/
theorem stepsOf_ofSteps (hcs : ∀ c ∈ cs, c.IsStep) :
    (ofSteps cs).isAbsolute = false ∧ stepsOf (ofSteps cs).segments = cs := by
  cases cs with
  | nil => decide
  | cons c cs => exact stepsOf_segments_ofComponents hcs

section Goal

variable (habsolute : goal.isAbsolute = true → dir.isAbsolute = true)

include habsolute

/-- Behind what it has in common with the directory, a goal has steps only. -/
theorem isStep_of_mem_drop (hc : c ∈ (collapse goal.components).drop
    (commonLength (collapse dir.components) (collapse goal.components))) : c.IsStep := by
  cases hgoal : goal.isAbsolute with
  | false => exact isStep_of_mem_collapse hgoal (List.mem_of_mem_drop hc)
  | true =>
    obtain ⟨names, hnames⟩ := exists_names_of_absolute (habsolute hgoal)
    obtain ⟨names', hnames'⟩ := exists_names_of_absolute hgoal
    have hspelled : IsSpelled (.root :: names'.map .name) :=
      hnames' ▸ goal.isSpelled_components.collapse
    rw [hnames, hnames', commonLength, if_pos rfl, List.drop_succ_cons] at hc
    exact hspelled.2 c (List.mem_of_mem_drop hc)

theorem isStep_of_mem_stepsBetween
    (hc : c ∈ stepsBetween (collapse dir.components) (collapse goal.components)) : c.IsStep := by
  rcases List.mem_append.1 hc with hc | hc
  · rw [(List.mem_replicate.1 hc).2]
    exact ⟨by decide, by decide, by decide⟩
  · exact isStep_of_mem_drop habsolute hc

/-- The path between two places is spelled by the steps between them. -/
theorem relativePath_eq : dir.relativePath goal =
    ofSteps (stepsBetween (collapse dir.components) (collapse goal.components)) := by
  simp only [relativePath, filter_components_normalize]
  rw [stepsBetween]
  split
  · next hclimb hdrop =>
    rw [hclimb, hdrop]
    rfl
  · next down _ hroot =>
    exact absurd rfl (isStep_of_mem_drop habsolute (hroot ▸ List.mem_cons_self)).ne_root
  · next _ hnil =>
    cases hcs : List.replicate ((collapse dir.components).length -
        commonLength (collapse dir.components) (collapse goal.components)) Component.up ++
        (collapse goal.components).drop
          (commonLength (collapse dir.components) (collapse goal.components)) with
    | nil =>
      obtain ⟨hclimb, hdrop⟩ := List.append_eq_nil_iff.1 hcs
      exact absurd hdrop (hnil hclimb)
    | cons c cs => rfl

theorem stepsOf_relativePath : (dir.relativePath goal).isAbsolute = false ∧
    stepsOf (dir.relativePath goal).segments =
      stepsBetween (collapse dir.components) (collapse goal.components) := by
  rw [relativePath_eq habsolute]
  exact stepsOf_ofSteps fun c => isStep_of_mem_stepsBetween habsolute

/-- The way to a goal is made of steps up and what the goal is made of. -/
theorem mem_components_relativePath (hc : c ∈ (dir.relativePath goal).components) :
    c = .here ∨ c = .up ∨ c ∈ goal.components := by
  obtain ⟨hrelative, hsteps⟩ := stepsOf_relativePath habsolute
  have hstep : c = .here ∨
      c ∈ stepsBetween (collapse dir.components) (collapse goal.components) := by
    rcases components_of_relative hrelative with hcs | hcs <;> rw [hcs, hsteps] at hc
    · exact .inr hc
    · exact List.mem_cons.1 hc
  refine hstep.imp_right fun hc => ?_
  rcases List.mem_append.1 hc with hc | hc
  · exact .inl (List.mem_replicate.1 hc).2
  · exact .inr (mem_of_mem_collapse (List.mem_of_mem_drop hc)).1

end Goal

/-- The steps from a directory lead to the goal, however they are spelled. -/
theorem normalize_join_of_steps (hrelative : q.isAbsolute = false)
    (hsteps : stepsOf q.segments =
      stepsBetween (collapse dir.components) (collapse goal.components))
    (hclimb : Climbable (collapse dir.components) (collapse goal.components)) :
    (dir.join q).normalize = goal.normalize := by
  apply normalize_congr
  rw [collapse_join hrelative, hsteps, foldl_advance_stepsBetween hclimb (isSettled_collapse _),
    List.reverse_reverse]

/-- The way to a goal leads from the directory to the goal, and never starts at the root. The
two have to be seen from one place: both are absolute, or both are relative and the directory
does not lie outside of that place. -/
theorem relativePath_leads (dir goal : Path)
    (h : dir.isAbsolute = true ∧ goal.isAbsolute = true ∨
      dir.isAbsolute = false ∧ goal.isAbsolute = false ∧
        dir.normalize.components.head? ≠ some .up) :
    (dir.join (dir.relativePath goal)).normalize = goal.normalize ∧
      (dir.relativePath goal).isAbsolute = false := by
  have habsolute : goal.isAbsolute = true → dir.isAbsolute = true := by
    rcases h with ⟨hdir, -⟩ | ⟨-, hgoal, -⟩
    · exact fun _ => hdir
    · simp [hgoal]
  have hclimb : Climbable (collapse dir.components) (collapse goal.components) := by
    rcases h with ⟨hdir, hgoal⟩ | ⟨hdir, -, hup⟩
    · obtain ⟨names, hnames⟩ := exists_names_of_absolute hdir
      obtain ⟨names', hnames'⟩ := exists_names_of_absolute hgoal
      rw [hnames, hnames']
      exact climbable_rooted names _
    · obtain ⟨names, hnames⟩ := exists_names_of_head? hdir hup
      rw [hnames]
      exact climbable_names names _
  obtain ⟨hrelative, hsteps⟩ := stepsOf_relativePath habsolute
  exact ⟨normalize_join_of_steps hrelative hsteps hclimb, hrelative⟩

/-- The way from a directory with padding and a step up in it to a goal outside. -/
theorem relativePath_leads_outside :
    (⟨"pages//x/../index"⟩ : Path).normalize.components.head? ≠ some .up ∧
      (⟨"pages//x/../index"⟩ : Path).relativePath ⟨"pages/../../lib"⟩ = ⟨"../../../lib"⟩ ∧
      ((⟨"pages//x/../index"⟩ : Path).join
        ((⟨"pages//x/../index"⟩ : Path).relativePath ⟨"pages/../../lib"⟩)).normalize =
          (⟨"pages/../../lib"⟩ : Path).normalize ∧
      ((⟨"pages//x/../index"⟩ : Path).relativePath ⟨"pages/../../lib"⟩).isAbsolute = false :=
  ⟨by decide, by decide, relativePath_leads _ _ (.inr ⟨by decide, by decide, by decide⟩)⟩

-- Behind a step up there is no way back, since the directory that was left is not known by name.
example : ((⟨".."⟩ : Path).join ((⟨".."⟩ : Path).relativePath ⟨"lib"⟩)).normalize ≠
    (⟨"lib"⟩ : Path).normalize := by
  decide

end Vendoring.Path
