/-
# Normal forms

A path is normal if it is plain and nothing in it is left to be resolved: no `.` stands in
it, unless it is nothing else, and a step up is written only at the front of a relative path,
behind no other kind of step. These are the paths that normalizing gives, and the ones that
it leaves alone.

A path can be normalized in pieces. Resolving a component list on its own keeps the steps up
that find nothing to undo, and they undo the same names later, when the list is walked from
where another one has led.
-/

import Vendoring.Proofs.Path.Relative

namespace Vendoring.Path

variable {p q : Path} {cs walked : List Component}

/-! ## What normal paths look like -/

/-- The path is written plainly and nothing in it is left to be resolved. -/
structure IsNormal (p : Path) : Prop where
  plain : p.IsPlain
  nonempty : p.text ≠ ""
  no_here : p = ⟨"."⟩ ∨ .here ∉ p.components
  up_first : ∀ before behind, p.components = before ++ .up :: behind →
    p.isAbsolute = false ∧ ∀ c ∈ before, c = .up

/-- Steps up that have only their like in front of them are not resolved. -/
theorem isSettled_of_up_first (hhere : .here ∉ cs)
    (hup : ∀ before behind, cs = before ++ .up :: behind → ∀ c ∈ before, c = .up) :
    IsSettled cs := by
  induction cs using List.reverseRecOn with
  | nil => rfl
  | append_singleton cs c ih =>
    have hsettled : IsSettled cs := ih (fun hmem => hhere (List.mem_append_left _ hmem))
      fun before behind hcs => hup before (behind ++ [c]) (by simp [hcs])
    have hc : advance cs.reverse c = c :: cs.reverse := by
      cases c with
      | root => rfl
      | name s => rfl
      | here => simp at hhere
      | up =>
        have hall := hup cs [] rfl
        cases hlast : cs.reverse with
        | nil => rfl
        | cons d before =>
          obtain rfl : d = .up := hall d (List.mem_reverse.1 (by simp [hlast]))
          rfl
    rw [← List.reverse_reverse cs] at hsettled
    have hwalked := hsettled.foldl_advance
    rw [List.reverse_reverse] at hwalked
    rw [IsSettled, collapse, List.foldl_append, hwalked, List.foldl_cons, hc, List.foldl_nil,
      List.reverse_cons, List.reverse_reverse]

/-- In front of a step up that is not resolved there are only steps up. -/
theorem eq_up_of_isSettled {before behind : List Component}
    (h : IsSettled (before ++ .up :: behind)) (hspelled : IsSpelled (before ++ .up :: behind))
    (hhere : .here ∉ before) {c : Component} (hc : c ∈ before) : c = .up := by
  obtain ⟨front, rest, rfl⟩ := List.append_of_mem hc
  rw [List.append_assoc, List.cons_append] at h hspelled
  by_contra hne
  -- behind a name or the root there would be nothing but names
  have hother : c = .root ∨ ∃ s, c = .name s := by
    cases c with
    | root => exact .inl rfl
    | name s => exact .inr ⟨s, rfl⟩
    | here => exact absurd hc hhere
    | up => exact absurd rfl hne
  rw [← List.singleton_append, ← List.append_assoc] at hspelled
  obtain ⟨names, hnames⟩ := h.exists_names hother fun d hd => hspelled.isStep_of_mem (by simp) hd
  have hup : Component.up ∈ names.map Component.name := hnames ▸ by simp
  simp at hup

theorem isNormal_normalize (p : Path) : p.normalize.IsNormal := by
  by_cases hcs : collapse p.components = []
  · rw [show p.normalize = ⟨"."⟩ by rw [normalize, hcs]]
    refine ⟨by decide, by decide, .inl rfl, fun before behind h => ?_⟩
    rw [show (⟨"."⟩ : Path).components = [.here] by decide] at h
    have hup : Component.up ∈ [Component.here] := h ▸ by simp
    simp at hup
  · have hcomponents := components_normalize hcs
    have hhere : .here ∉ p.normalize.components := by
      rw [hcomponents]
      exact fun hmem => (mem_of_mem_collapse hmem).2 rfl
    have hfirst (before behind : List Component)
        (h : p.normalize.components = before ++ .up :: behind) : ∀ c ∈ before, c = .up := by
      rw [hcomponents] at h
      refine fun c hc => eq_up_of_isSettled (h ▸ isSettled_collapse _)
        (h ▸ p.isSpelled_components.collapse) (fun hmem => ?_) hc
      exact hhere (hcomponents ▸ h ▸ List.mem_append_left _ hmem)
    refine ⟨p.isPlain_normalize, p.text_normalize_ne, .inr hhere, fun before behind h =>
      ⟨?_, hfirst before behind h⟩⟩
    rw [Bool.eq_false_iff, Ne, isAbsolute_iff_head, h]
    cases before with
    | nil => simp
    | cons c before =>
      rw [hfirst _ behind h c (by simp)]
      simp

/-- Normal paths are the ones that normalizing leaves alone. -/
theorem normalize_eq_self_iff : p.normalize = p ↔ p.IsNormal := by
  constructor
  · intro h
    rw [← h]
    exact p.isNormal_normalize
  · intro h
    rcases h.no_here with rfl | hhere
    · decide
    · exact h.plain.normalize_eq (isSettled_of_up_first hhere fun before behind hcs =>
        (h.up_first before behind hcs).2) h.nonempty

instance (p : Path) : Decidable p.IsNormal :=
  decidable_of_iff (p.normalize = p) normalize_eq_self_iff

-- A step up is kept in front of the names, and resolved behind them.
example : (⟨"../../a"⟩ : Path).IsNormal ∧ ¬(⟨"../a/../b"⟩ : Path).IsNormal := by decide

/-! ## Normalizing in pieces -/

/-- Steps that were resolved on their own lead where they lead unresolved. -/
theorem foldl_advance_collapse (hcs : .root ∉ cs) :
    (collapse cs).foldl advance walked = cs.foldl advance walked := by
  induction cs using List.reverseRecOn with
  | nil => rfl
  | append_singleton cs c ih =>
    have ih := ih fun hmem => hcs (List.mem_append_left _ hmem)
    have hroot : .root ∉ (cs.foldl advance []) := fun hmem =>
      hcs (List.mem_append_left _ (mem_of_mem_collapse (List.mem_reverse.2 hmem)).1)
    simp only [collapse, List.foldl_append, List.foldl_cons, List.foldl_nil] at ih ⊢
    rw [← ih]
    -- what was walked alone so far, last first
    generalize cs.foldl advance [] = alone at hroot ⊢
    have hkept (d : Component) (hd : advance alone d = d :: alone) :
        (advance alone d).reverse.foldl advance walked =
          advance (alone.reverse.foldl advance walked) d := by
      rw [hd, List.reverse_cons, List.foldl_append, List.foldl_cons, List.foldl_nil]
    cases c with
    | here => rfl
    | root => exact hkept .root rfl
    | name s => exact hkept (.name s) rfl
    | up =>
      cases alone with
      | nil => exact hkept .up rfl
      | cons last before =>
        cases last with
        | name s =>
          rw [List.reverse_cons, List.foldl_append]
          rfl
        | up => exact hkept .up rfl
        | here => exact hkept .up rfl
        | root => simp at hroot

theorem collapse_normalize (p : Path) : collapse p.normalize.components = collapse p.components := by
  by_cases hcs : collapse p.components = []
  · rw [hcs, normalize, hcs]
    decide
  · rw [components_normalize hcs]
    exact isSettled_collapse _

theorem isAbsolute_normalize (p : Path) : p.normalize.isAbsolute = p.isAbsolute := by
  cases h : p.isAbsolute with
  | true => exact (isRooted_normalize h).isAbsolute
  | false =>
    rw [Bool.eq_false_iff, Ne, isAbsolute_iff_head]
    intro hhead
    have hroot : Component.root ∈ p.normalize.components.filter (· ≠ .here) :=
      List.mem_filter.2 ⟨List.mem_of_mem_head? hhead, by decide⟩
    rw [filter_components_normalize] at hroot
    exact (isStep_of_mem_collapse h hroot).ne_root rfl

/-- The directory may be normalized before something is joined to it. -/
theorem normalize_join_left (a b : Path) : (a.normalize.join b).normalize = (a.join b).normalize := by
  cases hb : b.isAbsolute with
  | true => rw [join_absolute hb, join_absolute hb]
  | false =>
    apply normalize_congr
    rw [collapse_join hb, collapse_join hb, collapse_normalize]

/-- What is joined to a directory may be normalized before. -/
theorem normalize_join_right (a b : Path) : (a.join b.normalize).normalize = (a.join b).normalize := by
  cases hb : b.isAbsolute with
  | true =>
    rw [join_absolute hb, join_absolute ((isAbsolute_normalize b).trans hb), normalize_normalize]
  | false =>
    have hrelative := (isAbsolute_normalize b).trans hb
    have hroot : .root ∉ stepsOf b.segments := fun hmem =>
      (isStep_of_mem_stepsOf (fun s hs => not_slash_of_mem_segments hs) hmem).ne_root rfl
    have hsteps : stepsOf b.normalize.segments = collapse (stepsOf b.segments) := by
      rw [stepsOf_segments hrelative, filter_components_normalize, collapse, collapse,
        foldl_advance_components hb]
    apply normalize_congr
    rw [collapse_join hrelative, collapse_join hb, hsteps, foldl_advance_collapse hroot]

/-- Normalizing is canonical and can be done in pieces: it gives normal paths and leaves these
alone, so doing it again changes nothing, and of a joined path either part may be normalized
before. -/
theorem normalize_canonical (p a b : Path) :
    p.normalize.IsNormal ∧ (p.normalize = p ↔ p.IsNormal) ∧
      p.normalize.normalize = p.normalize ∧
      (a.join b).normalize = (a.normalize.join b).normalize ∧
      (a.normalize.join b).normalize = (a.join b.normalize).normalize :=
  ⟨p.isNormal_normalize, normalize_eq_self_iff, p.normalize_normalize,
    (normalize_join_left a b).symm, (normalize_join_left a b).trans (normalize_join_right a b).symm⟩

end Vendoring.Path
