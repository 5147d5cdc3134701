/-
# What follows a directory in a path

If a path starts with the components of a directory, what follows is a relative
path, and its steps are the remaining components. Seen from any directory, it
appends just these.
-/

import Vendoring.Proofs.Path.Ancestors

namespace Vendoring.Path

open Text

variable {p q base : Path}

theorem stepsOf_dropSegments (n : Nat) (segments : List (List Char)) :
    stepsOf (dropSegments n segments) = (stepsOf segments).drop n := by
  induction segments generalizing n with
  | nil => cases n <;> simp [dropSegments]
  | cons s rest ih =>
    cases n with
    | zero => rfl
    | succ n =>
      rw [dropSegments, stepsOf_cons]
      by_cases hs : isPadding s <;> simp [hs, ih]

theorem stepsOf_trimPadding (segments : List (List Char)) :
    stepsOf (trimPadding segments) = stepsOf segments := by
  rw [trimPadding, stepsOf_reverse, stepsOf_dropWhile, stepsOf_reverse, List.reverse_reverse]

theorem mem_of_mem_dropSegments {n : Nat} {segments : List (List Char)} {s : List Char}
    (h : s ∈ dropSegments n segments) : s ∈ segments := by
  induction segments generalizing n with
  | nil => cases n <;> simp [dropSegments] at h
  | cons first rest ih =>
    cases n with
    | zero => exact h
    | succ n =>
      rw [dropSegments] at h
      split at h <;> exact List.mem_cons_of_mem first (ih h)

theorem trimPadding_isPrefix (segments : List (List Char)) : trimPadding segments <+: segments := by
  rw [trimPadding, ← List.reverse_suffix, List.reverse_reverse]
  exact List.dropWhile_suffix _

/-- A relative path that begins with no padding has its steps as components. -/
theorem components_of_head {first : List Char} {rest : List (List Char)}
    (h : p.segments = first :: rest) (hfirst : isPadding first = false) :
    p.isAbsolute = false ∧ p.components = stepsOf p.segments := by
  have hne : first ≠ [] := by
    rintro rfl
    simp [isPadding] at hfirst
  have habs : p.isAbsolute = false := by
    rw [Bool.eq_false_iff]
    exact fun habs => hne ((isAbsolute_iff h).1 habs).1
  refine ⟨habs, ?_⟩
  rw [components_eq h, h, stepsOf_cons, leading, habs, hfirst]
  simp [hne]

/-- A name by itself is a path of one component. -/
theorem components_name {s : String} (h : (Component.name s).IsStep) :
    (⟨s⟩ : Path).components = [.name s] := by
  have hslash : '/' ∉ s.toList := h.no_slash
  have hsegments := segments_of_name hslash
  rw [(components_of_head hsegments h.not_padding).2, hsegments]
  exact stepsOf_texts (List.forall_mem_singleton.2 h)

/-- What follows a directory is relative, and its components are those that
remain, each of them a step. -/
theorem exists_below? (hstart : p.StartsWith base) (hbase : base.components ≠ []) :
    ∃ rest, p.below? base = some rest ∧ rest.isAbsolute = false ∧
      rest.components = p.components.drop base.components.length ∧
      stepsOf rest.segments = p.components.drop base.components.length := by
  obtain ⟨first, pieces, hsegs⟩ := p.exists_segments
  obtain ⟨n, hn⟩ : ∃ n, base.components.length = n + 1 :=
    Nat.exists_eq_succ_of_ne_zero (by simpa using hbase)
  have hne : p.text ≠ "" := by
    rw [← components_ne_nil_iff]
    rintro hnil
    rw [Path.StartsWith, hnil, List.prefix_nil] at hstart
    exact hbase hstart
  have hdrop : p.components.drop base.components.length = stepsOf (dropSegments n pieces) := by
    rw [components_of_text_ne hsegs hne, hn, List.drop_succ_cons, stepsOf_dropSegments]
  have hbelow : p.below? base = some
      ⟨String.ofList (joinWith '/' (trimPadding ((dropSegments n pieces).dropWhile isPadding)))⟩ := by
    rw [below?, if_pos hstart, hn, hsegs]
  have hkept : stepsOf (trimPadding ((dropSegments n pieces).dropWhile isPadding)) =
      stepsOf (dropSegments n pieces) := by
    rw [stepsOf_trimPadding, stepsOf_dropWhile]
  have hslash : ∀ s ∈ trimPadding ((dropSegments n pieces).dropWhile isPadding), '/' ∉ s := by
    intro s hs
    have hs := (List.dropWhile_sublist _).mem ((trimPadding_isPrefix _).subset hs)
    exact not_slash_of_mem_segments (p := p) (by simp [hsegs, mem_of_mem_dropSegments hs])
  refine ⟨_, hbelow, ?_⟩
  rw [hdrop, ← hkept]
  have hprefix := trimPadding_isPrefix ((dropSegments n pieces).dropWhile isPadding)
  have hhead := List.head?_dropWhile_not isPadding (dropSegments n pieces)
  generalize trimPadding ((dropSegments n pieces).dropWhile isPadding) = kept at hprefix hslash ⊢
  cases kept with
  | nil => exact ⟨by decide, by decide, by decide⟩
  | cons s kept =>
    have hsegments : (⟨String.ofList (joinWith '/' (s :: kept))⟩ : Path).segments = s :: kept := by
      rw [segments, String.toList_ofList]
      exact splitOn_joinWith (by simp) hslash
    -- the first piece that is kept is no padding, so no slash stands in front
    have hfirst : isPadding s = false := by
      obtain ⟨more, hmore⟩ := hprefix
      rw [← hmore] at hhead
      simpa using hhead
    obtain ⟨habs, hcs⟩ := components_of_head hsegments hfirst
    exact ⟨habs, by rw [hcs, hsegments], by rw [hsegments]⟩

theorem below?_eq_none (h : ¬p.StartsWith base) : p.below? base = none := by
  rw [below?, if_neg h]

theorem below?_eq_some (h : p.below? base = some q) (hbase : base.components ≠ []) :
    p.StartsWith base ∧ q.isAbsolute = false ∧
      q.components = p.components.drop base.components.length ∧
      stepsOf q.segments = p.components.drop base.components.length := by
  by_cases hstart : p.StartsWith base
  · obtain ⟨rest, hrest, hbelow⟩ := exists_below? hstart hbase
    obtain rfl := Option.some.inj (hrest.symm.trans h)
    exact ⟨hstart, hbelow⟩
  · rw [below?_eq_none hstart] at h
    simp at h

/-- Seen from nowhere, a path is itself up to its spelling. -/
theorem sameAs_of_below? (h : p.below? base = some q) (hbase : base.components = []) :
    q.SameAs p := by
  obtain ⟨first, rest, hsegs⟩ := p.exists_segments
  have hstart : p.StartsWith base := by
    rw [Path.StartsWith, hbase]
    exact List.nil_prefix
  simp only [below?, if_pos hstart, hbase, List.length_nil, hsegs] at h
  split at h
  · obtain rfl := Option.some.inj h
    rfl
  · next hne =>
    obtain rfl := Option.some.inj h
    have hfirst : '/' ∉ first := not_slash_of_mem_segments (p := p) (by simp [hsegs])
    have hrest : ∀ s ∈ trimPadding rest, '/' ∉ s := fun s hs =>
      not_slash_of_mem_segments (p := p) (by simp [hsegs, (trimPadding_isPrefix rest).subset hs])
    rw [Path.SameAs, components_ofSegments hfirst hrest, stepsOf_trimPadding,
      components_of_text_ne hsegs hne]

/-- What follows a directory is appended to any other path. -/
theorem components_join_below (h : p.below? base = some q) (hbase : base.components ≠ [])
    (root : Path) :
    (root.join q).components = root.components ++ p.components.drop base.components.length := by
  obtain ⟨-, hrel, hcs, hsteps⟩ := below?_eq_some h hbase
  by_cases htext : root.text = ""
  · rw [join_of_empty htext, hcs, components_eq_nil htext, List.nil_append]
  · rw [components_join hrel htext, hsteps]

end Vendoring.Path
