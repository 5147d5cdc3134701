/-
# The directories around a path

The enclosing directories of a path are read off its components, innermost
first: every proper beginning of the components that keeps the first one, and
the empty path behind them if the path is relative. Whatever is looked up around
a path by components is therefore the same for all its spellings.
-/

import Vendoring.Package
import Vendoring.Path.PackageTree
import Vendoring.Proofs.Path.Plain

namespace Vendoring

open Text

namespace Path

variable {p q : Path}

/-- The proper beginnings of a list that is given last first, longest first. -/
def beginnings : List Component → List (List Component)
  | [] => []
  | _ :: earlier => earlier.reverse :: beginnings earlier

/-- The components of the directories around a path with the given components. -/
def enclosing : List Component → List (List Component)
  | [] => []
  | c :: steps =>
    (beginnings steps.reverse).map (c :: ·) ++ if c = .root then [] else [[]]

theorem leadOf_eq_root_iff {first : List Char} : leadOf first = .root ↔ first = [] := by
  constructor
  · intro h
    unfold leadOf at h
    split at h
    · assumption
    · have htext := Component.text_ofSegment first
      rw [h] at htext
      exact htext.symm
  · rintro rfl
    rfl

theorem segments_ofSegments {first : List Char} {rest : List (List Char)}
    (hne : first ≠ [] ∨ rest ≠ []) (hfirst : '/' ∉ first) (hrest : ∀ s ∈ rest, '/' ∉ s) :
    (ofSegments first rest).segments = first :: rest := by
  have hlong : ¬((first = [] && rest.isEmpty) = true) := by
    rcases hne with h | h <;> simp [h]
  rw [ofSegments, if_neg hlong, segments, String.toList_ofList]
  refine splitOn_joinWith (by simp) fun s hs => ?_
  rcases List.mem_cons.1 hs with rfl | hs
  · exact hfirst
  · exact hrest s hs

theorem components_ofSegments {first : List Char} {rest : List (List Char)}
    (hfirst : '/' ∉ first) (hrest : ∀ s ∈ rest, '/' ∉ s) :
    (ofSegments first rest).components = leadOf first :: stepsOf rest := by
  by_cases hne : first ≠ [] ∨ rest ≠ []
  · have h := segments_ofSegments hne hfirst hrest
    exact components_of_text_ne h ((text_ne_empty_iff h).2 hne)
  · obtain ⟨rfl, rfl⟩ : first = [] ∧ rest = [] := by simpa using hne
    decide

theorem stepsOf_reverse (segments : List (List Char)) :
    stepsOf segments.reverse = (stepsOf segments).reverse := by
  simp [stepsOf]

theorem stepsOf_dropWhile (segments : List (List Char)) :
    stepsOf (segments.dropWhile isPadding) = stepsOf segments := by
  induction segments with
  | nil => rfl
  | cons s rest ih => by_cases hs : isPadding s <;> simp [stepsOf_cons, hs, ih]

theorem map_components_shorterOf {first : List Char} (hfirst : '/' ∉ first)
    {rev : List (List Char)} (hrev : ∀ s ∈ rev, '/' ∉ s) :
    (shorterOf first rev).map components = (beginnings (stepsOf rev)).map (leadOf first :: ·) := by
  induction rev with
  | nil => rfl
  | cons s earlier ih =>
    have hearlier : ∀ s ∈ earlier, '/' ∉ s := fun s hs => hrev s (List.mem_cons_of_mem _ hs)
    by_cases hs : isPadding s
    · simp [shorterOf, stepsOf_cons, hs, ih hearlier]
    · have hdropped : ∀ s ∈ (earlier.dropWhile isPadding).reverse, '/' ∉ s := fun s hs =>
        hearlier s ((List.dropWhile_sublist _).mem (List.mem_reverse.1 hs))
      simp [shorterOf, stepsOf_cons, hs, ih hearlier, beginnings,
        components_ofSegments hfirst hdropped, stepsOf_reverse, stepsOf_dropWhile]

/-- The directories around a path are decided by its components. -/
theorem map_components_parents (p : Path) : p.parents.map components = enclosing p.components := by
  obtain ⟨first, rest, h⟩ := p.exists_segments
  have hfirst : '/' ∉ first := not_slash_of_mem_segments (p := p) (by simp [h])
  have hrest : ∀ s ∈ rest.reverse, '/' ∉ s := fun s hs =>
    not_slash_of_mem_segments (p := p) (by simp_all)
  by_cases hne : p.text = ""
  · obtain ⟨text⟩ := p
    subst hne
    decide
  · have hend : (p.isAbsolute || first = []) = decide (leadOf first = .root) := by
      have habs := isAbsolute_iff h
      have hlong := (text_ne_empty_iff h).1 hne
      simp only [leadOf_eq_root_iff]
      by_cases hf : first = []
      · simp [hf]
      · have : p.isAbsolute = false := by
          rw [Bool.eq_false_iff]
          exact fun ht => hf (habs.1 ht).1
        simp [hf, this]
    rw [components_of_text_ne h hne, parents, h]
    simp only [List.map_append, map_components_shorterOf hfirst hrest, enclosing,
      ← stepsOf_reverse, hend]
    by_cases hroot : leadOf first = .root <;> simp [hroot, components_empty]

theorem map_components_ancestors (p : Path) :
    p.ancestors.map components = p.components :: enclosing p.components := by
  rw [ancestors, List.map_cons, map_components_parents]

theorem prefix_of_mem_beginnings {cs ds : List Component} (h : ds ∈ beginnings cs) :
    ds <+: cs.reverse := by
  induction cs with
  | nil => simp [beginnings] at h
  | cons c cs ih =>
    rw [List.reverse_cons]
    rcases List.mem_cons.1 h with rfl | h
    · exact List.prefix_append _ _
    · exact (ih h).trans (List.prefix_append _ _)

theorem prefix_of_mem_enclosing {cs ds : List Component} (h : ds ∈ enclosing cs) : ds <+: cs := by
  cases cs with
  | nil => simp [enclosing] at h
  | cons c steps =>
    rcases List.mem_append.1 h with h | h
    · obtain ⟨es, hes, rfl⟩ := List.mem_map.1 h
      have := prefix_of_mem_beginnings hes
      rw [List.reverse_reverse] at this
      exact (List.prefix_cons_inj c).2 this
    · split at h
      · simp at h
      · rw [List.mem_singleton.1 h]
        exact List.nil_prefix

/-- A directory around a path is a beginning of it. -/
theorem prefix_of_mem_ancestors {d : Path} (h : d ∈ p.ancestors) :
    d.components <+: p.components := by
  have hmem : d.components ∈ p.ancestors.map components := List.mem_map_of_mem h
  rw [map_components_ancestors] at hmem
  rcases List.mem_cons.1 hmem with heq | hmem
  · exact heq ▸ List.prefix_rfl
  · exact prefix_of_mem_enclosing hmem

theorem mem_beginnings {cs ds : List Component} (h : ds <+: cs.reverse) (hne : ds ≠ cs.reverse) :
    ds ∈ beginnings cs := by
  induction cs with
  | nil => exact absurd (List.prefix_nil.1 h) hne
  | cons c cs ih =>
    rw [List.reverse_cons] at h hne
    have h := (List.prefix_concat_iff.1 h).resolve_left hne
    by_cases hall : ds = cs.reverse
    · exact hall ▸ List.mem_cons_self
    · exact List.mem_cons_of_mem _ (ih h hall)

/-- Every beginning of a path with a component is a directory around it, or the path itself. -/
theorem exists_mem_ancestors {cs : List Component} (h : cs <+: p.components) (hne : cs ≠ []) :
    ∃ d ∈ p.ancestors, d.components = cs := by
  have hmem : cs ∈ p.ancestors.map components := by
    rw [map_components_ancestors]
    by_cases hall : cs = p.components
    · exact hall ▸ List.mem_cons_self
    · obtain ⟨c, steps, rfl⟩ := List.exists_cons_of_ne_nil hne
      obtain ⟨rest, hrest⟩ := h
      rw [← hrest, List.cons_append, enclosing]
      rw [← hrest, List.cons_append, List.cons.injEq, eq_self, true_and] at hall
      refine List.mem_cons_of_mem _ (List.mem_append_left _ (List.mem_map_of_mem ?_))
      exact mem_beginnings (by rw [List.reverse_reverse]; exact List.prefix_append _ _)
        (by rwa [List.reverse_reverse])
  obtain ⟨d, hd, hcs⟩ := List.mem_map.1 hmem
  exact ⟨d, hd, hcs⟩

theorem pairwise_beginnings (cs : List Component) :
    (beginnings cs).Pairwise fun ds es => es <+: ds := by
  induction cs with
  | nil => exact .nil
  | cons c cs ih => exact .cons (fun es hes => prefix_of_mem_beginnings hes) ih

/-- The directories around a path are met from the innermost to the outermost. -/
theorem pairwise_ancestors (p : Path) : p.ancestors.Pairwise fun d e => d.StartsWith e := by
  suffices h : (p.ancestors.map components).Pairwise fun ds es => es <+: ds from
    (List.pairwise_map.1 h).imp id
  rw [map_components_ancestors]
  refine .cons (fun es hes => prefix_of_mem_enclosing hes) ?_
  cases p.components with
  | nil => exact .nil
  | cons c steps =>
    refine List.pairwise_append.2 ⟨?_, ?_, fun ds _ es hes => ?_⟩
    · exact List.pairwise_map.2 ((pairwise_beginnings _).imp (List.prefix_cons_inj c).2)
    · split
      · exact .nil
      · exact List.pairwise_singleton _ _
    · split at hes
      · simp at hes
      · rw [List.mem_singleton.1 hes]
        exact List.nil_prefix

theorem isAbsolute_of_mem_ancestors (hp : p.isAbsolute = true) {d : Path}
    (h : d ∈ p.ancestors) : d.isAbsolute = true := by
  have hmem : d.components ∈ p.ancestors.map components := List.mem_map_of_mem h
  rw [map_components_ancestors] at hmem
  rw [isAbsolute_iff_head] at hp ⊢
  rcases List.mem_cons.1 hmem with heq | hmem
  · rw [heq, hp]
  · match hcs : p.components with
    | [] => simp [hcs] at hp
    | c :: steps =>
      obtain rfl : c = .root := by simpa [hcs] using hp
      rw [hcs, enclosing] at hmem
      obtain ⟨es, -, hes⟩ : ∃ es ∈ beginnings steps.reverse, .root :: es = d.components := by
        simpa using hmem
      simp [← hes]

theorem components_of_parent? {d : Path} (h : p.parent? = some d) :
    d.components = p.components.dropLast ∧ p.components ≠ [] := by
  have hhead : (p.parents.map components).head? = some d.components := by
    rw [List.head?_map]
    exact congrArg (Option.map components) h
  rw [map_components_parents] at hhead
  match hcs : p.components with
  | [] => simp [hcs, enclosing] at hhead
  | c :: steps =>
    rw [hcs, enclosing] at hhead
    cases hsteps : steps.reverse with
    | nil =>
      obtain rfl : steps = [] := by simpa using hsteps
      rw [hsteps, beginnings, List.map_nil, List.nil_append] at hhead
      split at hhead
      · simp at hhead
      · rw [List.head?_cons, Option.some.injEq] at hhead
        exact ⟨hhead.symm, by simp⟩
    | cons last earlier =>
      have hlast : steps = earlier.reverse ++ [last] := by
        rw [← List.reverse_reverse steps, hsteps, List.reverse_cons]
      rw [hsteps] at hhead
      simp only [beginnings, List.map_cons, List.cons_append, List.head?_cons,
        Option.some.injEq] at hhead
      refine ⟨?_, by simp⟩
      rw [← hhead, hlast, ← List.cons_append, List.dropLast_concat]

/-- The directory of a plain path is plain. -/
theorem IsPlain.parent? (hp : p.IsPlain) {d : Path} (h : p.parent? = some d) : d.IsPlain := by
  obtain ⟨first, rest, hsegs⟩ := p.exists_segments
  by_cases hroot : p = ⟨"/"⟩
  · rw [hroot, show (⟨"/"⟩ : Path).parent? = none by decide] at h
    simp at h
  · have hrest := hp.not_padding hroot hsegs
    have hfirst : '/' ∉ first := not_slash_of_mem_segments (p := p) (by simp [hsegs])
    have hslash : ∀ s ∈ rest, '/' ∉ s := fun s hs =>
      not_slash_of_mem_segments (p := p) (by simp [hsegs, hs])
    rw [Path.parent?, parents, hsegs] at h
    simp only at h
    cases hrev : rest.reverse with
    | nil =>
      rw [hrev, shorterOf, List.nil_append] at h
      split at h
      · simp at h
      · obtain rfl : (⟨""⟩ : Path) = d := by simpa using h
        decide
    | cons last earlier =>
      have hmem : ∀ s ∈ last :: earlier, s ∈ rest := fun s hs =>
        List.mem_reverse.1 (hrev ▸ hs)
      have hlast := hrest last (hmem last (by simp))
      have hdrop : earlier.dropWhile isPadding = earlier := by
        cases earlier with
        | nil => rfl
        | cons e es => simp [hrest e (hmem e (by simp))]
      rw [hrev, shorterOf, if_neg (by simp [hlast]), hdrop, List.cons_append, List.head?_cons,
        Option.some.injEq] at h
      rw [← h]
      by_cases hne : first ≠ [] ∨ earlier.reverse ≠ []
      · refine isPlain_of_segments (segments_ofSegments hne hfirst ?_) ?_
        · intro s hs
          exact hslash s (hmem s (List.mem_cons_of_mem _ (List.mem_reverse.1 hs)))
        · intro s hs
          exact hrest s (hmem s (List.mem_cons_of_mem _ (List.mem_reverse.1 hs)))
      · obtain ⟨rfl, hnil⟩ : first = [] ∧ earlier.reverse = [] := by simpa using hne
        rw [hnil]
        decide

/-! ## Looking around a path -/

/-- A search that goes by components finds the same in two lists of paths with
equal components. -/
theorem findSome?_congr {α : Type} {f : Path → Option α} {l l' : List Path}
    (hl : l.map components = l'.map components)
    (hf : ∀ d ∈ l, ∀ d', d.SameAs d' → f d = f d') : l.findSome? f = l'.findSome? f := by
  induction l generalizing l' with
  | nil =>
    cases l' with
    | nil => rfl
    | cons d' l' => simp at hl
  | cons d l ih =>
    cases l' with
    | nil => simp at hl
    | cons d' l' =>
      obtain ⟨hd, hl⟩ : d.components = d'.components ∧ l.map components = l'.map components := by
        simpa using hl
      rw [List.findSome?_cons, List.findSome?_cons, hf d (by simp) d' hd,
        ih hl fun e he => hf e (List.mem_cons_of_mem d he)]

theorem SameAs.map_ancestors (h : p.SameAs q) :
    p.ancestors.map components = q.ancestors.map components := by
  rw [map_components_ancestors, map_components_ancestors, h]

theorem SameAs.endsWithName (h : p.SameAs q) (name : String) :
    p.endsWithName name = q.endsWithName name := by
  rw [Path.endsWithName, Path.endsWithName, h]

theorem SameAs.getElem? {α : Type} (m : PathMap α) (h : p.SameAs q) : m[p]? = m[q]? :=
  Std.TreeMap.getElem?_congr (compare_eq_iff.2 h)

theorem SameAs.packageName? (h : p.SameAs q) : p.packageName? = q.packageName? := by
  rw [Path.packageName?, Path.packageName?, withinTree?, withinTree?, h]

theorem SameAs.fileName? (h : p.SameAs q) : p.fileName? = q.fileName? := by
  rw [Path.fileName?, Path.fileName?, h]

end Path

end Vendoring
