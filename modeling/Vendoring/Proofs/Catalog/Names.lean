/-
# The names of packages

The name of a package is made of the names of directories, so as a path it is a
relative one and goes down only. So is every name under which a file of a package is
reached.
-/

import Vendoring.Proofs.Catalog.Installed
import Vendoring.Proofs.Resolver.Targets

namespace Vendoring

open Catalog Text

variable {t : FileTree} {l : Loader} {root : Path}

theorem IsName.isStep {s : String} (h : IsName s) : (Component.name s).IsStep :=
  Path.isStep_name h.no_slash h.not_padding h.2.2.1

/-- A package is called like a directory, or like a directory in a scope. -/
inductive IsPackageName : String → Prop
  | plain {name : String} : (Component.name name).IsStep → IsPackageName name
  | inScope {scope inner : String} : (Component.name scope).IsStep →
      (Component.name inner).IsStep → IsPackageName (scope ++ "/" ++ inner)

namespace IsPackageName

variable {name : String}

theorem exists_segments (h : IsPackageName name) : ∃ first rest,
    (∀ s ∈ first :: rest, (Component.name s).IsStep) ∧
      (⟨name⟩ : Path).segments = (first :: rest).map String.toList := by
  cases h with
  | plain hname => exact ⟨name, [], by simpa using hname, Path.segments_of_name hname.no_slash⟩
  | @inScope scope inner hscope hinner =>
    have hscopeSlash : '/' ∉ scope.toList := hscope.no_slash
    have hinnerSlash : '/' ∉ inner.toList := hinner.no_slash
    refine ⟨scope, [inner], by simp [hscope, hinner], ?_⟩
    rw [Path.segments, String.toList_append, String.toList_append, List.append_assoc,
      show "/".toList = ['/'] from rfl, List.singleton_append, splitOn_append_sep,
      splitOn_of_not_mem hscopeSlash, splitOn_of_not_mem hinnerSlash]
    rfl

theorem isAbsolute (h : IsPackageName name) : (⟨name⟩ : Path).isAbsolute = false := by
  obtain ⟨first, rest, hsteps, hsegments⟩ := h.exists_segments
  exact (Path.components_of_head hsegments (hsteps first (by simp)).not_padding).1

theorem ne_empty (h : IsPackageName name) : name ≠ "" := by
  rintro rfl
  obtain ⟨first, rest, hsteps, hsegments⟩ := h.exists_segments
  have hpadding := (hsteps first (by simp)).not_padding
  obtain ⟨hfirst, -⟩ := List.cons.inj hsegments
  simp [← show ([] : List Char) = first.toList from hfirst, Component.text, Path.isPadding]
    at hpadding

/-- No step up is written in the name of a package. -/
theorem exists_stepsOf (h : IsPackageName name) :
    ∃ names : List String, Path.stepsOf (⟨name⟩ : Path).segments = names.map .name := by
  obtain ⟨first, rest, hsteps, hsegments⟩ := h.exists_segments
  refine ⟨first :: rest, ?_⟩
  have htexts : (first :: rest).map String.toList =
      ((first :: rest).map Component.name).map fun c => c.text.toList := by
    rw [List.map_map]
    rfl
  rw [hsegments, htexts, Path.stepsOf_texts]
  intro c hc
  obtain ⟨s, hs, rfl⟩ := List.mem_map.1 hc
  exact hsteps s hs

end IsPackageName

theorem Catalog.IsEntered.isPackageName {p : Package} (h : IsEntered t l root p) :
    IsPackageName p.name := by
  obtain ⟨tree, name, dir, -, hdir, rfl⟩ := h
  rcases mem_packageDirs hdir with ⟨hname, -, -⟩ | ⟨scope, inner, hscope, hinner, -, rfl, -⟩
  · exact .plain hname.isStep
  · exact .inScope hscope.isStep hinner.isStep

/-- A path names a package by one or two of its own names. -/
theorem Path.isPackageName_packageName? {p : Path} {name : String}
    (h : p.packageName? = some name) : IsPackageName name := by
  unfold Path.packageName? Path.withinTree? at h
  cases hsplit : splitAtTree p.components with
  | none => simp [hsplit] at h
  | some split =>
    obtain ⟨tree, within⟩ := split
    have hsteps := isStep_of_splitAtTree hsplit
    cases hwithin : within with
    | nil => simp [hsplit, hwithin] at h
    | cons c cs =>
      have hspelled : IsSpelled (c :: cs) := isSpelled_of_isStep (hwithin ▸ hsteps)
      simp only [hsplit, hwithin, Option.map_some, components_ofComponents hspelled] at h
      have hnames : ∀ s ∈ namesOf (c :: cs), (Component.name s).IsStep := by
        intro s hs
        obtain ⟨d, hd, hname⟩ := List.mem_filterMap.1 hs
        cases d with
        | name text =>
          obtain rfl := Option.some.inj hname
          exact hsteps _ (hwithin ▸ hd)
        | _ => simp at hname
      cases hfirst : namesOf (c :: cs) with
      | nil => simp [hfirst] at h
      | cons first rest =>
        simp only [hfirst] at h hnames
        split at h
        · obtain ⟨second, hsecond, rfl⟩ := Option.map_eq_some_iff.1 h
          exact .inScope (hnames first (by simp))
            (hnames second (List.mem_cons_of_mem first (List.mem_of_mem_head? hsecond)))
        · obtain rfl := Option.some.inj h
          exact .plain (hnames first (by simp))

namespace Resolver

variable {r : Resolver} (hsurvey : IsSurvey t l root r.catalog)

include hsurvey

theorem isPackageName_packageOf? {file : Path} {name : String}
    (h : r.packageOf? file = some name) : IsPackageName name := by
  rcases Option.or_eq_some_iff.1 h with h | ⟨-, h⟩
  · obtain ⟨p, hp, rfl⟩ := Option.map_eq_some_iff.1 h
    exact (hsurvey.owner? hp).1.isPackageName
  · exact Path.isPackageName_packageName? h

theorem isEntered_of_componentPath? {specifier : String} {manifest dir path : Path} {p : Package}
    (h : r.componentPath? specifier manifest dir = some (p, path)) : IsEntered t l root p := by
  rcases componentPath?_eq_some h with ⟨name, hp, -⟩ | ⟨hp, -⟩
  · exact hsurvey.nearest? hp
  · exact (hsurvey.owner? hp).1

/-- Whatever package a component is said to belong to, it has a package's name. -/
theorem isPackageName_of_resolveComponent? {specifier : String} {manifest : Path}
    {ref : ComponentRef} (h : r.resolveComponent? specifier manifest = some ref) :
    IsPackageName ref.package := by
  unfold resolveComponent? at h
  simp only [Option.pure_def, Option.bind_eq_bind, Option.bind_eq_some_iff] at h
  obtain ⟨dir, -, ⟨p, path⟩, hpath, directory, -, h⟩ := h
  split at h
  · obtain rfl := Option.some.inj h
    cases howner : r.catalog.owner? path.normalize with
    | none =>
      simpa [howner] using (isEntered_of_componentPath? hsurvey hpath).isPackageName
    | some owner =>
      simpa [howner] using (hsurvey.owner? howner).1.isPackageName
  · simp at h

end Resolver

end Vendoring
