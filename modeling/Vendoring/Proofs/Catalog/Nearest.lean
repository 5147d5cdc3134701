/-
# The package that a loader sees

The name of a package can be read off the end of its root: the last name there, behind the
scope in front of it if there is one. So the package that a loader sees under a name has
that name, as long as the name is read off a specifier and the outermost package tree is not
itself called like a scope.

A loader looks for a name in the package trees beside the directories around it, innermost
first, and does not look beside a package tree. The catalog does the same with the packages
that it stores, and where there is none on the way the name stands for what it stands for
everywhere. So a package is seen from anywhere if and only if its name is known.
-/

import Vendoring.FileTree.Edit
import Vendoring.Proofs.Catalog.Listing
import Vendoring.Proofs.Catalog.Names
import Vendoring.Proofs.Resolver.Spelling
import Vendoring.Proofs.Specifier.Text

namespace Vendoring

open Text

namespace Catalog

variable {t : FileTree} {l : Loader} {root dir : Path} {c : Catalog} {p : Package}
  {raw name : String} {cs : List Component}

/-- The scope that a directory stands for, if it is called like one. -/
def scopeAt? (cs : List Component) : Option String :=
  match cs.getLast? with
  | some (.name s) => if startsWithChar s '@' then some s else none
  | _ => none

/-- The name of a package in a directory that may stand for a scope. -/
def qualified (scope : Option String) (name : String) : String :=
  match scope with
  | some s => s ++ "/" ++ name
  | none => name

theorem scopeAt?_concat_name (s : String) :
    scopeAt? (cs ++ [.name s]) = if startsWithChar s '@' then some s else none := by
  rw [scopeAt?, List.getLast?_concat]

theorem scopeAt?_packageTree : scopeAt? (cs ++ [.name packageTreeName]) = none := by
  rw [scopeAt?_concat_name, if_neg (by decide)]

/-- Only the outermost package tree can be called like a scope. -/
theorem IsTree.scopeAt? (h : IsTree t root dir) (hroot : scopeAt? root.components = none) :
    scopeAt? dir.components = none := by
  cases h with
  | outermost => exact hroot
  | nested _ _ => rw [isName_packageTreeName.components_div, scopeAt?_packageTree]

/-- A package is called by the last name of its root, behind the scope in front of it. -/
theorem IsEntered.exists_qualified (h : IsEntered t l root p)
    (hroot : scopeAt? root.components = none) :
    ∃ front inner, p.root.components = front ++ [.name inner] ∧
      p.name = qualified (scopeAt? front) inner ∧
      (scopeAt? front = none → startsWithChar inner '@' = false) := by
  obtain ⟨tree, name, dir, htree, hdir, rfl⟩ := h
  rcases mem_packageDirs hdir with ⟨hname, hplain, rfl⟩ |
    ⟨scope, inner, hscope, hinner, hat, rfl, rfl⟩
  · refine ⟨tree.components, name, hname.components_div tree, ?_, fun _ => hplain⟩
    show name = _
    rw [htree.scopeAt? hroot, qualified]
  · have hfront : scopeAt? (tree / scope : Path).components = some scope := by
      rw [hscope.components_div, scopeAt?_concat_name, if_pos hat]
    refine ⟨_, inner, hinner.components_div _, ?_, fun hnone => ?_⟩
    · show scope ++ "/" ++ inner = _
      rw [hfront, qualified]
    · rw [hfront] at hnone
      cases hnone

/-- What a name of a package means behind a package tree. The last two forms of a scoped name
lead out of the scope or to the scope itself. -/
theorem stepsOf_of_named (h : (Specifier.parse raw).packageName? = some name) :
    (⟨name⟩ : Path).isAbsolute = false ∧
      (Path.stepsOf (⟨name⟩ : Path).segments = [.name name] ∨
        ∃ scope inner : String, name = scope ++ "/" ++ inner ∧ startsWithChar scope '@' = true ∧
          (Path.stepsOf (⟨name⟩ : Path).segments = [.name scope, .name inner] ∨
            Path.stepsOf (⟨name⟩ : Path).segments = [.name scope, .up] ∨
            Path.stepsOf (⟨name⟩ : Path).segments = [.name scope])) := by
  rcases Specifier.exists_pieces_of_named h with ⟨hslash, hpadding, hup⟩ |
    ⟨scope, inner, rfl, hscope, hscopeSlash, hinnerSlash⟩
  · refine ⟨Path.isAbsolute_of_name hslash, .inl ?_⟩
    rw [Path.segments_of_name hslash, Path.stepsOf_name hpadding hup]
  · have hsegments : (⟨scope ++ "/" ++ inner⟩ : Path).segments =
        [scope.toList] ++ [inner.toList] := by
      rw [Path.segments, String.toList_append, String.toList_append, List.append_assoc,
        show "/".toList = ['/'] from rfl, List.singleton_append, splitOn_append_sep,
        splitOn_of_not_mem hscopeSlash, splitOn_of_not_mem hinnerSlash]
    have hpadding : Path.isPadding scope.toList = false := by
      rw [Path.isPadding, Bool.or_eq_false_iff, decide_eq_false_iff_not, decide_eq_false_iff_not]
      exact ⟨fun hnil => by simp [hnil] at hscope, fun hdot => by simp [hdot] at hscope⟩
    have hup : scope ≠ ".." := by
      rintro rfl
      simp at hscope
    have hsteps : Path.stepsOf (⟨scope ++ "/" ++ inner⟩ : Path).segments =
        .name scope :: Path.stepsOf [inner.toList] := by
      rw [hsegments, Path.stepsOf_append, Path.stepsOf_name hpadding hup, List.singleton_append]
    refine ⟨(Path.components_of_head hsegments hpadding).1,
      .inr ⟨scope, inner, rfl, decide_eq_true hscope, ?_⟩⟩
    rw [hsteps]
    cases hpad : Path.isPadding inner.toList with
    | true => exact .inr (.inr (by rw [Path.stepsOf_cons, if_pos hpad]; rfl))
    | false =>
      by_cases hdots : inner = ".."
      · exact .inr (.inl (by rw [hdots]; rfl))
      · exact .inl (by rw [Path.stepsOf_name hpad hdots])

/-- Whatever is installed under the name of a package is called so. -/
theorem qualified_of_named (h : (Specifier.parse raw).packageName? = some name)
    {front : List Component} {inner : String}
    (hplace : (dir / packageTreeName / name : Path).components = front ++ [.name inner])
    (hplain : scopeAt? front = none → startsWithChar inner '@' = false) :
    qualified (scopeAt? front) inner = name := by
  obtain ⟨hrelative, hsteps⟩ := stepsOf_of_named h
  have htext : (dir / packageTreeName).text ≠ "" := by
    rw [← Path.components_ne_nil_iff, isName_packageTreeName.components_div]
    simp
  have hcs : (dir / packageTreeName / name : Path).components =
      dir.components ++ [.name packageTreeName] ++ Path.stepsOf (⟨name⟩ : Path).segments := by
    rw [← isName_packageTreeName.components_div]
    exact Path.components_join hrelative htext
  rw [hcs] at hplace
  rcases hsteps with hsteps | ⟨scope, last, rfl, hscope, hsteps | hsteps | hsteps⟩
  · rw [hsteps] at hplace
    obtain ⟨rfl, hlast⟩ := List.append_inj' hplace rfl
    rw [scopeAt?_packageTree, qualified]
    exact (Component.name.inj (List.singleton_inj.1 hlast)).symm
  · rw [hsteps, List.append_cons] at hplace
    obtain ⟨rfl, hlast⟩ := List.append_inj' hplace rfl
    rw [scopeAt?_concat_name, if_pos hscope, qualified,
      Component.name.inj (List.singleton_inj.1 hlast)]
  · rw [hsteps, List.append_cons] at hplace
    cases (List.append_inj' hplace rfl).2
  · rw [hsteps] at hplace
    obtain ⟨rfl, hlast⟩ := List.append_inj' hplace rfl
    have hinner := hplain scopeAt?_packageTree
    rw [← Component.name.inj (List.singleton_inj.1 hlast), hscope] at hinner
    cases hinner

/-- The package that a loader sees under a name has that name. -/
theorem IsSurvey.name_of_nearest? (h : IsSurvey t l root c)
    (hroot : scopeAt? root.components = none)
    (hnamed : (Specifier.parse raw).packageName? = some name)
    (hp : c.nearest? name dir = some p) : p.name = name := by
  simp only [Catalog.nearest?] at hp
  rcases Option.or_eq_some_iff.1 hp with hp | ⟨-, hp⟩
  · obtain ⟨d, -, hd⟩ := List.exists_of_findSome?_eq_some hp
    obtain ⟨hsame, hentered⟩ := h.byRoot _ _ hd
    obtain ⟨front, inner, hfront, hname, hplain⟩ := hentered.exists_qualified hroot
    rw [hname]
    exact qualified_of_named hnamed (Eq.trans (Eq.symm hsame) hfront) hplain
  · exact (h.get? hp).1

/-! ## Looking around a directory -/

/-- The package is stored where a loader in the directory looks for the name: beside a
directory around it that is not itself a package tree. -/
structure IsSeenFrom (c : Catalog) (name : String) (dir place : Path) (p : Package) : Prop where
  mem : p ∈ c.packages
  around : dir.StartsWith place
  not_tree : place.endsWithName packageTreeName = false
  root : p.root.SameAs (place / packageTreeName / name)

/-- A place that a package at an absolute path is seen at has a component. -/
theorem IsSeenFrom.components_ne {place : Path} (h : IsSeenFrom c name dir place p)
    (hroot : p.root.isAbsolute = true) (hname : (⟨name⟩ : Path).isAbsolute = false) :
    place.components ≠ [] := by
  rw [Path.components_ne_nil_iff]
  intro hempty
  have hplace : place / packageTreeName = Path.mk packageTreeName := Path.join_of_empty hempty
  have htree : (Path.mk packageTreeName).components = [.name packageTreeName] := by decide
  have hcs : (Path.mk packageTreeName / name).components =
      (Path.mk packageTreeName).components ++ Path.stepsOf (Path.mk name).segments :=
    Path.components_join hname (by decide)
  have hroot' : p.root.components = (place / packageTreeName / name).components := h.root
  rw [Path.isAbsolute_iff_head, hroot', hplace, hcs, htree] at hroot
  simp at hroot

theorem IsSeenFrom.getElem? {place : Path} (h : IsSeenFrom c name dir place p)
    (hkeyed : c.IsKeyed) {d : Path} (hd : d.SameAs place) :
    c.byRoot[d / packageTreeName / name]? = some p := by
  rw [← hkeyed.mem_packages_iff.1 h.mem]
  exact (((hd.div _).div _).trans h.root.symm).getElem? c.byRoot

/-- Where packages lie at absolute paths, a look-up finds the one that is seen at the innermost
place, and goes by the name alone if none is seen. -/
theorem nearest?_cases (hkeyed : c.IsKeyed)
    (habsolute : ∀ p ∈ c.packages, p.root.isAbsolute = true)
    (hname : (⟨name⟩ : Path).isAbsolute = false) (dir : Path) :
    (∃ place p, c.nearest? name dir = some p ∧ IsSeenFrom c name dir place p ∧
        ∀ place' p', IsSeenFrom c name dir place' p' → place.StartsWith place') ∨
      c.nearest? name dir = c.get? name ∧ ∀ place p, ¬IsSeenFrom c name dir place p := by
  let places := dir.ancestors.filter fun d => !d.endsWithName packageTreeName
  let look := fun d : Path => c.byRoot[d / packageTreeName / name]?
  have hnearest : c.nearest? name dir = (places.findSome? look).or (c.get? name) := rfl
  -- whatever is seen is met among the places
  have hmet (place : Path) (p : Package) (h : IsSeenFrom c name dir place p) :
      ∃ d ∈ places, d.SameAs place ∧ look d = some p := by
    obtain ⟨d, hd, hsame⟩ :=
      Path.exists_mem_ancestors h.around (h.components_ne (habsolute p h.mem) hname)
    have htree : d.endsWithName packageTreeName = false :=
      (Path.SameAs.endsWithName hsame _).trans h.not_tree
    exact ⟨d, List.mem_filter.2 ⟨hd, by simp [htree]⟩, hsame, h.getElem? hkeyed hsame⟩
  cases hfound : places.findSome? look with
  | none =>
    refine .inr ⟨by rw [hnearest, hfound, Option.none_or], fun place p h => ?_⟩
    obtain ⟨d, hd, -, hlook⟩ := hmet place p h
    rw [List.findSome?_eq_none_iff.1 hfound d hd] at hlook
    cases hlook
  | some p =>
    obtain ⟨before, d, behind, hsplit, hlook, hbefore⟩ := List.findSome?_eq_some_iff.1 hfound
    have hd : d ∈ places := by simp [hsplit]
    obtain ⟨hancestor, htree⟩ := List.mem_filter.1 hd
    refine .inl ⟨d, p, by rw [hnearest, hfound, Option.some_or], ⟨?_, ?_, ?_, ?_⟩, ?_⟩
    · exact Catalog.mem_packages_iff.2 ⟨_, hlook⟩
    · exact Path.prefix_of_mem_ancestors hancestor
    · simpa using htree
    · exact hkeyed _ p hlook
    · intro place' p' h
      obtain ⟨d', hd', hsame, hlook'⟩ := hmet place' p' h
      rw [Path.StartsWith, ← hsame]
      have hpairs : (before ++ d :: behind).Pairwise fun d e => d.StartsWith e :=
        hsplit ▸ (Path.pairwise_ancestors dir).filter _
      rw [hsplit] at hd'
      rcases List.mem_append.1 hd' with hd' | hd'
      · rw [hbefore d' hd'] at hlook'
        cases hlook'
      · rcases List.mem_cons.1 hd' with rfl | hd'
        · exact List.prefix_rfl
        · exact (List.pairwise_cons.1 (List.pairwise_append.1 hpairs).2.1).1 d' hd'

section

variable (habsolute : root.isAbsolute = true) (htree : root.endsWithName packageTreeName = true)
  (hnamed : (Specifier.parse raw).packageName? = some name)

include habsolute htree hnamed

/-- From any directory a loader sees a package of the name if there is one: the one at the
innermost place around the directory, and otherwise the one that the name stands for. -/
theorem nearest?_survey (t : FileTree) (l : Loader) (dir : Path) :
    ((survey t l root).nearest? name dir).isSome = (survey t l root).contains name ∧
      (∀ p, (survey t l root).nearest? name dir = some p → p.name = name) ∧
      ((∃ place p, (survey t l root).nearest? name dir = some p ∧
          IsSeenFrom (survey t l root) name dir place p ∧
          ∀ place' p', IsSeenFrom (survey t l root) name dir place' p' →
            place.StartsWith place') ∨
        (survey t l root).nearest? name dir = (survey t l root).get? name ∧
          ∀ place p, ¬IsSeenFrom (survey t l root) name dir place p) := by
  have hsurvey := isSurvey_survey t l root
  have hscope : scopeAt? root.components = none := by
    rw [Path.endsWithName, decide_eq_true_eq] at htree
    rw [scopeAt?, htree]
    decide
  have hname (p : Package) (hp : (survey t l root).nearest? name dir = some p) : p.name = name :=
    hsurvey.name_of_nearest? hscope hnamed hp
  have hcases := nearest?_cases (isKeyed_survey t l root)
    (fun p hp => by
      obtain ⟨d, hd⟩ := Catalog.mem_packages_iff.1 hp
      exact ((hsurvey.byRoot d p hd).2.isAbsolute habsolute).1)
    (stepsOf_of_named hnamed).1 dir
  refine ⟨?_, hname, hcases⟩
  have hcontains : (survey t l root).contains name = ((survey t l root).get? name).isSome :=
    Std.TreeMap.contains_eq_isSome_getElem?
  rw [hcontains]
  rcases hcases with ⟨place, p, hp, hseen, -⟩ | ⟨hget, -⟩
  · -- what is seen is a stored package of the name, so the name stands for one
    rw [hp, Option.isSome_some, eq_comm, Option.isSome_iff_ne_none]
    exact fun hnone => (get?_survey_eq_none_iff t l root name).1 hnone p hseen.mem (hname p hp)
  · rw [hget]

end

/-- A package `@s/p` beside a package `q` that holds another one of that name. -/
def scopedTree : FileTree :=
  FileTree.ofEntries [(["node_modules"], .directory), (["node_modules", "@s"], .directory),
    (["node_modules", "@s", "p"], .directory), (["node_modules", "q"], .directory),
    (["node_modules", "q", "node_modules"], .directory),
    (["node_modules", "q", "node_modules", "@s"], .directory),
    (["node_modules", "q", "node_modules", "@s", "p"], .directory)]

/-- From inside `q` the inner one is seen. -/
theorem nearest?_survey_scoped :
    let c := survey scopedTree {} ⟨"/node_modules"⟩
    ∃ place p, c.nearest? "@s/p" ⟨"/node_modules/q/lib"⟩ = some p ∧ p.name = "@s/p" ∧
      c.contains "@s/p" = true ∧ IsSeenFrom c "@s/p" ⟨"/node_modules/q/lib"⟩ place p ∧
      place.StartsWith ⟨"/node_modules/q"⟩ := by
  intro c
  have hinner : ∃ p ∈ c.packages,
      p.root.SameAs (Path.mk "/node_modules/q" / packageTreeName / "@s/p") := by
    decide +kernel
  obtain ⟨inner, hmem, hroot⟩ := hinner
  have hinner : IsSeenFrom c "@s/p" ⟨"/node_modules/q/lib"⟩ ⟨"/node_modules/q"⟩ inner :=
    ⟨hmem, by decide, by decide, hroot⟩
  obtain ⟨hsome, hname, ⟨place, p, hp, hseen, hinnermost⟩ | ⟨-, hnone⟩⟩ :=
    nearest?_survey (by decide : (Path.mk "/node_modules").isAbsolute = true) (by decide)
      (by decide : (Specifier.parse "@s/p/x").packageName? = some "@s/p") scopedTree {}
      ⟨"/node_modules/q/lib"⟩
  · exact ⟨place, p, hp, hname p hp, by rw [← hsome, hp]; rfl, hseen, hinnermost _ inner hinner⟩
  · exact absurd hinner (hnone _ inner)

end Catalog

end Vendoring
