/-
# The trees of a survey

Which directories hold packages is said here by a rule, without an order in which they are
met. A package lies in a package tree under one name, or under two if the first one is a
scope, and it is called by these names. The package trees are the outermost one and those
directly inside packages, and the names of the packages around a tree lead to it. They can
be read off its path from the outermost tree inwards, so no directory is a package twice.
-/

import Mathlib.Data.List.Forall2
import Vendoring.Proofs.Catalog.Insertion
import Vendoring.Proofs.Catalog.Installed
import Vendoring.Proofs.FileTree.Edits

namespace Vendoring

/-- Names behind a path are its last components. -/
theorem FileTree.components_pathTo (p : Path) {names : Location} (h : ∀ s ∈ names, IsName s) :
    (pathTo p names).components = p.components ++ names.map .name := by
  induction names using List.reverseRecOn with
  | nil => simp
  | append_singleton names name ih =>
    rw [pathTo_concat, (h name (by simp)).components_div, ih fun s hs => h s (by simp [hs]),
      List.map_append, List.append_assoc]
    rfl

/-- Every location on the way to an entry is a key of its own, so an entry lies less deep
than there are entries. -/
theorem FileTree.length_lt_size {t : FileTree} {loc : Location} {e : Entry}
    (h : t.entry? loc = some e) : loc.length < t.entries.size := by
  have hmem (i : Nat) : loc.take i ∈ t.entries := by
    have hsome : (t.entry? (loc.take i ++ loc.drop i)).isSome = true := by
      rw [List.take_append_drop, h]
      rfl
    rw [Std.TreeMap.mem_iff_isSome_getElem?]
    by_cases hrest : loc.drop i = []
    · rwa [hrest, List.append_nil] at hsome
    · have hfront := entry?_of_below hrest hsome
      unfold entry? at hfront
      rw [hfront]
      rfl
  let fronts := (List.range (loc.length + 1)).map loc.take
  have hnodup : fronts.Nodup := by
    refine List.Nodup.map_on (fun i hi j hj heq => ?_) List.nodup_range
    have hlength := congrArg List.length heq
    rw [List.length_take, List.length_take] at hlength
    have hi := List.mem_range.1 hi
    have hj := List.mem_range.1 hj
    omega
  have hsubset : fronts ⊆ t.entries.keys := by
    intro front hfront
    obtain ⟨i, -, rfl⟩ := List.mem_map.1 hfront
    exact Std.TreeMap.mem_keys.2 (hmem i)
  have hle := (hnodup.subperm hsubset).length_le
  rw [List.length_map, List.length_range, Std.TreeMap.length_keys] at hle
  exact hle

namespace Catalog

open FileTree

variable (t : FileTree) (root : Path)

/-- A package of the name lies in the directory, which is directly inside the package tree or
inside a scope there. Nothing that is hidden is a package, and neither is a directory whose path
is too long to be looked up, or that lies in a scope whose path is. -/
inductive IsPackageDir (tree : Path) : String → Path → Prop
  | plain {name : String} : IsName name → startsWithChar name '.' = false →
      startsWithChar name '@' = false → t.isDirectory (tree / name) = true →
      IsPackageDir tree name (tree / name)
  | inScope {scope inner : String} : IsName scope → startsWithChar scope '@' = true →
      t.isDirectory (tree / scope) = true → IsName inner → startsWithChar inner '.' = false →
      t.isDirectory (tree / scope / inner) = true →
      IsPackageDir tree (scope ++ "/" ++ inner) (tree / scope / inner)

/-- The directory is a package tree inside packages of the given names, outermost first. A tree
whose path is too long to be looked up is none. -/
inductive IsTreeIn : List String → Path → Prop
  | outermost : t.isDirectory root = true → IsTreeIn [] root
  | nested {names : List String} {name : String} {tree dir : Path} : IsTreeIn names tree →
      IsPackageDir t tree name dir → t.isDirectory (dir / packageTreeName) = true →
      IsTreeIn (names ++ [name]) (dir / packageTreeName)

/-- A package of the name is installed in the directory, inside packages of the given
names. -/
def IsInstalled (names : List String) (name : String) (dir : Path) : Prop :=
  ∃ tree, IsTreeIn t root names tree ∧ IsPackageDir t tree name dir

variable {t root} {tree dir dir' : Path} {name name' : String} {names names' : List String}

theorem IsTreeIn.isDirectory (h : IsTreeIn t root names tree) : t.isDirectory tree = true := by
  cases h with
  | outermost hroot => exact hroot
  | nested _ _ hdir => exact hdir

/-- Behind a path that is no directory there are no trees. -/
theorem IsTreeIn.isDirectory_root (h : IsTreeIn t root names tree) :
    t.isDirectory root = true := by
  induction h with
  | outermost hroot => exact hroot
  | nested _ _ _ ih => exact ih

/-! ## Listing a tree -/

/-- Inside a directory, what can be looked up is listed. -/
theorem mem_subdirectories_iff (hdir : t.isDirectory dir = true) :
    name ∈ t.subdirectories dir ↔
      IsName name ∧ t.entry? (t.locationOf (dir / name)) = some .directory := by
  refine ⟨fun h => ⟨isName_of_mem_subdirectories h, entry?_of_mem_subdirectories h⟩, ?_⟩
  rintro ⟨hname, hentry⟩
  obtain ⟨loc, hloc, -⟩ := exists_locate_of_isDirectory hdir
  rw [locationOf_append_names [name] (hname.components_div dir), locationOf_of_locate hloc]
    at hentry
  simp only [subdirectories, hloc, List.mem_filterMap, Prod.exists]
  refine ⟨loc ++ [name], .directory, Std.TreeMap.mem_toList_iff_getElem?_eq_some.2 hentry, ?_⟩
  simp [locationBelow?]

theorem mem_visibleDirectories_iff (hdir : t.isDirectory dir = true) :
    name ∈ visibleDirectories t dir ↔
      IsName name ∧ startsWithChar name '.' = false ∧ t.isDirectory (dir / name) = true := by
  rw [visibleDirectories, List.mem_filter, mem_subdirectories_iff hdir, Bool.and_eq_true,
    Bool.not_eq_true']
  constructor
  · rintro ⟨⟨hname, -⟩, hvisible, hisDir⟩
    exact ⟨hname, hvisible, hisDir⟩
  · rintro ⟨hname, hvisible, hisDir⟩
    exact ⟨⟨hname, entry?_of_isDirectory hisDir⟩, hvisible, hisDir⟩

/-- The packages that are listed in a tree are those of the rule. -/
theorem mem_packageDirs_iff (htree : t.isDirectory tree = true) :
    (name, dir) ∈ packageDirs t tree ↔ IsPackageDir t tree name dir := by
  simp only [packageDirs, mem_sortBy, List.mem_flatMap, mem_visibleDirectories_iff htree]
  constructor
  · rintro ⟨first, ⟨hfirst, hvisible, hisDir⟩, hlisted⟩
    split at hlisted
    · next hscope =>
      obtain ⟨inner, hinner, heq⟩ := List.mem_map.1 hlisted
      obtain ⟨rfl, rfl⟩ := Prod.mk.inj heq
      obtain ⟨hname, hvisible', hisDir'⟩ := (mem_visibleDirectories_iff hisDir).1 hinner
      exact .inScope hfirst hscope hisDir hname hvisible' hisDir'
    · next hplain =>
      obtain ⟨rfl, rfl⟩ := Prod.mk.inj (List.mem_singleton.1 hlisted)
      exact .plain hfirst hvisible (by simpa using hplain) hisDir
  · rintro (⟨hname, hvisible, hplain, hisDir⟩ |
      @⟨scope, inner, hname, hscope, hisDir, hinner, hvisible, hisDir'⟩)
    · exact ⟨name, ⟨hname, hvisible, hisDir⟩, by simp [hplain]⟩
    · have hshown : startsWithChar scope '.' = false := by
        rw [startsWithChar, decide_eq_true_eq] at hscope
        simp [startsWithChar, hscope]
      refine ⟨scope, ⟨hname, hshown, hisDir⟩, ?_⟩
      rw [if_pos hscope]
      exact List.mem_map.2
        ⟨inner, (mem_visibleDirectories_iff hisDir).2 ⟨hinner, hvisible, hisDir'⟩, rfl⟩

/-! ## The names that lead to a package -/

/-- The pieces of the name of a package. -/
inductive IsMadeOf : String → List String → Prop
  | plain {name : String} : startsWithChar name '@' = false → IsMadeOf name [name]
  | inScope {scope inner : String} : startsWithChar scope '@' = true →
      IsMadeOf (scope ++ "/" ++ inner) [scope, inner]

/-- A name in front of other names ends where it has to. -/
theorem IsMadeOf.unique {pieces pieces' rest rest' : List String} (h : IsMadeOf name pieces)
    (h' : IsMadeOf name' pieces') (heq : pieces ++ rest = pieces' ++ rest') :
    name = name' ∧ rest = rest' := by
  cases h with
  | plain hplain =>
    cases h' with
    | plain _ => simpa using heq
    | inScope hscope =>
      obtain ⟨rfl, -⟩ : name = _ ∧ _ := by simpa using heq
      simp [hplain] at hscope
  | inScope hscope =>
    cases h' with
    | plain hplain =>
      obtain ⟨rfl, -⟩ : _ = name' ∧ _ := by simpa using heq
      simp [hplain] at hscope
    | inScope _ =>
      obtain ⟨rfl, rfl, hrest⟩ : _ = _ ∧ _ = _ ∧ rest = rest' := by simpa using heq
      exact ⟨rfl, hrest⟩

theorem IsPackageDir.exists_pieces (h : IsPackageDir t tree name dir) :
    ∃ pieces, IsMadeOf name pieces ∧ (∀ s ∈ pieces, IsName s) ∧ dir = pathTo tree pieces := by
  cases h with
  | plain hname _ hplain _ => exact ⟨[name], .plain hplain, by simpa using hname, rfl⟩
  | @inScope scope inner hname hscope _ hinner _ _ =>
    exact ⟨[scope, inner], .inScope hscope, by simp [hname, hinner], rfl⟩

/-- The pieces of some names, each followed by the package tree inside that package. -/
def throughTrees (pieces : List (List String)) : List String :=
  pieces.flatMap (· ++ [packageTreeName])

theorem IsTreeIn.exists_pieces (h : IsTreeIn t root names tree) :
    ∃ pieces, List.Forall₂ IsMadeOf names pieces ∧ (∀ s ∈ throughTrees pieces, IsName s) ∧
      tree = pathTo root (throughTrees pieces) := by
  induction h with
  | outermost => exact ⟨[], .nil, by simp [throughTrees], rfl⟩
  | nested _ hdir _ ih =>
    obtain ⟨pieces, hmade, hnames, rfl⟩ := ih
    obtain ⟨last, hlast, hlastNames, rfl⟩ := hdir.exists_pieces
    have hsplit : throughTrees (pieces ++ [last]) =
        throughTrees pieces ++ (last ++ [packageTreeName]) := by simp [throughTrees]
    refine ⟨pieces ++ [last], List.rel_append hmade (.cons hlast .nil), ?_, ?_⟩
    · rw [hsplit]
      intro s hs
      rcases List.mem_append.1 hs with hs | hs
      · exact hnames s hs
      · rcases List.mem_append.1 hs with hs | hs
        · exact hlastNames s hs
        · exact List.mem_singleton.1 hs ▸ isName_packageTreeName
    · rw [hsplit, pathTo, pathTo, pathTo, List.foldl_append, List.foldl_append]
      rfl

theorem length_throughTrees (pieces : List (List String)) :
    pieces.length ≤ (throughTrees pieces).length := by
  induction pieces with
  | nil => simp [throughTrees]
  | cons first pieces ih =>
    rw [throughTrees, List.flatMap_cons, List.length_append, List.length_append,
      List.length_singleton, List.length_cons, ← throughTrees]
    omega

/-- There are fewer packages around a tree than entries. -/
theorem IsTreeIn.length_lt_size (h : IsTreeIn t root names tree) :
    names.length < t.entries.size := by
  obtain ⟨pieces, hmade, hnames, htree⟩ := h.exists_pieces
  have hentry := entry?_of_isDirectory h.isDirectory
  rw [locationOf_append_names _ (htree ▸ components_pathTo root hnames)] at hentry
  have hdeep := FileTree.length_lt_size hentry
  rw [List.length_append] at hdeep
  have hlong := length_throughTrees pieces
  rw [hmade.length_eq]
  omega

/-- The names on the way from the outermost tree to a package tell which packages enclose it
and what it is called. -/
theorem eq_of_throughTrees {pieces pieces' : List (List String)} {last last' : List String}
    (h : List.Forall₂ IsMadeOf names pieces) (h' : List.Forall₂ IsMadeOf names' pieces')
    (hlast : IsMadeOf name last) (hlast' : IsMadeOf name' last')
    (heq : throughTrees pieces ++ last = throughTrees pieces' ++ last') :
    names = names' ∧ name = name' := by
  have hcons (first : List String) (pieces : List (List String)) (last : List String) :
      throughTrees (first :: pieces) ++ last =
        first ++ packageTreeName :: (throughTrees pieces ++ last) := by simp [throughTrees]
  induction h generalizing names' pieces' with
  | nil =>
    cases h' with
    | nil =>
      have hends : last ++ [] = last' ++ [] := by simpa [throughTrees] using heq
      exact ⟨rfl, (hlast.unique hlast' hends).1⟩
    | @cons _ first' _ others' hfirst' _ =>
      have hends : last ++ [] = first' ++ packageTreeName :: (throughTrees others' ++ last') := by
        rw [← hcons, ← heq, List.append_nil]
        rfl
      cases (hlast.unique hfirst' hends).2
  | @cons _ first _ others hfirst _ ih =>
    cases h' with
    | nil =>
      have hends : first ++ packageTreeName :: (throughTrees others ++ last) = last' ++ [] := by
        rw [← hcons, heq, List.append_nil]
        rfl
      cases (hfirst.unique hlast' hends).2
    | cons hfirst' hrest' =>
      rw [hcons, hcons] at heq
      obtain ⟨rfl, hrest⟩ := hfirst.unique hfirst' heq
      obtain ⟨rfl, hname⟩ := ih hrest' (List.cons.inj hrest).2
      exact ⟨rfl, hname⟩

theorem IsInstalled.exists_pieces (h : IsInstalled t root names name dir) :
    ∃ pieces last, List.Forall₂ IsMadeOf names pieces ∧ IsMadeOf name last ∧
      dir = pathTo root (throughTrees pieces ++ last) ∧
      dir.components = root.components ++ (throughTrees pieces ++ last).map .name := by
  obtain ⟨tree, htree, hdir⟩ := h
  obtain ⟨pieces, hmade, hnames, rfl⟩ := htree.exists_pieces
  obtain ⟨last, hlast, hlastNames, rfl⟩ := hdir.exists_pieces
  have hpath : pathTo (pathTo root (throughTrees pieces)) last =
      pathTo root (throughTrees pieces ++ last) := by
    rw [pathTo, pathTo, pathTo, List.foldl_append]
  have hall : ∀ s ∈ throughTrees pieces ++ last, IsName s := by
    intro s hs
    rcases List.mem_append.1 hs with hs | hs
    · exact hnames s hs
    · exact hlastNames s hs
  refine ⟨pieces, last, hmade, hlast, hpath, ?_⟩
  rw [hpath]
  exact components_pathTo root hall

/-- A directory is the place of one package only, however its path is spelled. -/
theorem IsInstalled.unique (h : IsInstalled t root names name dir)
    (h' : IsInstalled t root names' name' dir') (hsame : dir.SameAs dir') :
    names = names' ∧ name = name' ∧ dir = dir' := by
  obtain ⟨pieces, last, hmade, hlast, hdir, hcs⟩ := h.exists_pieces
  obtain ⟨pieces', last', hmade', hlast', hdir', hcs'⟩ := h'.exists_pieces
  have hway : throughTrees pieces ++ last = throughTrees pieces' ++ last' := by
    rw [Path.SameAs, hcs, hcs'] at hsame
    exact List.map_injective_iff.2 (fun _ _ => Component.name.inj) (List.append_cancel_left hsame)
  obtain ⟨hnames, hname⟩ := eq_of_throughTrees hmade hmade' hlast hlast' hway
  exact ⟨hnames, hname, by rw [hdir, hdir', hway]⟩

end Catalog

end Vendoring
