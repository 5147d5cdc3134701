/-
# The order of a survey

A survey goes through the trees level by level and through the packages of a tree by name.
So it meets every package once and in a fixed order: packages with fewer packages around
them come first, and among those with equally many the names around them decide, outermost
first. A name keeps the package that is entered first, so it stands for the one that is
first in this order.
-/

import Mathlib.Data.List.Shortlex
import Vendoring.Proofs.Catalog.Trees

namespace Vendoring.Catalog

open FileTree Text

/-- A place where a package is installed, with the names of the packages around it. -/
structure Site where
  /-- The names of the packages around it, outermost first. -/
  around : List String
  /-- The name of the package. -/
  name : String
  /-- The directory of the package. -/
  dir : Path

variable (t : FileTree) (l : Loader) {root : Path}

/-- What is entered for a site. -/
def Site.package (s : Site) : Package :=
  readPackage t l s.name s.dir

/-- The order in which sites are met. -/
def Site.Precedes (s s' : Site) : Prop :=
  List.Shortlex (· < ·) s.around s'.around ∨ s.around = s'.around ∧ s.name < s'.name

/-- The sites in a package tree, which is given with the names of the packages around it. -/
def sitesIn (tree : List String × Path) : List Site :=
  (packageDirs t tree.2).map fun (name, dir) => ⟨tree.1, name, dir⟩

/-- The trees inside the packages of a tree. -/
def treesIn (tree : List String × Path) : List (List String × Path) :=
  ((sitesIn t tree).map fun s => (s.around ++ [s.name], s.dir / packageTreeName)).filter
    fun tree => t.isDirectory tree.2

/-- The sites of some trees, then those of the trees inside them, and so on for the given
number of levels. -/
def sites : Nat → List (List String × Path) → List Site
  | 0, _ => []
  | levels + 1, trees => trees.flatMap (sitesIn t) ++ sites levels (trees.flatMap (treesIn t))

theorem sites_nil (levels : Nat) : sites t levels [] = [] := by
  induction levels with
  | zero => rfl
  | succ levels ih => simpa [sites] using ih

/-! ## Entering the sites -/

theorem enterTree_eq (c : Catalog) (tree : List String × Path) :
    enterTree t l c tree.2 = ((sitesIn t tree).map (Site.package t l)).foldl insert c := by
  rw [enterTree, sitesIn, List.map_map, List.foldl_map]
  rfl

theorem nestedTrees_eq (tree : List String × Path) :
    nestedTrees t tree.2 = (treesIn t tree).map (·.2) := by
  simp only [nestedTrees, treesIn, sitesIn, List.filter_map, List.map_map]
  rfl

/-- A survey enters the packages of its sites one after the other. -/
theorem enterLevels_eq (levels : Nat) (trees : List (List String × Path)) (c : Catalog) :
    enterLevels t l levels (trees.map (·.2)) c =
      ((sites t levels trees).map (Site.package t l)).foldl insert c := by
  induction levels generalizing trees c with
  | zero => rfl
  | succ levels ih =>
    rw [enterLevels]
    split
    · next hnone =>
      rw [List.map_eq_nil_iff.1 hnone, sites_nil]
      rfl
    · have hnext : (trees.map (·.2)).flatMap (nestedTrees t) =
          (trees.flatMap (treesIn t)).map (·.2) := by
        rw [List.flatMap_map, List.map_flatMap]
        exact List.flatMap_congr fun tree _ => nestedTrees_eq t tree
      have hentered : (trees.map (·.2)).foldl (enterTree t l) c =
          ((trees.flatMap (sitesIn t)).map (Site.package t l)).foldl insert c := by
        rw [List.map_flatMap, List.foldl_flatMap, List.foldl_map]
        simp only [enterTree_eq]
      rw [hnext, ih, hentered, sites, List.map_append, List.foldl_append]

/-! ## Which sites are met -/

variable {t}

/-- The trees are those inside the given number of packages. -/
def IsLevel (t : FileTree) (root : Path) (depth : Nat) (trees : List (List String × Path)) : Prop :=
  ∀ names tree, (names, tree) ∈ trees ↔ IsTreeIn t root names tree ∧ names.length = depth

variable {depth levels : Nat} {trees : List (List String × Path)}

theorem isLevel_outermost (h : t.isDirectory root = true) : IsLevel t root 0 [([], root)] := by
  intro names tree
  rw [List.mem_singleton, Prod.mk.injEq, List.length_eq_zero_iff]
  constructor
  · rintro ⟨rfl, rfl⟩
    exact ⟨.outermost h, rfl⟩
  · rintro ⟨htree, rfl⟩
    generalize hnames : ([] : List String) = names at htree
    cases htree with
    | outermost _ => exact ⟨rfl, rfl⟩
    | nested _ _ _ => simp at hnames

theorem IsLevel.mem_sitesIn (h : IsLevel t root depth trees) {s : Site} :
    s ∈ trees.flatMap (sitesIn t) ↔
      IsInstalled t root s.around s.name s.dir ∧ s.around.length = depth := by
  simp only [List.mem_flatMap, sitesIn, List.mem_map, Prod.exists]
  constructor
  · rintro ⟨names, tree, htree, name, dir, hdir, rfl⟩
    obtain ⟨htree, hdepth⟩ := (h names tree).1 htree
    exact ⟨⟨tree, htree, (mem_packageDirs_iff htree.isDirectory).1 hdir⟩, hdepth⟩
  · rintro ⟨⟨tree, htree, hdir⟩, hdepth⟩
    exact ⟨s.around, tree, (h s.around tree).2 ⟨htree, hdepth⟩, s.name, s.dir,
      (mem_packageDirs_iff htree.isDirectory).2 hdir, rfl⟩

theorem IsLevel.next (h : IsLevel t root depth trees) :
    IsLevel t root (depth + 1) (trees.flatMap (treesIn t)) := by
  have hmem (names : List String) (tree : Path) : (names, tree) ∈ trees.flatMap (treesIn t) ↔
      ∃ s ∈ trees.flatMap (sitesIn t), names = s.around ++ [s.name] ∧
        tree = s.dir / packageTreeName ∧ t.isDirectory tree = true := by
    simp only [treesIn, List.mem_flatMap, List.mem_filter, List.mem_map, Prod.mk.injEq]
    constructor
    · rintro ⟨outer, houter, ⟨s, hs, rfl, rfl⟩, hisDir⟩
      exact ⟨s, ⟨outer, houter, hs⟩, rfl, rfl, hisDir⟩
    · rintro ⟨s, ⟨outer, houter, hs⟩, rfl, rfl, hisDir⟩
      exact ⟨outer, houter, ⟨s, hs, rfl, rfl⟩, hisDir⟩
  intro names tree
  rw [hmem]
  constructor
  · rintro ⟨s, hs, rfl, rfl, hisDir⟩
    obtain ⟨⟨outer, houter, hdir⟩, hdepth⟩ := h.mem_sitesIn.1 hs
    exact ⟨.nested houter hdir hisDir, by simp [hdepth]⟩
  · rintro ⟨htree, hdepth⟩
    cases htree with
    | outermost _ => simp at hdepth
    | @nested around name outer dir houter hdir hisDir =>
      refine ⟨⟨around, name, dir⟩, h.mem_sitesIn.2 ⟨⟨outer, houter, hdir⟩, ?_⟩, rfl, rfl, hisDir⟩
      simpa using hdepth

/-- The sites of some levels are the installed packages with so many packages around them. -/
theorem IsLevel.mem_sites (h : IsLevel t root depth trees) {s : Site} :
    s ∈ sites t levels trees ↔ IsInstalled t root s.around s.name s.dir ∧
      depth ≤ s.around.length ∧ s.around.length < depth + levels := by
  induction levels generalizing depth trees with
  | zero =>
    simp only [sites, List.not_mem_nil, false_iff]
    omega
  | succ levels ih =>
    rw [sites, List.mem_append, h.mem_sitesIn, ih h.next, ← and_or_left]
    refine and_congr_right fun _ => ?_
    omega

/-! ## In which order they are met -/

theorem nodup_subdirectories (dir : Path) : (t.subdirectories dir).Nodup := by
  unfold subdirectories
  split
  · exact List.nodup_nil
  · next loc _ =>
    -- a name is listed for the entry behind it, and no two entries share a location
    refine List.pairwise_filterMap.2 (Std.TreeMap.distinct_keys_toList.imp ?_)
    rintro ⟨first, e⟩ ⟨second, e'⟩ hdistinct name hfirst _ hsecond rfl
    refine hdistinct (Std.LawfulEqCmp.compare_eq_iff_eq.2 ?_)
    simp only at hfirst hsecond ⊢
    split at hfirst
    · next hfirstBelow =>
      obtain rfl := Option.some.inj hfirst
      split at hsecond
      · next hsecondBelow =>
        obtain rfl := Option.some.inj hsecond
        rw [FileTree.eq_append_of_locationBelow? hfirstBelow,
          FileTree.eq_append_of_locationBelow? hsecondBelow]
      · simp at hsecond
    · simp at hfirst

/-- The first piece of a package's name is that of the directory in the tree. -/
theorem takeWhile_scope {scope inner : String} (h : '/' ∉ scope.toList) :
    (scope ++ "/" ++ inner).toList.takeWhile (· ≠ '/') = scope.toList := by
  have hall : ∀ c ∈ scope.toList, decide (c ≠ '/') = true := fun c hc =>
    decide_eq_true fun heq => h (heq ▸ hc)
  rw [String.toList_append, String.toList_append, List.append_assoc,
    List.takeWhile_append_of_pos hall]
  simp

/-- No name of a package is listed twice in a tree. -/
theorem pairwise_ne_packageDirs (tree : Path) :
    (packageDirs t tree).Pairwise fun a b => a.1 ≠ b.1 := by
  have hvisible (dir : Path) : (visibleDirectories t dir).Nodup :=
    (nodup_subdirectories dir).filter _
  have hname {dir : Path} {name : String} (h : name ∈ visibleDirectories t dir) : IsName name :=
    isName_of_mem_subdirectories (List.mem_filter.1 h).1
  rw [packageDirs, (sortBy_perm _).pairwise_iff fun h => h.symm, List.pairwise_flatMap]
  constructor
  · intro first hfirst
    split
    · refine List.pairwise_map.2 ((hvisible _).imp fun hne heq => hne ?_)
      exact (String.append_right_inj _).1 heq
    · exact List.pairwise_singleton _ _
  · -- packages whose names share the first piece come from one directory of the tree
    have hpiece {first : String} {package : String × Path} (hfirst : IsName first)
        (hpackage : package ∈ if startsWithChar first '@' then
          (visibleDirectories t (tree / first)).map fun inner =>
            (first ++ "/" ++ inner, tree / first / inner)
        else [(first, tree / first)]) :
        package.1.toList.takeWhile (· ≠ '/') = first.toList := by
      split at hpackage
      · obtain ⟨inner, -, rfl⟩ := List.mem_map.1 hpackage
        exact takeWhile_scope hfirst.no_slash
      · rw [List.mem_singleton.1 hpackage, List.takeWhile_eq_self_iff]
        exact fun c hc => decide_eq_true fun heq => hfirst.no_slash (heq ▸ hc)
    refine (hvisible tree).imp_of_mem fun hfirst hsecond hne a ha b hb heq => hne ?_
    refine String.toList_injective ?_
    rw [← hpiece (hname hfirst) ha, ← hpiece (hname hsecond) hb, heq]

/-- The packages of a tree are listed by name. -/
theorem pairwise_lt_packageDirs (tree : Path) :
    (packageDirs t tree).Pairwise fun a b => a.1 < b.1 := by
  have hsorted : (packageDirs t tree).Pairwise fun a b => decide (a.1 ≤ b.1) = true := by
    refine pairwise_sortBy (fun a b c hab hbc => ?_) (fun a b => ?_) _
    · exact decide_eq_true (String.le_trans (of_decide_eq_true hab) (of_decide_eq_true hbc))
    · simpa using String.le_total a.1 b.1
  refine (hsorted.and (pairwise_ne_packageDirs tree)).imp ?_
  rintro a b ⟨hle, hne⟩
  exact String.not_le.1 fun hge => hne (String.le_antisymm (of_decide_eq_true hle) hge)

/-- Behind names that differ within equal length, anything may follow. -/
theorem lex_append {a b : List String} (h : List.Lex (· < ·) a b) (hlength : a.length = b.length)
    (x y : List String) : List.Lex (· < ·) (a ++ x) (b ++ y) := by
  induction h with
  | nil => simp at hlength
  | rel hlt => exact .rel hlt
  | cons _ ih => exact .cons (ih (by simpa using hlength))

/-- The names around the trees ascend. -/
def IsAscending (trees : List (List String × Path)) : Prop :=
  trees.Pairwise fun a b => List.Lex (· < ·) a.1 b.1

theorem around_of_mem_sitesIn {tree : List String × Path} {s : Site} (h : s ∈ sitesIn t tree) :
    s.around = tree.1 := by
  obtain ⟨n, -, rfl⟩ := List.mem_map.1 h
  rfl

theorem pairwise_sitesIn (tree : List String × Path) :
    (sitesIn t tree).Pairwise fun s s' => s.name < s'.name :=
  List.pairwise_map.2 (pairwise_lt_packageDirs tree.2)

theorem IsLevel.isAscending_next (hlevel : IsLevel t root depth trees)
    (h : IsAscending trees) : IsAscending (trees.flatMap (treesIn t)) := by
  have hnames {tree inner : List String × Path} (hinner : inner ∈ treesIn t tree) :
      ∃ name, inner.1 = tree.1 ++ [name] := by
    obtain ⟨s, hs, rfl⟩ := List.mem_map.1 (List.mem_filter.1 hinner).1
    exact ⟨s.name, by rw [around_of_mem_sitesIn hs]⟩
  refine List.pairwise_flatMap.2 ⟨fun tree _ => ?_, ?_⟩
  · refine (List.pairwise_map.2 ?_).filter _
    refine (pairwise_sitesIn tree).imp_of_mem fun hs hs' hlt => ?_
    rw [around_of_mem_sitesIn hs, around_of_mem_sitesIn hs']
    exact List.Lex.append_left _ (.rel hlt) tree.1
  · refine h.imp_of_mem fun {a b} ha hb hlex inner hinner inner' hinner' => ?_
    obtain ⟨name, hname⟩ := hnames hinner
    obtain ⟨name', hname'⟩ := hnames hinner'
    rw [hname, hname']
    exact lex_append hlex (((hlevel _ _).1 ha).2.trans ((hlevel _ _).1 hb).2.symm) _ _

/-- A survey meets its sites in their order. -/
theorem IsLevel.pairwise_sites (hlevel : IsLevel t root depth trees) (h : IsAscending trees) :
    (sites t levels trees).Pairwise Site.Precedes := by
  induction levels generalizing depth trees with
  | zero => exact .nil
  | succ levels ih =>
    refine List.pairwise_append.2 ⟨?level, ih hlevel.next (hlevel.isAscending_next h), ?onward⟩
    case level =>
      refine List.pairwise_flatMap.2 ⟨fun tree _ => ?_, ?_⟩
      · refine (pairwise_sitesIn tree).imp_of_mem fun hs hs' hlt => .inr ⟨?_, hlt⟩
        rw [around_of_mem_sitesIn hs, around_of_mem_sitesIn hs']
      · refine h.imp_of_mem fun {a b} ha hb hlex s hs s' hs' => .inl ?_
        rw [around_of_mem_sitesIn hs, around_of_mem_sitesIn hs']
        exact .of_lex (((hlevel _ _).1 ha).2.trans ((hlevel _ _).1 hb).2.symm) hlex
    case onward =>
      intro s hs s' hs'
      obtain ⟨-, hdepth⟩ := hlevel.mem_sitesIn.1 hs
      obtain ⟨-, hdepth', -⟩ := hlevel.next.mem_sites.1 hs'
      exact .inl (.of_length_lt (by omega))

/-! ## What a survey lists -/

/-- Packages that are entered from different places have different roots. -/
theorem pairwise_package_sites {found : List Site}
    (hfound : ∀ s ∈ found, IsInstalled t root s.around s.name s.dir)
    (horder : found.Pairwise Site.Precedes) :
    (found.map (Site.package t l)).Pairwise fun p q => ¬p.root.SameAs q.root := by
  refine List.pairwise_map.2 (horder.imp_of_mem fun {a b} ha hb hprecedes hsame => ?_)
  obtain ⟨haround, hname, -⟩ := (hfound a ha).unique (hfound b hb) hsame
  rcases hprecedes with hshort | ⟨-, hlt⟩
  · exact Std.Irrefl.irrefl _ (haround ▸ hshort)
  · exact String.lt_irrefl _ (hname ▸ hlt)

/-- A survey enters the installed packages in their order. -/
theorem exists_sites_survey (t : FileTree) (l : Loader) (root : Path) :
    ∃ found : List Site, survey t l root =
        (found.map (Site.package t l)).foldl insert (empty root) ∧
      (∀ s, s ∈ found ↔ IsInstalled t root s.around s.name s.dir) ∧
      found.Pairwise Site.Precedes := by
  by_cases hroot : t.isDirectory root = true
  · have hlevel := isLevel_outermost hroot
    refine ⟨sites t (t.entries.size + 1) [([], root)], ?_, fun s => ?_,
      hlevel.pairwise_sites (List.pairwise_singleton _ _)⟩
    · rw [survey, if_pos hroot, ← enterLevels_eq]
      rfl
    · rw [hlevel.mem_sites]
      refine ⟨fun h => h.1, fun h => ⟨h, Nat.zero_le _, ?_⟩⟩
      obtain ⟨tree, htree, -⟩ := h
      have := htree.length_lt_size
      omega
  · refine ⟨[], by rw [survey, if_neg hroot]; rfl, fun s => ?_, .nil⟩
    refine ⟨fun h => by simp at h, fun ⟨tree, htree, _⟩ => ?_⟩
    exact absurd htree.isDirectory_root hroot

/-- So the catalog stores what is read at the sites, and a name stands for the first site that
is called so. -/
theorem exists_sites_stored (t : FileTree) (l : Loader) (root : Path) :
    ∃ found : List Site, (∀ s, s ∈ found ↔ IsInstalled t root s.around s.name s.dir) ∧
      found.Pairwise Site.Precedes ∧
      (∀ p, p ∈ (survey t l root).packages ↔ ∃ s ∈ found, s.package t l = p) ∧
      ∀ name, (survey t l root).get? name =
        (found.find? (·.name = name)).map (Site.package t l) := by
  obtain ⟨found, hsurvey, hfound, horder⟩ := exists_sites_survey t l root
  have hroots := pairwise_package_sites l (fun s hs => (hfound s).1 hs) horder
  refine ⟨found, hfound, horder, fun p => ?_, fun name => ?_⟩
  · rw [hsurvey, mem_packages_foldl hroots, List.mem_map]
  · rw [hsurvey, get?_foldl_insert, List.find?_map]
    simp only [get?, empty, Std.TreeMap.getElem?_emptyc, Option.none_or]
    rfl

theorem isKeyed_survey (t : FileTree) (l : Loader) (root : Path) :
    (survey t l root).IsKeyed := by
  obtain ⟨found, hsurvey, -, -⟩ := exists_sites_survey t l root
  rw [hsurvey]
  exact (isKeyed_empty root).foldl_insert _

/-- A name that stands for nothing is the name of no package. -/
theorem get?_survey_eq_none_iff (t : FileTree) (l : Loader) (root : Path) (name : String) :
    (survey t l root).get? name = none ↔ ∀ p ∈ (survey t l root).packages, p.name ≠ name := by
  obtain ⟨found, -, -, hmem, hget⟩ := exists_sites_stored t l root
  rw [hget, Option.map_eq_none_iff, List.find?_eq_none]
  simp only [hmem, decide_eq_true_eq]
  constructor
  · rintro h p ⟨s, hs, rfl⟩
    exact h s hs
  · exact fun h s hs => h _ ⟨s, hs, rfl⟩

/-- The catalog lists what is installed behind a package tree. -/
structure Lists (t : FileTree) (l : Loader) (root : Path) (c : Catalog) : Prop where
  /-- What is stored was read from the directory of a package, under its name. -/
  mem_packages_iff : ∀ p, p ∈ c.packages ↔ ∃ names name dir,
    IsInstalled t root names name dir ∧ p = readPackage t l name dir
  /-- No package is stored twice. -/
  pairwise_packages : c.packages.Pairwise fun p q => ¬p.root.SameAs q.root
  /-- The directory of a package is the root of exactly one that is stored. -/
  existsUnique : ∀ names name dir, IsInstalled t root names name dir →
    ∃! p, p ∈ c.packages ∧ p.root.SameAs dir
  /-- A name stands for nothing only if no package is called so. -/
  get?_eq_none_iff : ∀ name, c.get? name = none ↔ ∀ p ∈ c.packages, p.name ≠ name
  /-- A name stands for a package that is also stored under its root. Of the packages that
  are called so it is the one with the fewest around it, and among those the one around
  which the names come first. -/
  get?_eq_some : ∀ name p, c.get? name = some p →
    p.name = name ∧ c.byRoot[p.root]? = some p ∧
      ∃ names, IsInstalled t root names name p.root ∧
        ∀ q ∈ c.packages, q.name = name → ∀ names', IsInstalled t root names' name q.root →
          q = p ∨ List.Shortlex (· < ·) names names'

/-- A survey lists what is installed. -/
theorem lists_survey (t : FileTree) (l : Loader) (root : Path) :
    Lists t l root (survey t l root) := by
  obtain ⟨found, hfound, horder, hmem, hget⟩ := exists_sites_stored t l root
  have hkeyed := isKeyed_survey t l root
  refine ⟨fun p => ?stored, hkeyed.pairwise_packages, fun names name dir h => ?unique,
    get?_survey_eq_none_iff t l root, fun name p hp => ?first⟩
  case stored =>
    rw [hmem]
    constructor
    · rintro ⟨s, hs, rfl⟩
      exact ⟨s.around, s.name, s.dir, (hfound s).1 hs, rfl⟩
    · rintro ⟨names, name, dir, h, rfl⟩
      exact ⟨⟨names, name, dir⟩, (hfound ⟨names, name, dir⟩).2 h, rfl⟩
  case unique =>
    have hs := (hfound ⟨names, name, dir⟩).2 h
    refine ⟨readPackage t l name dir, ⟨(hmem _).2 ⟨_, hs, rfl⟩, .refl dir⟩, ?_⟩
    rintro q ⟨hq, hsame⟩
    obtain ⟨s, hs, rfl⟩ := (hmem q).1 hq
    obtain ⟨-, hname, hdir⟩ := ((hfound s).1 hs).unique h hsame
    rw [Site.package, hname, hdir]
  case first =>
    rw [hget, Option.map_eq_some_iff] at hp
    obtain ⟨s, hs, rfl⟩ := hp
    obtain ⟨hname, before, after, rfl, hbefore⟩ := List.find?_eq_some_iff_append.1 hs
    obtain rfl : s.name = name := of_decide_eq_true hname
    have hinstalled := (hfound s).1 (by simp)
    refine ⟨rfl, ?_, s.around, hinstalled, fun q hq hname names' h => ?_⟩
    · exact hkeyed.mem_packages_iff.1 ((hmem _).2 ⟨s, by simp, rfl⟩)
    · obtain ⟨s', hs', rfl⟩ := (hmem q).1 hq
      obtain ⟨rfl, -⟩ := ((hfound s').1 hs').unique h (.refl _)
      -- a site of the name stands behind the first one
      rcases List.mem_append.1 hs' with hs' | hs'
      · have hother := hbefore s' hs'
        rw [Bool.not_eq_true'] at hother
        exact absurd hname (of_decide_eq_false hother)
      · rcases List.mem_cons.1 hs' with rfl | hs'
        · exact .inl rfl
        · rcases (List.pairwise_cons.1 (List.pairwise_append.1 horder).2.1).1 s' hs' with
            hshort | ⟨-, hlt⟩
          · exact .inr hshort
          · exact absurd hlt (hname ▸ String.lt_irrefl _)

end Vendoring.Catalog
