/-
# Which files have a place

A file has a place if a package tree is on the way to it once the directory of
its package's built variant is left out, and something is left behind that tree.
Every file that lies behind a tree has one, since a package and what stands in
for its root lie behind the same tree.
-/

import Vendoring.Placement
import Vendoring.Proofs.Catalog.Insertion
import Vendoring.Proofs.Catalog.Installed

namespace Vendoring

/-- A file lies at the names of the path. -/
def FileTree.HoldsFile (t : FileTree) (p : Path) : Prop :=
  ∃ names contents, p.components = .root :: names.map .name ∧
    t.entry? names = some (.file contents)

namespace FileTree

variable {t : FileTree} {p q : Path}

theorem HoldsFile.isRooted (h : t.HoldsFile p) : p.IsRooted := by
  obtain ⟨names, contents, hcs, -⟩ := h
  exact ⟨names, hcs⟩

theorem HoldsFile.congr (h : t.HoldsFile p) (hsame : p.SameAs q) : t.HoldsFile q := by
  obtain ⟨names, contents, hcs, hentry⟩ := h
  exact ⟨names, contents, (Eq.symm hsame).trans hcs, hentry⟩

theorem holdsFile_of_isFile (hp : p.IsRooted) (h : t.isFile p = true) : t.HoldsFile p := by
  obtain ⟨names, hcs⟩ := hp
  obtain ⟨loc, contents, hloc, hentry⟩ := exists_locate_of_isFile h
  obtain rfl := location_of_locate hcs hloc
  exact ⟨loc, contents, hcs, hentry⟩

/-- Whatever a listing of a directory from the root gives is a file of the tree,
also where its path is too long to be looked up. -/
theorem holdsFile_of_mem_filesBelow {dir : Path} (hdir : dir.IsRooted)
    (h : p ∈ t.filesBelow dir) : t.HoldsFile p := by
  obtain ⟨names, hcs⟩ := hdir
  obtain ⟨loc, below, contents, hloc, hentry, rfl⟩ := exists_of_mem_filesBelow h
  obtain rfl := location_of_locate hcs hloc
  refine ⟨loc ++ below, contents, ?_, hentry⟩
  have hnames : ∀ s ∈ below, IsName s := fun s hs => isName_of_entry? hentry s (by simp [hs])
  rw [(pathTo_spec (text_ne_of_locate hloc) hnames).1, hcs]
  simp

theorem HoldsFile.isDirectory_eq_false (h : t.HoldsFile p) (hsame : p.SameAs q) :
    t.isDirectory q = false := by
  obtain ⟨names, contents, hcs, hentry⟩ := h
  rw [Bool.eq_false_iff]
  intro hdir
  obtain ⟨loc, hloc, hentry'⟩ := exists_locate_of_isDirectory hdir
  obtain rfl := location_of_locate ((Eq.symm hsame).trans hcs) hloc
  simp [hentry] at hentry'

/-- The last component of a file is its name. -/
theorem HoldsFile.getLast?_ne (h : t.HoldsFile p) {name : String}
    (hnone : ∀ loc contents, t.entry? (loc ++ [name]) ≠ some (.file contents)) :
    p.components.getLast? ≠ some (.name name) := by
  obtain ⟨names, contents, hcs, hentry⟩ := h
  rw [hcs]
  induction names using List.reverseRecOn with
  | nil =>
    unfold entry? at hentry
    rw [t.root_eq] at hentry
    simp at hentry
  | append_singleton names last _ =>
    intro hlast
    have hname : last = name := by
      rw [List.map_append, ← List.cons_append, List.map_singleton, List.getLast?_concat] at hlast
      exact Component.name.inj (Option.some.inj hlast)
    exact hnone names contents (hname ▸ hentry)

end FileTree

namespace Planner

open Catalog

variable {r : Planner} {path : Path} {name : String} {isMain : Bool} {place : Placement}

/-- The path of the destination below the output directory. -/
def kept (r : Planner) (path : Path) (name : String) (isMain : Bool) (within : List Component) :
    Path :=
  if isMain && r.renamesMain then canonicalEntry path.normalize name else Path.ofComponents within

/-- The package that the planner asks about a file is one of the catalog. -/
theorem holds_of_packageFor? {file : Path} {p : Package} (h : r.packageFor? file name = some p) :
    r.catalog.Holds p := by
  rcases Option.or_eq_some_iff.1 h with h | ⟨-, h⟩
  · obtain ⟨howner, -⟩ := Option.filter_eq_some_iff.1 h
    obtain ⟨dir, -, hdir⟩ := List.exists_of_findSome?_eq_some howner
    exact .inl (mem_packages_iff.2 ⟨dir, hdir⟩)
  · exact .inr ⟨name, h⟩

theorem isMainFile_congr {p q : Path} (h : p.SameAs q) (name : String) :
    r.isMainFile p name = r.isMainFile q name := by
  rw [isMainFile, isMainFile, h.normalize_eq]

theorem place?_congr {p q : Path} (h : p.SameAs q) (name : String) (isMain : Bool) :
    r.place? p name isMain = r.place? q name isMain := by
  rw [place?, place?, h.normalize_eq]

/-- Where a file is placed that lies behind a tree once the built variant is left
out. -/
theorem place?_of_split {tree within : List Component}
    (h : Path.splitAtTree (r.plainLayout path.normalize name).components = some (tree, within))
    (hwithin : within ≠ []) :
    r.place? path name isMain = some
      { source := path.normalize
        destination := (Path.ofComponents tree / r.npmDirname).join
          (r.kept path name isMain within)
        base := Path.ofComponents tree
        package := name
        isMain := isMain } := by
  obtain ⟨c, cs, rfl⟩ := List.exists_cons_of_ne_nil hwithin
  simp [place?, Path.packageTree?, Path.withinTree?, h, kept]

theorem place?_eq_some (h : r.place? path name isMain = some place) :
    ∃ tree within,
      Path.splitAtTree (r.plainLayout path.normalize name).components = some (tree, within) ∧
      within ≠ [] ∧
      place =
        { source := path.normalize
          destination := (Path.ofComponents tree / r.npmDirname).join
            (r.kept path name isMain within)
          base := Path.ofComponents tree
          package := name
          isMain := isMain } := by
  cases hsplit : Path.splitAtTree (r.plainLayout path.normalize name).components with
  | none => simp [place?, Path.packageTree?, hsplit] at h
  | some split =>
    obtain ⟨tree, within⟩ := split
    by_cases hwithin : within = []
    · simp [place?, Path.packageTree?, Path.withinTree?, hsplit, hwithin] at h
    · refine ⟨tree, within, rfl, hwithin, ?_⟩
      exact Option.some.inj (h.symm.trans (place?_of_split hsplit hwithin))

/-- A placement keeps what it was asked for. -/
theorem fields_of_place? (h : r.place? path name isMain = some place) :
    place.source = path.normalize ∧ place.package = name ∧ place.isMain = isMain := by
  obtain ⟨tree, within, -, -, rfl⟩ := place?_eq_some h
  exact ⟨rfl, rfl, rfl⟩

theorem source_of_place? (h : r.place? path name isMain = some place) :
    place.source = path.normalize :=
  (fields_of_place? h).1

/-- The layout of a package that has a built variant appends what follows the
variant to the root. -/
theorem plainLayout_eq (r : Planner) (file : Path) (name : String) :
    r.plainLayout file name = file ∨
      ∃ p dir rest, r.packageFor? file name = some p ∧ p.alternateOutput = some dir ∧
        file.below? dir = some rest ∧ r.plainLayout file name = p.root.join rest := by
  unfold plainLayout
  cases hp : r.packageFor? file name with
  | none => exact .inl rfl
  | some p =>
    cases hdir : p.alternateOutput with
    | none => exact .inl (by simp [Package.stripAlternateOutput, hdir])
    | some dir =>
      cases hrest : file.below? dir with
      | none => exact .inl (by simp [Package.stripAlternateOutput, hdir, hrest])
      | some rest =>
        exact .inr ⟨p, dir, rest, rfl, hdir, hrest, by
          simp [Package.stripAlternateOutput, hdir, hrest]⟩

variable {t : FileTree} {l : Loader} {root file : Path}

theorem isEntered_of_packageFor? (hsurvey : IsSurvey t l root r.catalog) {p : Package}
    (h : r.packageFor? file name = some p) : IsEntered t l root p := by
  rcases Option.or_eq_some_iff.1 h with h | ⟨-, h⟩
  · exact (hsurvey.owner? (Option.filter_eq_some_iff.1 h).1).1
  · exact (hsurvey.get? h).2

/-- A file behind a package tree has a place, if no file has the name of a tree. -/
theorem exists_place? (hsurvey : IsSurvey t l root r.catalog) (hrooted : root.IsRooted)
    (hroot : root.HasTree)
    (hnone : ∀ loc contents, t.entry? (loc ++ [packageTreeName]) ≠ some (.file contents))
    (hfile : t.HoldsFile path) (htree : path.HasTree) (name : String) (isMain : Bool) :
    ∃ place, r.place? path name isMain = some place := by
  have hnormal := hfile.isRooted.normalize_sameAs
  have hlast := (hfile.congr hnormal.symm).getLast?_ne hnone
  have hlayout : (r.plainLayout path.normalize name).HasTree ∧
      (r.plainLayout path.normalize name).components.getLast? ≠ some (.name packageTreeName) := by
    rcases r.plainLayout_eq path.normalize name with heq | ⟨p, dir, rest, hp, hdir, hrest, heq⟩
    · rw [heq]
      exact ⟨hnormal.symm.hasTree htree, hlast⟩
    · have hentered := isEntered_of_packageFor? hsurvey hp
      obtain ⟨hpRooted, hpTree⟩ := hentered.isRooted_root hrooted
      obtain ⟨hisDir, -⟩ := hentered.alternateOutput hdir
      have hdirne : dir.components ≠ [] := by
        obtain ⟨loc, hloc, -⟩ := FileTree.exists_locate_of_isDirectory hisDir
        exact Path.components_ne_nil_iff.2 (FileTree.text_ne_of_locate hloc)
      obtain ⟨hstart, hrel, -, hsteps⟩ := Path.below?_eq_some hrest hdirne
      rw [heq]
      refine ⟨(hpTree hroot).join hrel, ?_⟩
      rw [Path.components_join hrel hpRooted.text_ne, hsteps]
      -- the file is not the directory of the variant itself, so its name stays last
      cases hdrop : path.normalize.components.drop dir.components.length with
      | nil =>
        have hsame : path.normalize.SameAs dir :=
          (hstart.eq_of_length_le (by simpa using hdrop)).symm
        rw [(hfile.congr hnormal.symm).isDirectory_eq_false hsame] at hisDir
        simp at hisDir
      | cons c cs =>
        rw [List.getLast?_append_of_ne_nil _ (by simp), ← hdrop, List.getLast?_drop]
        split
        · next hlen =>
          have := congrArg List.length hdrop
          simp only [List.length_drop, List.length_cons] at this
          omega
        · exact hlast
  obtain ⟨⟨tree, within⟩, hsplit⟩ := Option.ne_none_iff_exists'.1
    (fun hnot => (Path.splitAtTree_eq_none_iff.1 hnot) hlayout.1)
  obtain ⟨hcs, htreeLast, -⟩ := Path.splitAtTree_eq_some hsplit
  refine ⟨_, place?_of_split hsplit ?_⟩
  rintro rfl
  rw [List.append_nil] at hcs
  exact hlayout.2 (hcs ▸ htreeLast)

end Planner

end Vendoring
