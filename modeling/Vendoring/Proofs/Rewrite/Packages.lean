/-
# Where bare names point

The table of packages is filled in one pass over the files of a build, which come from imports,
from bundles and from directories that are taken over, in any order, and possibly from several
packages of one name. What the pass leaves behind under a name depends only on the files that
belong to packages of that name: the last of them that was reached as a main entry, and
otherwise the last one that some package declares as its own, and otherwise what the first
package says of itself. The pin is what keeps a declared file from taking the place of one that
was reached as a main entry.
-/

import Vendoring.Proofs.Placement.Places
import Vendoring.Rewrite.Table

namespace Vendoring

namespace OutputFile

/-- Whether the file was reached as the main entry of its package. -/
def isMainEntry (f : OutputFile) : Bool :=
  f.origin.placement?.any (·.isMain)

/-- Whether the file belongs to a package and was read from the path. -/
def isReadFrom (f : OutputFile) (source : Path) : Bool :=
  f.origin.placement?.any fun placement => source.SameAs placement.source

end OutputFile

namespace Planner

variable (r : Planner)

/-- The package that a file of a build is counted to. -/
def associated? (f : OutputFile) : Option Package :=
  f.origin.placement?.bind fun placement => r.packageFor? placement.source placement.package

/-- Whether the file is the main entry that its package declares. -/
def isDeclared (f : OutputFile) : Bool :=
  (r.associated? f).any fun p => p.mainEntryPath?.any f.isReadFrom

/-- An entry after a file of its name has been taken note of. -/
def noted (e : PackageEntry) (f : OutputFile) : PackageEntry :=
  if f.isMainEntry || (r.isDeclared f && !e.isPinned) then
    { e with mainEntry := some f.relative, isPinned := e.isPinned || f.isMainEntry }
  else e

/-- The files that are counted to packages of the name. -/
def filesOf (name : String) (files : List OutputFile) : List OutputFile :=
  files.filter fun f => (r.associated? f).any (·.name = name)

/-- The file that settles where a bare name points, among the files of its packages: the last one
that was reached as a main entry, or else the last one that is declared as one. -/
def mainOf? (own : List OutputFile) : Option OutputFile :=
  (own.reverse.find? (·.isMainEntry)).or (own.reverse.find? r.isDeclared)

variable {r : Planner} {f : OutputFile} {own files : List OutputFile} {placement : Placement}
variable {p : Package} {e : PackageEntry} {t : PackageTable} {name : String}

/-! ## One file -/

theorem associated?_eq_some (h : r.associated? f = some p) : ∃ placement,
    f.origin.placement? = some placement ∧
      r.packageFor? placement.source placement.package = some p :=
  Option.bind_eq_some_iff.1 h

theorem fields_of_ofPackage? (h : PackageEntry.ofPackage? r p = some e) :
    e.mainEntry = r.mainOutput? p ∧ e.isPinned = false := by
  obtain ⟨root, -, rfl⟩ := Option.map_eq_some_iff.1 h
  exact ⟨rfl, rfl⟩

theorem note_eq (hplacement : f.origin.placement? = some placement)
    (hp : r.packageFor? placement.source placement.package = some p) (e : PackageEntry) :
    e.note p placement f.relative = r.noted e f := by
  have hmain : f.isMainEntry = placement.isMain := by simp [OutputFile.isMainEntry, hplacement]
  have hread (main : Path) : f.isReadFrom main = decide (main.SameAs placement.source) := by
    simp [OutputFile.isReadFrom, hplacement]
  have hdeclared : r.isDeclared f =
      p.mainEntryPath?.any fun main => main.SameAs placement.source := by
    simp only [isDeclared, associated?, hplacement, Option.bind_some, hp, Option.any_some, ← hread]
  rw [PackageEntry.note, noted, hmain, hdeclared]

/-- A file that is counted to no package changes no entry. -/
theorem get?_addFile_of_none (h : r.associated? f = none) :
    (PackageTable.addFile r t f).get? name = t.get? name := by
  unfold PackageTable.addFile
  cases hplacement : f.origin.placement? with
  | none => rfl
  | some placement =>
    have hp : r.packageFor? placement.source placement.package = none := by
      simpa [associated?, hplacement] using h
    simp only [hp]
    rfl

/-- A file of a package is taken note of in the entry of that name, which is made before if it is
not there. -/
theorem get?_addFile (h : r.associated? f = some p) (he : PackageEntry.ofPackage? r p = some e) :
    (PackageTable.addFile r t f).get? name =
      if p.name = name then some (r.noted ((t.get? name).getD e) f) else t.get? name := by
  obtain ⟨placement, hplacement, hp⟩ := associated?_eq_some h
  have hor : (t.get? p.name).or (some e) = some ((t.get? p.name).getD e) := by
    cases t.get? p.name <;> rfl
  have hrecord : (t.record placement.source f.relative).get? p.name = t.get? p.name := rfl
  simp only [PackageTable.addFile, hplacement, hp, hrecord, he, hor, note_eq hplacement hp]
  rw [PackageTable.get?, Std.TreeMap.getElem?_insert]
  simp only [Std.LawfulEqCmp.compare_eq_iff_eq]
  split
  · next hname => rw [hname]
  · rfl

/-- A file of a package says where it was written, and no other file does. -/
theorem outputOf?_addFile (source : Path) : (PackageTable.addFile r t f).outputOf? source =
    if f.isReadFrom source then some f.relative else t.outputOf? source := by
  have hrecord (placement : Placement) :
      (t.record placement.source f.relative).outputOf? source =
        if source.SameAs placement.source then some f.relative else t.outputOf? source := by
    rw [PackageTable.outputOf?, PackageTable.record, PathMap.getElem?_insert]
    simp only [Path.SameAs, eq_comm]
    rfl
  unfold PackageTable.addFile OutputFile.isReadFrom
  cases hplacement : f.origin.placement? with
  | none => simp
  | some placement =>
    simp only [Option.any_some, decide_eq_true_eq, ← hrecord]
    split
    · rfl
    · split <;> rfl

/-! ## A whole build -/

/-- One more file takes over, if it was reached as a main entry, or if it is declared as one and
none was reached so before. -/
theorem mainOf?_concat (own : List OutputFile) (f : OutputFile) :
    r.mainOf? (own ++ [f]) =
      if f.isMainEntry || (r.isDeclared f && !own.any (·.isMainEntry)) then some f
      else r.mainOf? own := by
  have hnone (h : own.any (·.isMainEntry) = false) :
      own.reverse.find? (·.isMainEntry) = none := by simpa using h
  have hsome (h : own.any (·.isMainEntry) = true) :
      ∃ g, own.reverse.find? (·.isMainEntry) = some g := by
    rw [← Option.isSome_iff_exists]
    simpa using h
  rw [mainOf?, mainOf?, List.reverse_append, List.reverse_singleton, List.singleton_append,
    List.find?_cons, List.find?_cons]
  cases f.isMainEntry with
  | true => simp
  | false =>
    cases r.isDeclared f with
    | false => simp
    | true =>
      cases hpinned : own.any (·.isMainEntry) with
      | false => simp [hnone hpinned]
      | true =>
        obtain ⟨g, hg⟩ := hsome hpinned
        simp [hg]

/-- The files of a name settle its entry one after the other. The pin holds back a declared file
once a file was reached as a main entry, so only the last files of both sorts matter. -/
theorem foldl_noted (hpin : e.isPinned = false) (own : List OutputFile) :
    own.foldl r.noted e =
      { e with mainEntry := ((r.mainOf? own).map (·.relative)).or e.mainEntry
               isPinned := own.any (·.isMainEntry) } := by
  induction own using List.reverseRecOn with
  | nil => simp [mainOf?, ← hpin]
  | append_singleton own f ih =>
    rw [List.foldl_append, ih, List.foldl_cons, List.foldl_nil, noted, mainOf?_concat]
    split
    · simp
    · next hkeeps =>
      have hmain : f.isMainEntry = false := by
        rw [Bool.or_eq_true, not_or] at hkeeps
        simpa using hkeeps.1
      simp [hmain]

theorem ofOutputs_concat (files : List OutputFile) (f : OutputFile) :
    PackageTable.ofOutputs r (files ++ [f]) =
      PackageTable.addFile r (PackageTable.ofOutputs r files) f := by
  rw [PackageTable.ofOutputs, List.foldl_append]
  rfl

/-- Every file that is counted to a package finds an entry for it. -/
theorem exists_ofPackage? (hplaced : ∀ p, r.catalog.Holds p → (r.outputRoot? p).isSome = true)
    (h : r.associated? f = some p) : ∃ e, PackageEntry.ofPackage? r p = some e := by
  obtain ⟨placement, -, hp⟩ := associated?_eq_some h
  obtain ⟨root, hroot⟩ := Option.isSome_iff_exists.1 (hplaced p (holds_of_packageFor? hp))
  rw [PackageEntry.ofPackage?, hroot]
  exact ⟨_, rfl⟩

theorem mem_filesOf : f ∈ r.filesOf name files ↔
    f ∈ files ∧ ∃ p, r.associated? f = some p ∧ p.name = name := by
  simp [filesOf, Option.any_eq_true]

/-- The entry of a name is what the package of its first file says of itself, changed by one
file of the name after the other. -/
theorem get?_ofOutputs (hplaced : ∀ p, r.catalog.Holds p → (r.outputRoot? p).isSome = true)
    (files : List OutputFile) (name : String) :
    (PackageTable.ofOutputs r files).get? name =
      (((r.filesOf name files).head?.bind r.associated?).bind (PackageEntry.ofPackage? r)).map
        ((r.filesOf name files).foldl r.noted) := by
  induction files using List.reverseRecOn with
  | nil => rfl
  | append_singleton files f ih =>
    have hown : r.filesOf name (files ++ [f]) = r.filesOf name files ++ r.filesOf name [f] :=
      List.filter_append ..
    rw [ofOutputs_concat, hown]
    cases hf : r.associated? f with
    | none =>
      have hout : r.filesOf name [f] = [] := by simp [filesOf, hf]
      rw [get?_addFile_of_none hf, ih, hout, List.append_nil]
    | some p =>
      obtain ⟨e, he⟩ := exists_ofPackage? hplaced hf
      rw [get?_addFile hf he, ih]
      by_cases hname : p.name = name
      · have hin : r.filesOf name [f] = [f] := by simp [filesOf, hf, hname]
        rw [if_pos hname, hin]
        cases hfiles : r.filesOf name files with
        | nil => simp [hf, he]
        | cons g rest =>
          -- the entry is there already, from the package of the first file
          have hg : g ∈ r.filesOf name files := hfiles ▸ List.mem_cons_self
          obtain ⟨-, q, hq, -⟩ := mem_filesOf.1 hg
          obtain ⟨first, hfirst⟩ := exists_ofPackage? hplaced hq
          simp [hq, hfirst]
      · have hout : r.filesOf name [f] = [] := by simp [filesOf, hf, hname]
        rw [if_neg hname, hout, List.append_nil]

theorem outputOf?_ofOutputs (files : List OutputFile) (source : Path) :
    (PackageTable.ofOutputs r files).outputOf? source =
      (files.reverse.find? (·.isReadFrom source)).map (·.relative) := by
  induction files using List.reverseRecOn with
  | nil => rfl
  | append_singleton files f ih =>
    rw [ofOutputs_concat, outputOf?_addFile, ih, List.reverse_append, List.reverse_singleton,
      List.singleton_append, List.find?_cons]
    cases f.isReadFrom source <;> rfl

/-- A package below a tree has a place in the output. -/
theorem isSome_outputRoot? (htree : p.root.HasTree)
    (hroot : p.root.endsWithName packageTreeName = false) : (r.outputRoot? p).isSome = true := by
  cases hsplit : Path.splitAtTree p.root.components with
  | none => exact absurd htree (Path.splitAtTree_eq_none_iff.1 hsplit)
  | some split =>
    obtain ⟨tree, within⟩ := split
    obtain ⟨hcs, hlast, -⟩ := Path.splitAtTree_eq_some hsplit
    cases within with
    | nil =>
      rw [List.append_nil] at hcs
      simp [Path.endsWithName, hcs, hlast] at hroot
    | cons c cs => simp [outputRoot?, Path.withinTree?, hsplit]

/-- The table has an entry for a name exactly if some file is counted to a package of that name.
Its bare name points at the last such file that was reached as a main entry, or else at the last
one that is the declared main entry of its package, or else where the main entry of the first
such package would be written. What was read from a path is found where it was written last. -/
theorem ofOutputs_points
    (hroots : ∀ p, r.catalog.Holds p →
      p.root.HasTree ∧ p.root.endsWithName packageTreeName = false)
    (files : List OutputFile) :
    (∀ name, ((PackageTable.ofOutputs r files).get? name).isSome = true ↔
      ∃ f ∈ files, ∃ p, r.associated? f = some p ∧ p.name = name) ∧
    (∀ name e, (PackageTable.ofOutputs r files).get? name = some e →
      e.mainEntry = ((r.mainOf? (r.filesOf name files)).map (·.relative)).or
        (((r.filesOf name files).head?.bind r.associated?).bind r.mainOutput?)) ∧
    ∀ source, (PackageTable.ofOutputs r files).outputOf? source =
      (files.reverse.find? (·.isReadFrom source)).map (·.relative) := by
  have hplaced (p : Package) (hp : r.catalog.Holds p) : (r.outputRoot? p).isSome = true :=
    isSome_outputRoot? (hroots p hp).1 (hroots p hp).2
  refine ⟨fun name => ?entry, fun name e he => ?main, outputOf?_ofOutputs files⟩
  case entry =>
    have hmem (f : OutputFile) : f ∈ r.filesOf name files ↔
        f ∈ files ∧ ∃ p, r.associated? f = some p ∧ p.name = name := mem_filesOf
    rw [get?_ofOutputs hplaced]
    cases hfiles : r.filesOf name files with
    | nil =>
      simp only [hfiles, List.not_mem_nil, false_iff] at hmem
      constructor
      · intro h
        cases h
      · rintro ⟨f, hf, hp⟩
        exact absurd ⟨hf, hp⟩ (hmem f)
    | cons f rest =>
      obtain ⟨hf, p, hp, hname⟩ := (hmem f).1 (hfiles ▸ List.mem_cons_self)
      obtain ⟨e, he⟩ := exists_ofPackage? hplaced hp
      simp only [List.head?_cons, Option.bind_some, hp, he, Option.map_some, Option.isSome_some,
        true_iff]
      exact ⟨f, hf, p, hp, hname⟩
  case main =>
    rw [get?_ofOutputs hplaced] at he
    obtain ⟨e₀, he₀, rfl⟩ := Option.map_eq_some_iff.1 he
    obtain ⟨p, hp, he₀⟩ := Option.bind_eq_some_iff.1 he₀
    obtain ⟨hmain, hpin⟩ := fields_of_ofPackage? he₀
    simp only [foldl_noted hpin, hp, Option.bind_some, hmain]

/-- A package that declares its main entry. -/
def kitPackage : Package :=
  { name := "kit", root := ⟨"/node_modules/kit"⟩, mainEntry := some ⟨"lib/a.js"⟩ }

def kitPlanner : Planner where
  catalog := [kitPackage].foldl Catalog.insert (Catalog.empty ⟨"/node_modules"⟩)
  npmDirname := defaultNpmDirname

/-- The main entry of the package as it is written when it was reached as one, or when it was
not. -/
def kitMain (isMain : Bool) (relative : Path) : OutputFile :=
  let source : Path := ⟨"/node_modules/kit/lib/a.js"⟩
  let base : Path := ⟨"/node_modules"⟩
  { source := source, relative := relative, contents := none
    origin := .component ⟨source, base.join relative, base, "kit", isMain⟩ }

/-- The name points at the file that was reached as the main entry, although the file was
written elsewhere after that. -/
theorem ofOutputs_points_kit :
    let table := PackageTable.ofOutputs kitPlanner
      [kitMain false ⟨"b"⟩, kitMain true ⟨"c"⟩, kitMain false ⟨"d"⟩]
    (∀ p, kitPlanner.catalog.Holds p →
      p.root.HasTree ∧ p.root.endsWithName packageTreeName = false) ∧
    (table.get? "kit").map (·.mainEntry) = some (some ⟨"c"⟩) ∧
      table.outputOf? ⟨"/node_modules/kit/lib/a.js"⟩ = some ⟨"d"⟩ := by
  have hroots (p : Package) (hp : kitPlanner.catalog.Holds p) :
      p.root.HasTree ∧ p.root.endsWithName packageTreeName = false := by
    obtain rfl : p = kitPackage := List.mem_singleton.1 hp.mem
    decide
  obtain ⟨hentry, hmain, houtput⟩ := ofOutputs_points hroots
    [kitMain false ⟨"b"⟩, kitMain true ⟨"c"⟩, kitMain false ⟨"d"⟩]
  have hsome := (hentry "kit").2 ⟨kitMain true ⟨"c"⟩, by simp, kitPackage, by decide +kernel, rfl⟩
  obtain ⟨e, he⟩ := Option.isSome_iff_exists.1 hsome
  refine ⟨hroots, ?_, ?_⟩
  · rw [he, Option.map_some, hmain "kit" e he]
    decide +kernel
  · rw [houtput]
    decide +kernel

end Planner

end Vendoring
