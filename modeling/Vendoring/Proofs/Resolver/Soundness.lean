/-
# What a reference can be relied on for

Whatever is done with a reference once it has resolved, walking, claiming, placing, copying,
takes some things for granted: that the target is a file under its normal path, that it is
called by the package that the catalog gives for it, and above all that it has a place. They
hold of every reference, also of one that left its package by a step up, a main file or a built
variant, if packages are installed in a package tree at a normal path and no file is called
like one.
-/

import Vendoring.Build.Session
import Vendoring.FileTree.Edit
import Vendoring.Proofs.Placement.Places
import Vendoring.Proofs.Resolver.Rooted

namespace Vendoring

open Catalog

namespace Resolver

variable {r : Resolver} {specifier : String} {file q : Path}

/-- A specifier that leads to a file is neither empty nor absolute, and as a step it stands in a
file of a package. -/
theorem parse_of_target? (h : r.target? specifier file = some q) :
    (∀ path, Specifier.parse specifier ≠ .absolute path) ∧ Specifier.parse specifier ≠ .empty ∧
      ∀ step, Specifier.parse specifier = .relative step → ∃ p, r.catalog.owner? file = some p := by
  unfold target? at h
  cases hparse : Specifier.parse specifier with
  | inScope name subpath => simp
  | plain name subpath => simp
  | relative step =>
    rw [hparse] at h
    obtain ⟨p, hp, -⟩ := Option.bind_eq_some_iff.1 h
    exact ⟨by simp, by simp, fun _ _ => ⟨p, hp⟩⟩
  | absolute path =>
    rw [hparse] at h
    cases h
  | empty =>
    rw [hparse] at h
    cases h

/-- A target is called by the package that it is installed in, and by its path where it is
installed in none. -/
theorem packageOf?_eq_some_iff {name : String} :
    r.packageOf? q = some name ↔
      (∃ p, r.catalog.owner? q = some p ∧ name = p.name) ∨
        r.catalog.owner? q = none ∧ q.packageName? = some name := by
  rw [packageOf?]
  cases r.catalog.owner? q with
  | none => simp
  | some p => simp [eq_comm]

end Resolver

/-- What is relied on in a reference that was found in a file. -/
structure Reference.IsSound (t : FileTree) (s : Session) (file : Path) (ref : Reference) :
    Prop where
  isAbsolute : ref.target.isAbsolute = true
  normalize_eq : ref.target.normalize = ref.target
  isFile : t.isFile ref.target = true
  owned : ∀ p, s.catalog.owner? ref.target = some p → ref.package = p.name
  named : s.catalog.owner? ref.target = none → ref.target.packageName? = some ref.package
  placed : ∀ isMain, ∃ place, s.planner.place? ref.target ref.package isMain = some place ∧
    place.source = ref.target
  isMain_iff : ref.isMain = true ↔
    (Specifier.parse ref.specifier).packageName? = some ref.specifier
  not_absolute : ∀ path, Specifier.parse ref.specifier ≠ .absolute path
  not_empty : Specifier.parse ref.specifier ≠ .empty
  inside : ∀ step, Specifier.parse ref.specifier = .relative step →
    ∃ p, s.catalog.owner? file = some p

namespace Session

variable {t : FileTree} {settings : Settings} {specifier : String} {file : Path}
  {ref : Reference}

section

variable (habsolute : settings.packageTree.isAbsolute = true)
  (hnormal : settings.packageTree.normalize = settings.packageTree)
  (htree : settings.packageTree.endsWithName packageTreeName = true)
  (hnone : ∀ loc contents, t.entry? (loc ++ [packageTreeName]) ≠ some (.file contents))

include habsolute hnormal htree hnone

/-- The target of a reference has a place, as a file of the package that it is called by and
as one of any other. -/
theorem exists_place?_of_resolve?
    (h : ((start t settings).resolver t).resolve? specifier file = some ref) (name : String)
    (isMain : Bool) :
    ∃ place, (start t settings).planner.place? ref.target name isMain = some place := by
  have hsurvey : IsSurvey t loader settings.packageTree (start t settings).catalog :=
    isSurvey_survey t loader settings.packageTree
  have hroot : settings.packageTree.IsRooted := hnormal ▸ Path.isRooted_normalize habsolute
  have hrootTree : settings.packageTree.HasTree := by
    rw [Path.endsWithName, decide_eq_true_eq] at htree
    exact List.mem_of_getLast? htree
  have hrooted : ref.target.IsRooted :=
    Resolver.isRooted_of_resolve? Loader.isPlain_default (hsurvey.isAnchored habsolute) h
  have hfile : t.HoldsFile ref.target :=
    FileTree.holdsFile_of_isFile hrooted (Resolver.target_of_resolve? Loader.isPlain_default h).2
  have hinstalled : ref.target.HasTree :=
    Resolver.hasTree_of_packageOf? hsurvey hroot hrootTree (Resolver.resolve?_eq_some h).2.2.1
  exact Planner.exists_place? (r := (start t settings).planner) hsurvey hroot hrootTree hnone
    hfile hinstalled name isMain

/-- Every reference that resolves is sound, whatever file the specifier was found in. -/
theorem isSound_of_resolve?
    (h : ((start t settings).resolver t).resolve? specifier file = some ref) :
    ref.specifier = specifier ∧ ref.IsSound t (start t settings) file := by
  obtain ⟨rfl, htarget, hpackage, hmain⟩ := Resolver.resolve?_eq_some h
  have hanchored : (start t settings).catalog.IsAnchored :=
    (isSurvey_survey t loader settings.packageTree).isAnchored habsolute
  have hrooted : ref.target.IsRooted :=
    Resolver.isRooted_of_resolve? Loader.isPlain_default hanchored h
  obtain ⟨hplain, hfile⟩ := Resolver.target_of_resolve? Loader.isPlain_default h
  have hnormalTarget : ref.target.normalize = ref.target := hrooted.normalize_eq hplain
  obtain ⟨hnotAbsolute, hnotEmpty, hinside⟩ := Resolver.parse_of_target? htarget
  refine ⟨rfl, hrooted.isAbsolute, hnormalTarget, hfile, fun p hp => ?owned, fun hp => ?named,
    fun isMain => ?placed, by rw [hmain, decide_eq_true_eq], hnotAbsolute, hnotEmpty, hinside⟩
  case owned =>
    rcases Resolver.packageOf?_eq_some_iff.1 hpackage with ⟨p', hp', hname⟩ | ⟨hp', -⟩
    · rw [hname, Option.some.inj (hp.symm.trans hp')]
    · cases hp.symm.trans hp'
  case named =>
    rcases Resolver.packageOf?_eq_some_iff.1 hpackage with ⟨p', hp', -⟩ | ⟨-, hname⟩
    · cases hp.symm.trans hp'
    · exact hname
  case placed =>
    obtain ⟨place, hplace⟩ :=
      exists_place?_of_resolve? habsolute hnormal htree hnone h ref.package isMain
    exact ⟨place, hplace, (Planner.source_of_place? hplace).trans hnormalTarget⟩

end

/-- A package `p` whose built variant is a hidden directory beside it. -/
def hiddenTree : FileTree :=
  FileTree.ofEntries [(["node_modules"], .directory), (["node_modules", "p"], .directory),
    (["node_modules", "p", "package.json"],
      .file "\x7b\"miniprogram\":\"/node_modules/.q\"\x7d".toUTF8),
    (["node_modules", ".q"], .directory), (["node_modules", ".q", "index.js"], .file "".toUTF8)]

theorem entry?_hiddenTree (loc : List String) (contents : ByteArray) :
    hiddenTree.entry? (loc ++ [packageTreeName]) ≠ some (.file contents) := by
  have hall : ∀ x ∈ hiddenTree.entries.toList,
      x.1.getLast? = some packageTreeName → x.2 = .directory := by
    decide
  intro hentry
  have hmem := Std.TreeMap.mem_toList_iff_getElem?_eq_some.2 hentry
  cases hall _ hmem (by simp)

/-- The file that the name `p` leads to belongs to no package, and still it is called by its path
and has a place. -/
theorem isSound_of_resolve?_hidden : ∃ ref,
    ((start hiddenTree (.forProject ⟨"/"⟩)).resolver hiddenTree).resolve? "p" ⟨"/src/a.js"⟩ =
      some ref ∧
    ref.target = ⟨"/node_modules/.q/index.js"⟩ ∧ ref.package = ".q" ∧
    ref.IsSound hiddenTree (start hiddenTree (.forProject ⟨"/"⟩)) ⟨"/src/a.js"⟩ := by
  have hrun : ∃ ref ∈ ((start hiddenTree (.forProject ⟨"/"⟩)).resolver hiddenTree).resolve? "p"
      ⟨"/src/a.js"⟩, ref.target = ⟨"/node_modules/.q/index.js"⟩ ∧ ref.package = ".q" := by
    decide +kernel
  obtain ⟨ref, href, htarget, hpackage⟩ := hrun
  obtain ⟨-, hsound⟩ :=
    isSound_of_resolve? (by decide) (by decide) (by decide) entry?_hiddenTree href
  exact ⟨ref, href, htarget, hpackage, hsound⟩

end Session

end Vendoring
