/-
# What a search tries

The search for a file goes from one stage to the next: the path itself, the path with an
extension, the main file that a directory declares, the index. Here the stages are laid out
as one list of paths, and the search is shown to give the first file in it. The main files are
read off the manifest for it, without the search. A main file that is not found therefore costs
the search nothing but its own candidates.

The places of a bare name are listed here without the walk outwards. The directories around an
absolute path are the beginnings of its components, the longest first.
-/

import Mathlib.Data.List.Infix
import Vendoring.Loader
import Vendoring.Proofs.FileTree.Lookup

namespace Vendoring

open Text

namespace Path

variable {p : Path}

/-- The path and the directories around it, innermost first, by their components: every
beginning of an absolute path is one. -/
def outward (p : Path) : List Path :=
  (p.components.inits.tail.reverse).map ofComponents

theorem reverse_cons_beginnings (cs : List Component) :
    cs.reverse :: beginnings cs = cs.reverse.inits.reverse := by
  induction cs with
  | nil => rfl
  | cons c earlier ih =>
    rw [beginnings, ih, List.reverse_cons, List.inits_append, List.reverse_append]
    simp

/-- The walk outwards from an absolute path meets the beginnings of its components. -/
theorem map_components_ancestors_of_isAbsolute (hp : p.isAbsolute = true) :
    p.ancestors.map components = p.components.inits.tail.reverse := by
  rw [map_components_ancestors]
  cases hcs : p.components with
  | nil => simp [isAbsolute_iff_head, hcs] at hp
  | cons c steps =>
    obtain rfl : c = .root := by simpa [isAbsolute_iff_head, hcs] using hp
    have hwalk := reverse_cons_beginnings steps.reverse
    rw [List.reverse_reverse] at hwalk
    rw [enclosing, if_pos rfl, List.append_nil, List.inits_cons, List.tail_cons,
      ← List.map_reverse, ← hwalk, List.map_cons]

/-- Up to the spelling, the directories around an absolute path are the ones met on the walk
outwards. -/
theorem map_components_outward (hp : p.isAbsolute = true) :
    p.outward.map components = p.ancestors.map components := by
  have hspelled : ∀ d ∈ p.ancestors, (ofComponents d.components).components = d.components :=
    fun d _ => components_ofComponents d.isSpelled_components
  rw [outward, ← map_components_ancestors_of_isAbsolute hp, List.map_map, List.map_map]
  exact List.map_congr_left hspelled

theorem isAbsolute_of_mem_outward (hp : p.isAbsolute = true) {d : Path} (h : d ∈ p.outward) :
    d.isAbsolute = true := by
  have hmem : d.components ∈ p.ancestors.map components :=
    map_components_outward hp ▸ List.mem_map_of_mem h
  obtain ⟨d', hd', hcs⟩ := List.mem_map.1 hmem
  have habs := isAbsolute_of_mem_ancestors hp hd'
  rwa [isAbsolute_iff_head, hcs, ← isAbsolute_iff_head] at habs

end Path

namespace Loader

variable {l : Loader} {t : FileTree} {target dir : Path}

variable (l) in
/-- The paths that may mean a file: the path itself and the path extended. -/
def fileCandidates (target : Path) : List Path :=
  target :: l.extensions.map fun extension => ⟨target.text ++ extension⟩

variable (l) in
/-- The paths that may be the index file of a directory. -/
def indexCandidates (dir : Path) : List Path :=
  l.extensions.map fun extension => dir / (canonicalStem ++ extension)

variable (t) in
/-- The main files that the manifest of a directory declares, of which there is at most one: the
manifest is a file that holds a JSON object, its member `main` is a text, and some character of
this text is not white space. -/
def declaredMains (dir : Path) : List String :=
  match (t.object? (dir / packageManifestName)).bind (·.get? "main") with
  | some (.string main) => if main.toList.any fun c => !isBlank c then [main] else []
  | _ => []

variable (l) in
/-- The paths that a main file may mean, seen from the directory that declares it. -/
def mainCandidates (dir : Path) (main : String) : List Path :=
  let target := (dir / main).normalize
  l.fileCandidates target ++ l.indexCandidates target

variable (l t) in
/-- The paths that may be meant by a directory. -/
def directoryCandidates (dir : Path) : List Path :=
  if t.isDirectory dir then
    (declaredMains t dir).flatMap (l.mainCandidates dir) ++ l.indexCandidates dir
  else []

variable (l t) in
/-- The paths that may be meant by a path, in the order of preference. -/
def candidates (p : Path) : List Path :=
  let target := p.normalize
  l.fileCandidates target ++ l.directoryCandidates t target

variable (l t) in
/-- The paths that a bare specifier may mean, seen from the directory `base`: it is looked for in
every package tree around, as it stands but for its slashes. -/
def bareCandidates (base : Path) (specifier : String) : List Path :=
  let slashed := String.ofList (specifier.toList.map fun c => if c = '\\' then '/' else c)
  let places := base.outward.filter fun dir => dir.components.getLast? ≠ some (.name packageTreeName)
  places.flatMap fun dir => l.candidates t (dir / packageTreeName / slashed)

variable (l t) in
/-- The paths that a specifier may mean, seen from the directory `base`. -/
def candidatesFrom (base : Path) (specifier : String) : List Path :=
  match Specifier.parse specifier with
  | .empty => []
  | .absolute path => l.candidates t ⟨path⟩
  | .relative path => l.candidates t (base / path)
  | .inScope _ _ | .plain _ _ => l.bareCandidates t base specifier

theorem mem_directoryCandidates_iff {q : Path} :
    q ∈ l.directoryCandidates t dir ↔ t.isDirectory dir = true ∧
      ((∃ main ∈ declaredMains t dir, q ∈ l.fileCandidates (dir / main).normalize ∨
        q ∈ l.indexCandidates (dir / main).normalize) ∨ q ∈ l.indexCandidates dir) := by
  unfold directoryCandidates
  split <;> simp [mainCandidates, *]

/-! ## The stages of the search -/

theorem asFile?_eq : l.asFile? t target = (l.fileCandidates target).find? t.isFile := by
  rw [asFile?, fileCandidates, List.find?_cons]
  cases t.isFile target <;> rfl

theorem index?_eq : l.index? t dir = (l.indexCandidates dir).find? t.isFile := rfl

theorem exists_members_of_object? {p : Path} {object : Json} (h : t.object? p = some object) :
    t.isFile p = true ∧ ∃ members, object = .object members := by
  unfold FileTree.object? FileTree.readText at h
  cases hread : t.read p with
  | error cause => simp [hread] at h
  | ok contents =>
    refine ⟨FileTree.isFile_of_read hread, ?_⟩
    cases hdecode : decode? contents with
    | none => simp [hread, hdecode] at h
    | some text =>
      simp only [hread, hdecode, Json.parseObject?] at h
      split at h
      · exact ⟨_, (Option.some.inj h).symm⟩
      · cases h

/-- What a manifest declares is read off the JSON object in it. -/
theorem main_manifestD (p : Path) :
    (t.manifestD p).main = ((t.object? p).bind (·.get? "main")).bind Json.string? := by
  rw [FileTree.manifestD, FileTree.objectD]
  cases hobject : t.object? p with
  | none => rfl
  | some object =>
    obtain ⟨-, members, rfl⟩ := exists_members_of_object? hobject
    rfl

/-- The main file that is looked for is the one that the manifest declares, seen from the
directory. -/
theorem map_declaredMains (t : FileTree) (dir : Path) :
    (declaredMains t dir).map (fun main => (dir / main).normalize) = (mainTarget? t dir).toList := by
  simp only [declaredMains, mainTarget?, main_manifestD]
  cases hmember : (t.object? (dir / packageManifestName)).bind (·.get? "main") with
  | none => simp
  | some value =>
    obtain ⟨object, hobject, -⟩ := Option.bind_eq_some_iff.1 hmember
    rw [if_pos (exists_members_of_object? hobject).1, Option.bind_some]
    cases value with
    | string main =>
      have hblank : (main.toList.any fun c => !isBlank c) = !isAllBlank main := by
        rw [isAllBlank, List.not_all_eq_any_not]
      cases h : isAllBlank main <;> simp [hblank, h, Json.string?]
    | _ => rfl

theorem asDirectory?_eq :
    l.asDirectory? t dir = (l.directoryCandidates t dir).find? t.isFile := by
  have hmains : (declaredMains t dir).flatMap (l.mainCandidates dir) =
      (mainTarget? t dir).toList.flatMap fun target =>
        l.fileCandidates target ++ l.indexCandidates target := by
    rw [← map_declaredMains, List.flatMap_map]
    rfl
  unfold asDirectory? directoryCandidates
  rw [hmains]
  split
  · cases mainTarget? t dir with
    | none => exact index?_eq
    | some target =>
      simp only [Option.orElse_eq_orElse, Option.orElse_eq_or, asFile?_eq, index?_eq,
        Option.toList_some, List.flatMap_singleton, List.find?_append, Option.or_assoc]
  · rfl

/-- A path leads to the first of its candidates that is a file. -/
theorem loadPath?_eq (p : Path) : l.loadPath? t p = (l.candidates t p).find? t.isFile := by
  simp only [loadPath?, candidates, Option.orElse_eq_orElse, Option.orElse_eq_or, asFile?_eq,
    asDirectory?_eq, List.find?_append]

end Loader

end Vendoring
