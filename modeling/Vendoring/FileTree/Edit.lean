/-
# Changing file trees

Directories are made and files are put into place one at a time. An operation
that fails leaves behind what it did before it failed, so the operations run in
a monad that keeps the tree beside the failure.
-/

import Vendoring.FileTree.Basic

namespace Vendoring

/-- Computations that change a file tree and may fail. The changes made before a
failure stay. -/
abbrev FilesM (ε : Type) := ExceptT ε (StateM FileTree)

namespace FileTree

variable (t : FileTree)

/-- Whether an entry may be put at a location: it lies in a directory, its names
are names, and it does not take the place of a directory. -/
def Admits (loc : Location) : Prop :=
  loc ≠ [] ∧ (∀ name ∈ loc, IsName name) ∧ t.entries[loc.dropLast]? = some .directory ∧
    t.entries[loc]? ≠ some .directory

instance (loc : Location) : Decidable (t.Admits loc) :=
  inferInstanceAs (Decidable (_ ∧ _))

/-- The tree with an entry put at a location that admits it. -/
def put (loc : Location) (e : Entry) (h : t.Admits loc) : FileTree where
  entries := t.entries.insert loc e
  workingDir := t.workingDir
  root_eq := by
    rw [Std.TreeMap.getElem?_insert, if_neg, t.root_eq]
    simpa [Std.LawfulEqCmp.compare_eq_iff_eq] using h.1
  parent_eq dir name hmem := by
    obtain ⟨-, -, hparent, hdir⟩ := h
    simp only [Std.TreeMap.mem_insert, Std.LawfulEqCmp.compare_eq_iff_eq] at hmem
    have hold : t.entries[dir]? = some .directory := by
      rcases hmem with rfl | hmem
      · simpa using hparent
      · exact t.parent_eq dir name hmem
    rw [Std.TreeMap.getElem?_insert, if_neg, hold]
    rw [Std.LawfulEqCmp.compare_eq_iff_eq]
    rintro rfl
    exact hdir hold
  isName_of_mem dir hmem := by
    simp only [Std.TreeMap.mem_insert, Std.LawfulEqCmp.compare_eq_iff_eq] at hmem
    rcases hmem with rfl | hmem
    · exact h.2.1
    · exact t.isName_of_mem dir hmem

/-- The tree without the entry at a location other than the root, and without
everything below it. -/
def erase (loc : Location) (h : loc ≠ []) : FileTree where
  entries := t.entries.filter fun key _ => decide ¬loc <+: key
  workingDir := t.workingDir
  root_eq := by
    cases loc with
    | nil => exact absurd rfl h
    | cons name rest => simp [Std.TreeMap.getElem?_filter, t.root_eq]
  parent_eq dir name hmem := by
    rw [Std.TreeMap.mem_filter] at hmem
    obtain ⟨hmem, hkept⟩ := hmem
    simp only [Std.TreeMap.getKey_eq, decide_eq_true_eq] at hkept
    have hdir : ¬loc <+: dir := fun h => hkept (h.trans (List.prefix_append dir [name]))
    simp [Std.TreeMap.getElem?_filter, t.parent_eq dir name hmem, hdir]
  isName_of_mem dir hmem := by
    rw [Std.TreeMap.mem_filter] at hmem
    exact t.isName_of_mem dir hmem.1

/-- The tree with the entries put one after the other, as far as it then admits them. -/
def ofEntries (entries : List (Location × Entry)) : FileTree :=
  entries.foldl (fun t (loc, e) => if h : t.Admits loc then t.put loc e h else t) empty

/-- Put an entry at a location, unless the location does not admit it. -/
def putEntry (loc : Location) (e : Entry) : FilesM FileError Unit := do
  let t ← get
  if h : t.Admits loc then set (t.put loc e h)
  else throw .notADirectory

/-- The pieces of a path without padding at its end, split before the last one. -/
def lastSegment? (p : Path) : Option (List (List Char) × List Char) :=
  let kept := Path.trimPadding p.segments
  kept.getLast?.map fun last => (kept.dropLast, last)

/-- Whether a slash or a dot stands behind the last name of a path. -/
def hasPaddingBehind (p : Path) : Bool :=
  p.segments.getLast?.any Path.isPadding

/-- The location that the path would have if its last name were an entry. The
directory in front of that name has to exist. -/
def placeOf (p : Path) : Except FileError (Option Location) :=
  match refusal? p, lastSegment? p with
  | some cause, _ => .error cause
  | none, none => .ok none
  | none, some (_, ['.', '.']) => (t.locate p).map fun _ => none
  | none, some (before, last) => do
    let dir ← before.foldlM t.step (t.startOf p)
    match t.entry? dir with
    | some .directory =>
      let name := String.ofList last
      if name.utf8ByteSize > maxNameLength then throw .nameTooLong
      return some (dir ++ [name])
    | some (.file _) => throw .notADirectory
    | none => throw .notFound

/-- Make an entry that does not exist yet in a directory that exists. -/
def makeEntry (p : Path) (e : Entry) : FilesM FileError Location := do
  let t ← get
  match t.placeOf p with
  | .error cause => throw cause
  | .ok none => throw .alreadyExists
  | .ok (some loc) =>
    if (t.entry? loc).isSome then throw .alreadyExists
    else
      putEntry loc e
      return loc

/-- Make one directory in a directory that exists. -/
def makeDirectory (p : Path) : FilesM FileError Unit := do
  let _ ← makeEntry p .directory
  return ()

/-- Make one directory. What stands in the way is not a failure if it is a
directory. -/
def ensureDirectory (p : Path) (otherwise : FileError → FilesM FileError Unit) :
    FilesM FileError Unit :=
  tryCatch (makeDirectory p) fun cause => do
    if (← get).isDirectory p then pure () else otherwise cause

/-- Make the first of some nested directories, given innermost first, after those
around it that are missing. -/
def makeDirectoriesOf : List Path → FilesM FileError Unit
  | [] => throw (.described "failed to create whole tree")
  | p :: outer =>
    if p.text = "" then pure ()
    else ensureDirectory p fun cause =>
      if cause = .notFound then do
        makeDirectoriesOf outer
        ensureDirectory p throw
      else throw cause

/-- Make a directory and all missing directories around it. -/
def makeDirectories (p : Path) : FilesM FileError Unit :=
  makeDirectoriesOf p.ancestors

/-- The location at which a file can be put into place, instead of a file that is
there already. -/
def slotOf (p : Path) : Except FileError Location :=
  match t.placeOf p with
  | .error cause => .error cause
  | .ok none => .error .busy
  | .ok (some loc) =>
    if hasPaddingBehind p then .error .notADirectory
    else if t.entry? loc = some .directory then .error .isADirectory
    else .ok loc

/-- Put a file into place as a whole. -/
def replaceFile (p : Path) (contents : ByteArray) : FilesM FileError Unit := do
  let t ← get
  match t.slotOf p with
  | .error cause => throw cause
  | .ok loc => putEntry loc (.file contents)

/-- The tree without the entry at a location. The root stays. -/
def without (loc : Location) : FileTree :=
  if h : loc ≠ [] then t.erase loc h else t

/-- Move a file into place as a whole. -/
def moveFile (loc : Location) (p : Path) : FilesM FileError Unit := do
  let t ← get
  match t.entry? loc, t.slotOf p with
  | some (.file contents), .ok slot =>
    if slot ≠ loc then
      putEntry slot (.file contents)
      modify (·.without loc)
  | some (.file _), .error cause => throw cause
  | some .directory, _ => throw .isADirectory
  | none, _ => throw .notFound

/-- Remove what the path leads to. -/
def remove (p : Path) : FilesM FileError Unit := do
  let t ← get
  match t.locate p with
  | .error cause => throw cause
  | .ok loc => if h : loc ≠ [] then set (t.erase loc h) else throw .busy

end FileTree

end Vendoring
