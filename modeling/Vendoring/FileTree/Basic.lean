/-
# File trees

A file tree is a finite map from locations to files and directories. A location
lists the names from the root inwards, so the order of the map is the order in
which a listing goes through the tree. Every entry lies in a directory of the
tree, and every name in a location is one that a single path segment can spell;
both are part of the type.

A path is looked up from the left. Each step has to be taken in a directory, so
a path with a slash or a dot behind the name of a file leads nowhere. There are
no links.
-/

import Vendoring.Failure
import Vendoring.Text.Utf8

namespace Vendoring

open Text

/-- The names from the root to an entry. -/
abbrev Location := List String

/-- What a location holds. -/
inductive Entry
  | file (contents : ByteArray)
  | directory

namespace Entry

/-- Entries are equal if they are of one kind and hold the same bytes. -/
instance : DecidableEq Entry
  | .directory, .directory => isTrue rfl
  | .file a, .file b =>
    if h : a.data = b.data then isTrue (congrArg file (ByteArray.ext h))
    else isFalse fun e => h (congrArg ByteArray.data (file.inj e))
  | .file _, .directory => isFalse nofun
  | .directory, .file _ => isFalse nofun

end Entry

/-- Whether a text can be the name of an entry. -/
def IsName (s : String) : Prop :=
  s ≠ "" ∧ s ≠ "." ∧ s ≠ ".." ∧ '/' ∉ s.toList ∧ '\x00' ∉ s.toList

instance (s : String) : Decidable (IsName s) :=
  inferInstanceAs (Decidable (_ ∧ _))

/-- A finite tree of files and directories, with the directory in which relative
paths start. -/
structure FileTree where
  /-- The entries by location. -/
  entries : Std.TreeMap Location Entry
  /-- Where relative paths start. -/
  workingDir : Location := []
  /-- The root is a directory. -/
  root_eq : entries[([] : Location)]? = some .directory
  /-- Every other entry lies in a directory. -/
  parent_eq : ∀ (loc : Location) (name : String),
    loc ++ [name] ∈ entries → entries[loc]? = some .directory
  /-- The names of an entry are names. -/
  isName_of_mem : ∀ loc ∈ entries, ∀ name ∈ loc, IsName name

namespace FileTree

/-- The tree that holds nothing but its root. -/
def empty : FileTree where
  entries := (∅ : Std.TreeMap Location Entry).insert [] .directory
  root_eq := by simp
  parent_eq loc name h := by
    simp only [Std.TreeMap.mem_insert, Std.TreeMap.not_mem_emptyc, or_false] at h
    have h := Std.LawfulEqCmp.compare_eq_iff_eq.1 h
    simp at h
  isName_of_mem loc h := by
    simp only [Std.TreeMap.mem_insert, Std.TreeMap.not_mem_emptyc, or_false] at h
    have h := Std.LawfulEqCmp.compare_eq_iff_eq.1 h
    simp [← h]

instance : Inhabited FileTree := ⟨empty⟩

/-- The longest name that an entry can have, in bytes. -/
def maxNameLength : Nat := 255

/-- The longest path that can be looked up, in bytes. -/
def maxPathLength : Nat := 4095

/-- Why a path leads nowhere in any tree, if its text alone decides that. -/
def refusal? (p : Path) : Option FileError :=
  if p.text = "" then some .notFound
  else if '\x00' ∈ p.text.toList then some .nulInPath
  else if p.text.utf8ByteSize > maxPathLength then some .nameTooLong
  else none

/-- A bound on the number of paths that can lead anywhere, which are texts of at
most `maxPathLength` bytes. Walks along paths are bounded by it. -/
def pathCount : Nat :=
  Nat.pow UInt8.size (maxPathLength + 1)

variable (t : FileTree)

/-- What lies at a location. -/
def entry? (loc : Location) : Option Entry :=
  t.entries[loc]?

/-- One step of a look-up: from a directory to what the next piece of a path
says. -/
def step (loc : Location) (segment : List Char) : Except FileError Location :=
  match t.entry? loc with
  | some .directory =>
    if Path.isPadding segment then .ok loc
    else if segment = ['.', '.'] then .ok loc.dropLast
    else
      let name := String.ofList segment
      if name.utf8ByteSize > maxNameLength then .error .nameTooLong
      else if (t.entry? (loc ++ [name])).isSome then .ok (loc ++ [name])
      else .error .notFound
  | some (.file _) => .error .notADirectory
  | none => .error .notFound

/-- The location at which the look-up of a path starts. -/
def startOf (p : Path) : Location :=
  if p.isAbsolute then [] else t.workingDir

/-- The location of the entry that the path leads to. -/
def locate (p : Path) : Except FileError Location :=
  match refusal? p with
  | some cause => .error cause
  | none => p.segments.foldlM t.step (t.startOf p)

/-- The entry that the path leads to. -/
def find? (p : Path) : Option Entry :=
  match t.locate p with
  | .ok loc => t.entry? loc
  | .error _ => none

/-- Whether the path leads to a file. -/
def isFile (p : Path) : Bool :=
  match t.find? p with
  | some (.file _) => true
  | _ => false

/-- Whether the path leads to a directory. -/
def isDirectory (p : Path) : Bool :=
  match t.find? p with
  | some .directory => true
  | _ => false

/-- The contents of the file that the path leads to. -/
def read (p : Path) : Except FileError ByteArray :=
  match t.locate p with
  | .error cause => .error cause
  | .ok loc =>
    match t.entry? loc with
    | some (.file contents) => .ok contents
    | some .directory => .error .isADirectory
    | none => .error .notFound

/-- The text of the file that the path leads to. -/
def readText (p : Path) : Except FileError String :=
  match t.read p with
  | .error cause => .error cause
  | .ok contents =>
    match decode? contents with
    | some s => .ok s
    | none => .error .notText

/-- The part of a location behind a directory that it lies in. -/
def locationBelow? (dir loc : Location) : Option Location :=
  if dir.isPrefixOf loc then some (loc.drop dir.length) else none

theorem eq_append_of_locationBelow? {loc full names : Location}
    (h : locationBelow? loc full = some names) : full = loc ++ names := by
  unfold locationBelow? at h
  split at h
  · next hbelow =>
    obtain ⟨rest, rfl⟩ := List.isPrefixOf_iff_prefix.1 hbelow
    rw [List.drop_left] at h
    rw [Option.some.inj h]
  · simp at h

/-- The names of the directories inside the directory that the path leads to, in
order. -/
def subdirectories (p : Path) : List String :=
  match t.locate p with
  | .error _ => []
  | .ok dir => t.entries.toList.filterMap fun (loc, e) =>
      match locationBelow? dir loc, e with
      | some [name], .directory => some name
      | _, _ => none

/-- A path extended by the names of a location. -/
def pathTo (p : Path) (names : Location) : Path :=
  names.foldl (· / ·) p

/-- The files that lie below the path, or the path itself if it leads to a file,
in the order of their locations. A directory is listed under the path that leads
to it from `p`, and left out if that path is too long to be looked up; the files
in the last directory that fits are listed whatever the length of their paths. -/
def filesBelow (p : Path) : List Path :=
  match t.locate p with
  | .error _ => []
  | .ok dir => t.entries.toList.filterMap fun (loc, e) =>
      match locationBelow? dir loc, e with
      | some names, .file _ =>
        if refusal? (pathTo p names.dropLast) = none then some (pathTo p names) else none
      | _, _ => none

/-- The path that leads to a location from anywhere. -/
def absolutePath (loc : Location) : Path :=
  Path.ofComponents (.root :: loc.map .name)

/-- The entries that an earlier tree does not have, outermost first. -/
def changesSince (earlier : FileTree) : List (Location × Entry) :=
  t.entries.toList.filter fun (loc, e) => earlier.entry? loc ≠ some e

end FileTree

end Vendoring
