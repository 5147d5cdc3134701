/-
# Where packages ended up

A table of the packages that a build has written, by name, and of every file of
a package with the place where it was written. A bare name points at the main
entry that was really written; until one has been seen that was reached as a
main entry, the file that the package declares is good enough.
-/

import Vendoring.Build.File

namespace Vendoring

/-- Where one package was written. -/
structure PackageEntry where
  /-- The name of the package. -/
  name : String
  /-- The directory that it is written to, seen from the output directory. -/
  outputRoot : Path
  /-- The file that the bare name points at. -/
  mainEntry : Option Path := none
  /-- The directory of the built variant, seen from the package root. -/
  alternateDirname : Option String := none
  /-- Whether the main entry was reached as one. -/
  isPinned : Bool := false
  deriving DecidableEq, Repr

/-- The packages and files that a build has written. -/
structure PackageTable where
  /-- The packages by name. -/
  entries : Std.TreeMap String PackageEntry := ∅
  /-- The places of the files, by where they were read. -/
  emitted : PathMap Path := ∅

namespace PackageEntry

/-- What can be said about a package before its files are looked at. -/
def ofPackage? (r : Planner) (p : Package) : Option PackageEntry :=
  (r.outputRoot? p).map fun root =>
    { name := p.name
      outputRoot := root
      mainEntry := r.mainOutput? p
      alternateDirname :=
        ((p.alternateOutput.bind (·.below? p.root)).map Path.slashed).filter (· ≠ "") }

/-- Take note of a file of the package. A file reached as a main entry is what
the bare name points at, and stays so against files that were not. -/
def note (e : PackageEntry) (p : Package) (placement : Placement) (relative : Path) :
    PackageEntry :=
  let isMainFile := p.mainEntryPath?.any fun main => main.SameAs placement.source
  if placement.isMain || (isMainFile && !e.isPinned) then
    { e with mainEntry := some relative, isPinned := e.isPinned || placement.isMain }
  else e

end PackageEntry

namespace PackageTable

/-- Enter a package, in place of one of the same name. -/
def insert (t : PackageTable) (e : PackageEntry) : PackageTable :=
  { t with entries := t.entries.insert e.name e }

/-- Enter the place of a file. -/
def record (t : PackageTable) (source relative : Path) : PackageTable :=
  { t with emitted := t.emitted.insert source relative }

/-- What is known about a package. -/
def get? (t : PackageTable) (name : String) : Option PackageEntry := t.entries[name]?

/-- Where the file read from a path was written. -/
def outputOf? (t : PackageTable) (source : Path) : Option Path := t.emitted[source]?

/-- The number of packages. -/
def size (t : PackageTable) : Nat := t.entries.size

/-- Take a file into the table. Files that are not of a package are left out, and
so is what the file would say about a package that has no place. -/
def addFile (r : Planner) (t : PackageTable) (f : OutputFile) : PackageTable :=
  match f.origin.placement? with
  | none => t
  | some placement =>
    let t := t.record placement.source f.relative
    match r.packageFor? placement.source placement.package with
    | none => t
    | some p =>
      match (t.get? p.name).or (PackageEntry.ofPackage? r p) with
      | none => t
      | some e => { t with entries := t.entries.insert p.name (e.note p placement f.relative) }

/-- The table of the files that a build has written. -/
def ofOutputs (r : Planner) (files : List OutputFile) : PackageTable :=
  files.foldl (addFile r) {}

end PackageTable

end Vendoring
