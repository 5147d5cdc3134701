/-
# Files of a build

Files enter a build with the directory that they are seen from, and leave it
with the place where they are written, seen from the output directory. A file
that leaves is one that entered, or a file of a package together with its
placement and the route by which it was reached.
-/

import Vendoring.FileKind
import Vendoring.Placement

namespace Vendoring

/-- A file that enters a build. -/
structure SourceFile where
  /-- Where the file lies. -/
  path : Path
  /-- The directory that it is seen from. -/
  base : Path
  /-- What it holds; a directory holds nothing. -/
  contents : Option ByteArray

namespace SourceFile

/-- Whether there is nothing in the file to be read. -/
def isNull (f : SourceFile) : Bool :=
  f.contents.all fun bytes => bytes.size = 0

/-- How references in the file are written. -/
def kind (f : SourceFile) : FileKind :=
  FileKind.ofPath f.path

/-- The path of the file seen from its base, and its name if it lies elsewhere. -/
def relative (f : SourceFile) : Path :=
  match f.path.below? f.base with
  | some rest => rest
  | none => ⟨f.path.fileName?.getD ""⟩

end SourceFile

/-- How a file came to leave the build. -/
inductive Origin
  /-- It entered the build. -/
  | input
  /-- It is imported. -/
  | dependency (placement : Placement)
  /-- It lies in the bundle of a component. -/
  | component (placement : Placement)
  /-- It lies in a directory that is taken over completely. -/
  | fullExtract (placement : Placement)
  deriving DecidableEq, Repr

namespace Origin

/-- The placement of a file of a package. -/
def placement? : Origin → Option Placement
  | input => none
  | dependency p | component p | fullExtract p => some p

end Origin

/-- A file that leaves a build. -/
structure OutputFile where
  /-- Where the file was read. -/
  source : Path
  /-- Where it is written, seen from the output directory. -/
  relative : Path
  /-- What is written. -/
  contents : Option ByteArray
  /-- How it came to leave the build. -/
  origin : Origin

namespace OutputFile

/-- How references in the file are written. -/
def kind (f : OutputFile) : FileKind :=
  FileKind.ofPath f.relative

/-- Whether the file belongs to a package. -/
def isDependency (f : OutputFile) : Bool :=
  f.origin ≠ .input

/-- The directory that the file is written to, seen from the output directory. -/
def relativeDir (f : OutputFile) : Path :=
  f.relative.parent?.getD ⟨""⟩

end OutputFile

end Vendoring
