/-
# The module loader

How a loader finds the file that a specifier refers to. A path leads to the file
itself, then to the file with one of the known extensions behind it, and then,
if it is a directory, to the main file that the manifest there declares, or to
an index file. A main file that cannot be found does not end the search. A bare
name is looked for in the package trees of the directory and of every directory
around it, innermost first.
-/

import Vendoring.FileTree.Manifests
import Vendoring.Package
import Vendoring.Path.Normal
import Vendoring.Path.PackageTree
import Vendoring.Specifier

namespace Vendoring

open Text

/-- A loader, with the extensions that a specifier may leave out. -/
structure Loader where
  /-- The extensions in the order in which they are tried. -/
  extensions : List String := [".js", ".json", ".wxs"]
  deriving DecidableEq, Repr, Inhabited

namespace Loader

variable (l : Loader) (t : FileTree)

/-- The file itself, or else the first file with one of the extensions behind it. -/
def asFile? (target : Path) : Option Path :=
  if t.isFile target then some target
  else (l.extensions.map fun extension => ⟨target.text ++ extension⟩).find? t.isFile

/-- The index file of a directory. -/
def index? (dir : Path) : Option Path :=
  (l.extensions.map fun extension => dir / (canonicalStem ++ extension)).find? t.isFile

/-- The target of the main file that a directory's manifest declares. -/
def mainTarget? (dir : Path) : Option Path :=
  let manifest := dir / packageManifestName
  if t.isFile manifest then
    match (t.manifestD manifest).main with
    | some main => if isAllBlank main then none else some (dir / main).normalize
    | none => none
  else none

/-- The file that is meant by a directory. A main file that is not found leaves the search to
the index of the directory. -/
def asDirectory? (dir : Path) : Option Path :=
  if t.isDirectory dir then
    match mainTarget? t dir with
    | some target => l.asFile? t target <|> l.index? t target <|> l.index? t dir
    | none => l.index? t dir
  else none

/-- The file that a path leads to. -/
def loadPath? (p : Path) : Option Path :=
  let target := p.normalize
  l.asFile? t target <|> l.asDirectory? t target

/-- The places where a bare specifier may be installed, seen from a directory. -/
def installPlaces (base : Path) (specifier : String) : List Path :=
  let slashed := String.ofList (specifier.toList.map fun c => if c = '\\' then '/' else c)
  (base.ancestors.filter fun dir => !dir.endsWithName packageTreeName).map fun dir =>
    dir / packageTreeName / slashed

/-- The file that a specifier refers to in a file of the directory `base`. -/
def resolve? (base : Path) (specifier : String) : Option Path :=
  match Specifier.parse specifier with
  | .empty => none
  | .absolute path => l.loadPath? t ⟨path⟩
  | .relative path => l.loadPath? t (base / path)
  | .inScope _ _ | .plain _ _ => (installPlaces base specifier).findSome? (l.loadPath? t)

end Loader

end Vendoring
