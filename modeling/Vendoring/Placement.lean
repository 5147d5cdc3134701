/-
# Placing dependencies

Every file of a dependency is written below the output directory for packages,
under the path that it has below its package tree. The directory of a built
variant is left out of that path, so its files take the places of the package's
own. Under the platform's own directory name a main entry is renamed to the
canonical name, which is where the platform looks for it.
-/

import Vendoring.Catalog.Basic
import Vendoring.Path.Normal
import Vendoring.Settings

namespace Vendoring

/-- Where one file of a dependency is written. -/
structure Placement where
  /-- The file as it is installed. -/
  source : Path
  /-- The place of the output, as if the output directory lay in the tree. -/
  destination : Path
  /-- The package tree that the output directory stands for. -/
  base : Path
  /-- The package that the file was reached as a part of. -/
  package : String
  /-- Whether the file was reached as the main entry of the package. -/
  isMain : Bool
  deriving DecidableEq, Repr

/-- The destination seen from the output directory. -/
def Placement.relative (p : Placement) : Path :=
  p.destination.belowD p.base

/-- The rules by which files are placed. -/
structure Planner where
  /-- The installed packages. -/
  catalog : Catalog
  /-- The name of the output directory for packages. -/
  npmDirname : String

namespace Planner

variable (r : Planner)

/-- Whether main entries are renamed. -/
def renamesMain : Bool :=
  r.npmDirname = defaultNpmDirname

/-- The package that a file belongs to: the one it is installed in, if that has
the given name, and otherwise the one that the name stands for. -/
def packageFor? (file : Path) (name : String) : Option Package :=
  ((r.catalog.owner? file).filter fun p => p.name = name).or (r.catalog.get? name)

/-- The file as if its package had no built variant. -/
def plainLayout (file : Path) (name : String) : Path :=
  match r.packageFor? file name with
  | some p => p.stripAlternateOutput file
  | none => file

/-- The path of the canonical main entry below the package tree. -/
def canonicalEntry (file : Path) (name : String) : Path :=
  (⟨name⟩ : Path) / (canonicalStem ++ Package.dottedExtension file)

/-- Where a file reached as a part of the named package is written. A file that
does not lie below a package tree has no place. -/
def place? (path : Path) (name : String) (isMain : Bool) : Option Placement := do
  let file := path.normalize
  let layout := r.plainLayout file name
  let tree ← layout.packageTree?
  let within ← layout.withinTree?
  let kept := if isMain && r.renamesMain then canonicalEntry file name else within
  return { source := file
           destination := (tree / r.npmDirname).join kept
           base := tree
           package := name
           isMain := isMain }

/-- The directory that a package is written to, seen from the output directory. -/
def outputRoot? (p : Package) : Option Path :=
  p.root.withinTree?.map fun within => (⟨r.npmDirname⟩ : Path).join within

/-- Where the main entry of a package is written, seen from the output directory. -/
def mainOutput? (p : Package) : Option Path := do
  let main ← p.mainEntryPath?
  let placement ← r.place? main p.name true
  return placement.relative

/-- Whether a file is the main entry of the named package, by whatever specifier
it was reached. -/
def isMainFile (path : Path) (name : String) : Bool :=
  let file := path.normalize
  match (r.packageFor? file name).bind Package.mainEntryPath? with
  | some main => main.normalize.SameAs file
  | none => false

end Planner

end Vendoring
