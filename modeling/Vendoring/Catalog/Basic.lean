/-
# The catalog of installed packages

One name can be installed several times, at different depths. The catalog keeps
every package under its root and, for each name, the one that was entered first.
A root that is entered again takes the new package; a name keeps its first one.
-/

import Vendoring.Package
import Vendoring.Path.PackageTree

namespace Vendoring

/-- The packages installed below one package tree. -/
structure Catalog where
  /-- The directory of the outermost package tree. -/
  treeRoot : Path
  /-- The packages by their roots. -/
  byRoot : PathMap Package := ∅
  /-- For each name, the package of that name that was entered first. -/
  byName : Std.TreeMap String Package := ∅

namespace Catalog

/-- The catalog of a tree without packages. -/
def empty (treeRoot : Path) : Catalog where
  treeRoot := treeRoot

/-- Enter a package. -/
def insert (c : Catalog) (p : Package) : Catalog :=
  { c with
    byRoot := c.byRoot.insert p.root p
    byName := c.byName.insertIfNew p.name p }

variable (c : Catalog)

/-- The number of roots. -/
def size : Nat := c.byRoot.size

/-- The packages in the order of their roots. -/
def packages : List Package := c.byRoot.toList.map (·.2)

/-- The package that a name stands for where nothing else decides. -/
def get? (name : String) : Option Package := c.byName[name]?

/-- Whether some package has the name. -/
def contains (name : String) : Bool := c.byName.contains name

/-- The package of a name that a loader in the given directory sees: the one
installed in the nearest directory around it, and otherwise the one that the
name stands for. -/
def nearest? (name : String) (dir : Path) : Option Package :=
  let places := dir.ancestors.filter fun d => !d.endsWithName packageTreeName
  (places.findSome? fun d => c.byRoot[d / packageTreeName / name]?).or (c.get? name)

/-- The innermost package whose root holds the path. -/
def owner? (p : Path) : Option Package :=
  p.ancestors.findSome? fun d => c.byRoot[d]?

end Catalog

end Vendoring
