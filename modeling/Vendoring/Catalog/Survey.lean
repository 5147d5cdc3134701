/-
# Surveying the installed packages

The packages of a tree are its directories, and the directories inside its
scopes, the directories whose names start with `@`. Names that start with a dot
are hidden. A package may hold a tree of its own; trees are visited level by
level, so the packages nearest to the outermost tree are entered first.

A survey never fails: a directory that cannot be listed holds no packages, and a
package without a readable manifest is an ordinary one.
-/

import Vendoring.Catalog.Basic
import Vendoring.Loader
import Vendoring.Sorting

namespace Vendoring.Catalog

variable (t : FileTree) (l : Loader)

/-- Whether a name starts with the character. -/
def startsWithChar (name : String) (c : Char) : Bool :=
  name.toList.head? = some c

/-- The directories inside a directory that are not hidden and can be looked up. A
listing also shows the directories whose own paths are too long for that. -/
def visibleDirectories (dir : Path) : List String :=
  (t.subdirectories dir).filter fun name => !startsWithChar name '.' && t.isDirectory (dir / name)

/-- The packages directly inside a package tree, with their directories, ordered
by name. -/
def packageDirs (tree : Path) : List (String × Path) :=
  let found := (visibleDirectories t tree).flatMap fun name =>
    if startsWithChar name '@' then
      (visibleDirectories t (tree / name)).map fun inner =>
        (name ++ "/" ++ inner, tree / name / inner)
    else [(name, tree / name)]
  sortBy (fun a b => a.1 ≤ b.1) found

/-- What can be told about a package from its directory. The main entry is the
file that a loader finds in the content root, if it lies below that root. -/
def readPackage (name : String) (dir : Path) : Package :=
  let manifest := t.manifest? (dir / packageManifestName)
  let alternate := ((manifest.bind Manifest.alternateDirname?).map (dir / ·)).filter t.isDirectory
  let root := alternate.getD dir
  { name := name
    root := dir
    version := manifest.bind (·.version)
    alternateOutput := alternate
    mainEntry := (l.resolve? t root root.text).bind fun main => main.below? root }

/-- The trees inside the packages of a tree. -/
def nestedTrees (tree : Path) : List Path :=
  ((packageDirs t tree).map fun (_, dir) => dir / packageTreeName).filter t.isDirectory

/-- Enter the packages of one tree. -/
def enterTree (c : Catalog) (tree : Path) : Catalog :=
  (packageDirs t tree).foldl (fun c (name, dir) => c.insert (readPackage t l name dir)) c

/-- Enter the packages of some trees, then those of the trees inside them, and so
on for the given number of levels. -/
def enterLevels : Nat → List Path → Catalog → Catalog
  | 0, _, c => c
  | levels + 1, trees, c =>
    if trees = [] then c
    else enterLevels levels (trees.flatMap (nestedTrees t)) (trees.foldl (enterTree t l) c)

/-- The catalog of all packages below a package tree. Each level lies deeper in
the file tree than the one before, so there are fewer levels than entries. -/
def survey (treeRoot : Path) : Catalog :=
  if t.isDirectory treeRoot then
    enterLevels t l (t.entries.size + 1) [treeRoot] (empty treeRoot)
  else empty treeRoot

end Vendoring.Catalog
