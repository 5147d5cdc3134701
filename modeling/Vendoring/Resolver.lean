/-
# Resolving references

A reference is a specifier in a file. It resolves if it leads to a file of an
installed package: a package name through the catalog, and a step such as `./x`
only inside a package, since steps in the project's own files lead to files that
are part of the build anyway. What does not resolve is not an error.

A component is declared in a manifest by a specifier that leads to a directory,
its bundle, and to the name of a manifest in it, which need not exist.
-/

import Vendoring.Catalog.Basic
import Vendoring.Loader

namespace Vendoring

/-- A specifier that resolved to a file of a package. -/
structure Reference where
  /-- The specifier as it is written. -/
  specifier : String
  /-- The file that it leads to. -/
  target : Path
  /-- The package that the file belongs to. -/
  package : String
  /-- Whether the specifier is the bare name of a package. -/
  isMain : Bool
  deriving DecidableEq, Repr

/-- A component declaration that resolved to a bundle. -/
structure ComponentRef where
  /-- The specifier as it is written. -/
  specifier : String
  /-- The package that the bundle belongs to. -/
  package : String
  /-- The directory with the files of the component. -/
  directory : Path
  /-- The manifest of the component, whether or not it exists. -/
  manifest : Path
  deriving DecidableEq, Repr

/-- What references are resolved against. -/
structure Resolver where
  /-- The files. -/
  tree : FileTree
  /-- The loader whose rules are followed. -/
  loader : Loader := {}
  /-- The installed packages. -/
  catalog : Catalog

namespace Resolver

variable (r : Resolver)

/-- The place inside a directory that a specifier's path leads to. -/
def inside (root : Path) (subpath : Option String) : Path :=
  match subpath with
  | some sub => root / sub
  | none => root

/-- The file inside a package that a path leads to. What is not found in the
built variant of the package is looked for in the package itself. -/
def intoPackage? (p : Package) (subpath : Option String) (dir : Path) : Option Path :=
  let find (root : Path) := r.loader.resolve? r.tree dir (inside root subpath).text
  (find p.contentRoot).or (p.alternateOutput.bind fun _ => find p.root)

/-- The file that a specifier leads to, if it can be one of a package. -/
def target? (specifier : String) (file : Path) : Option Path :=
  let dir := file.parent?.getD ⟨"/"⟩
  match Specifier.parse specifier with
  | .inScope name subpath | .plain name subpath =>
    (r.catalog.nearest? name dir).bind fun p => r.intoPackage? p subpath dir
  | .relative step =>
    (r.catalog.owner? file).bind fun _ => r.loader.resolve? r.tree dir step
  | .absolute _ | .empty => none

/-- The package that a file belongs to: the one it is installed in, or the one
that its path names. -/
def packageOf? (file : Path) : Option String :=
  ((r.catalog.owner? file).map (·.name)).or file.packageName?

/-- Resolve a specifier that stands in a file. -/
def resolve? (specifier : String) (file : Path) : Option Reference := do
  let target ← r.target? specifier file
  let package ← r.packageOf? target
  return { specifier := specifier
           target := target
           package := package
           isMain := (Specifier.parse specifier).packageName? = some specifier }

/-- The path that a component's specifier means, without an extension, and the
package that it was looked up in. The bare name of a package means its main
entry, or the index in its content root if it has none. -/
def componentPath? (specifier : String) (manifest dir : Path) : Option (Package × Path) :=
  match Specifier.parse specifier with
  | .inScope name subpath | .plain name subpath =>
    (r.catalog.nearest? name dir).map fun p =>
      match subpath with
      | some sub => (p, p.contentRoot / sub)
      | none =>
        match p.mainEntryPath? with
        | some main => (p, main.withoutExtension)
        | none => (p, p.contentRoot / canonicalStem)
  | .relative step => (r.catalog.owner? manifest).map fun p => (p, dir / step)
  | .absolute _ | .empty => none

/-- Resolve a component that a manifest declares. Its directory has to exist. -/
def resolveComponent? (specifier : String) (manifest : Path) : Option ComponentRef := do
  let dir ← manifest.parent?
  let (p, path) ← r.componentPath? specifier manifest dir
  let resolved := path.normalize
  let directory ← resolved.parent?
  if r.tree.isDirectory directory then
    return { specifier := specifier
             package := ((r.catalog.owner? resolved).map (·.name)).getD p.name
             directory := directory
             manifest := ⟨resolved.text ++ ".json"⟩ }
  else none

end Resolver

end Vendoring
