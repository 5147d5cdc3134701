/-
# Packages

An installed package as the build sees it. A package may ship a second, already
built variant of its contents in a directory of its own; that directory then
stands in for the package root wherever contents are looked up, and disappears
again from the paths under which files are written out.
-/

import Vendoring.Path.Extension

namespace Vendoring

/-- The file that describes a package, in its root. -/
def packageManifestName : String := "package.json"

/-- The extension that a main entry is given if it has none. -/
def defaultEntryExtension : String := ".js"

/-- The stem that main entries are renamed to. -/
def canonicalStem : String := "index"

/-- An installed package. -/
structure Package where
  /-- The name under which it is imported. -/
  name : String
  /-- The directory that it is installed in. -/
  root : Path
  /-- The version it declares. -/
  version : Option String := none
  /-- The directory of its built variant. -/
  alternateOutput : Option Path := none
  /-- The file that the bare name refers to, seen from the content root. -/
  mainEntry : Option Path := none
  deriving DecidableEq, Repr, Inhabited

namespace Package

/-- The directory that paths inside the package are looked up in. -/
def contentRoot (p : Package) : Path :=
  p.alternateOutput.getD p.root

/-- The file that the bare name of the package refers to. -/
def mainEntryPath? (p : Package) : Option Path :=
  p.mainEntry.map p.contentRoot.join

/-- The extension of a path with its dot, and the default one if it has none. -/
def dottedExtension (p : Path) : String :=
  match p.extension? with
  | some extension => "." ++ extension
  | none => defaultEntryExtension

/-- The extension of the main entry, with its dot. -/
def mainEntryExtension (p : Package) : String :=
  (p.mainEntry.map dottedExtension).getD defaultEntryExtension

/-- A path in the built variant as if its files stood in the package root. -/
def stripAlternateOutput (p : Package) (path : Path) : Path :=
  match p.alternateOutput.bind path.below? with
  | some rest => p.root.join rest
  | none => path

end Package

end Vendoring
