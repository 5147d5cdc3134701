/-
# Kinds of files

What a file can refer to depends on what it is. Scripts import modules,
stylesheets import stylesheets, manifests declare components; other files are
copied and never read. The extension decides, in either case of its letters.
-/

import Vendoring.Path.Extension

namespace Vendoring

/-- How the references in a file are written. -/
inductive FileKind
  | script
  | stylesheet
  | manifest
  | other
  deriving DecidableEq, Repr

namespace FileKind

/-- The extensions of scripts. -/
def scriptExtensions : List String := ["js", "jsx", "mjs", "cjs", "ts", "wxs"]

/-- The extensions of stylesheets. -/
def stylesheetExtensions : List String := ["css", "wxss", "less", "sass", "scss"]

/-- The kind of a file with the given extension. -/
def ofExtension (extension : String) : FileKind :=
  let lower := String.ofList (extension.toList.map Char.toLower)
  if lower ∈ scriptExtensions then script
  else if lower ∈ stylesheetExtensions then stylesheet
  else if lower = "json" then manifest
  else other

/-- The kind of the file at a path. -/
def ofPath (p : Path) : FileKind :=
  match p.extension? with
  | some extension => ofExtension extension
  | none => other

/-- Whether specifiers in such a file can be rewritten. -/
def isRewritable (k : FileKind) : Bool :=
  k ≠ other

end FileKind

end Vendoring
