/-
# File names and extensions

The extension of a file is what follows the last dot of its name. A name whose
only dot is its first character, and the component `..`, have none.
-/

import Vendoring.Path.Basic

namespace Vendoring

open Text

/-- The two sides of the last dot of a file name. -/
def splitAtLastDot (name : List Char) : Option (List Char × List Char) :=
  match name.reverse.span (· ≠ '.') with
  | (_, []) => none
  | (after, _ :: before) => some (before.reverse, after.reverse)

namespace Path

/-- The name up to its extension and the extension without its dot. -/
def splitName (name : String) : String × Option String :=
  match splitAtLastDot name.toList with
  | none | some ([], _) => (name, none)
  | some (stem, extension) => (String.ofList stem, some (String.ofList extension))

/-- The file name without its extension. -/
def stem? (p : Path) : Option String :=
  p.fileName?.map fun name => (splitName name).1

/-- What follows the last dot of the file name. -/
def extension? (p : Path) : Option String :=
  p.fileName?.bind fun name => (splitName name).2

/-- The pieces of the path with the last one replaced, and nothing behind it. -/
def withLastSegment (p : Path) (segment : List Char) : Path :=
  match trimPadding p.segments with
  | [] => p
  | kept => ⟨String.ofList (joinWith '/' (kept.dropLast ++ [segment]))⟩

/-- The path with the extension of its file name removed. A path without a file
name stays as it is, and so does the first half of a name that would leave a
single dot, since `..` is not a file name. -/
def withoutExtension (p : Path) : Path :=
  match p.fileName? with
  | none => p
  | some name =>
    let stem := (splitName name).1
    p.withLastSegment (if stem = "." then ['.', '.'] else stem.toList)

end Path

end Vendoring
