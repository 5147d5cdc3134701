/-
# Specifiers

A specifier is the text by which a source names what it imports. It names an
installed package, possibly with a path inside it, or a place relative to the
file it stands in. White space around it does not count, and a backslash is read
as a slash.
-/

import Vendoring.Text.Blank
import Vendoring.Text.Split

namespace Vendoring

open Text

/-- What a specifier refers to. -/
inductive Specifier
  /-- A package of a scope, named `@scope/name`, and a path inside it. -/
  | inScope (name : String) (subpath : Option String)
  /-- A package with a name of one segment, and a path inside it. -/
  | plain (name : String) (subpath : Option String)
  /-- A place seen from the directory of the file: `.`, `..`, `./x` or `../x`. -/
  | relative (text : String)
  /-- A place seen from the root of the file tree. -/
  | absolute (text : String)
  /-- Nothing: no text, or a scope without a package. -/
  | empty
  deriving DecidableEq, Repr

namespace Specifier

/-- A path inside a package without slashes at its end; nothing if that leaves
no text. -/
def subpathOf (s : List Char) : Option String :=
  match dropEndWhile (· = '/') s with
  | [] => none
  | kept => some (String.ofList kept)

/-- The text up to the first slash, and what follows that slash if there is one. -/
def cutAtSlash (s : List Char) : List Char × Option (List Char) :=
  match s.span (· ≠ '/') with
  | (first, []) => (first, none)
  | (first, _ :: rest) => (first, some rest)

/-- Whether a text is `.` or `..` or starts like a step from a directory. -/
def isStep (s : List Char) : Bool :=
  s = ['.'] || s = ['.', '.'] || ['.', '/'].isPrefixOf s || ['.', '.', '/'].isPrefixOf s

/-- Read a text that is neither empty nor a step nor absolute. -/
def ofPackageText (s : List Char) : Specifier :=
  match cutAtSlash s with
  | (first, rest) =>
    if first.head? = some '@' then
      match rest.map cutAtSlash with
      | none | some ([], _) => empty
      | some (second, subpath) =>
        if first.length = 1 then empty
        else inScope (String.ofList (first ++ '/' :: second)) (subpath.bind subpathOf)
    else plain (String.ofList first) (rest.bind fun r => subpathOf (r.dropWhile (· = '/')))

/-- A specifier text as it is compared: no white space around it, slashes only. -/
def clean (raw : String) : List Char :=
  (trim raw).toList.map fun c => if c = '\\' then '/' else c

/-- Read a specifier. -/
def parse (raw : String) : Specifier :=
  let s := clean raw
  if s = [] then empty
  else if s.head? = some '/' then absolute (String.ofList s)
  else if isStep s then relative (String.ofList s)
  else ofPackageText s

/-- The package that the specifier names. -/
def packageName? : Specifier → Option String
  | inScope name _ | plain name _ => some name
  | _ => none

/-- The path inside the package that the specifier names. -/
def subpath? : Specifier → Option String
  | inScope _ subpath | plain _ subpath => subpath
  | _ => none

/-- Whether the specifier names a package and nothing inside it. -/
def isBarePackage (s : Specifier) : Bool :=
  s.packageName?.isSome && s.subpath?.isNone

end Specifier

end Vendoring
