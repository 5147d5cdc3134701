/-
# Manifests

Two kinds of JSON file steer a build. The manifest of a package names it, points
at its main file and may declare a built variant of its contents; the manifest
of a page or component declares the components it uses. A field of the wrong type
counts as missing, and a file that is no JSON object as an empty one, so a
damaged manifest never stops a build.
-/

import Vendoring.Json.Reader
import Vendoring.Text.Blank

namespace Vendoring

open Text

/-- The directory that a package may ship its built variant in. -/
def defaultAlternateDirname : String := "miniprogram_dist"

/-- The member of a manifest that declares the components it uses. -/
def componentsKey : String := "usingComponents"

/-- What a package says about itself. -/
structure Manifest where
  /-- The name of the package. -/
  name : Option String := none
  /-- The version, which may be written as a number. -/
  version : Option String := none
  /-- The file that the bare name of the package refers to. -/
  main : Option String := none
  /-- The declaration of a built variant, kept as it is written; a `null` that is
  written counts as a declaration. -/
  miniprogram : Option Json := none
  deriving Repr, Inhabited

namespace Manifest

/-- The text of a version, written as a string or as a number. -/
def versionText? : Json → Option String
  | .string s => some s
  | .number n => some n.toText
  | _ => none

/-- The manifest in a JSON value. An array gives the fields by position; any
other value, and an array that is too long, says nothing. -/
def ofJson : Json → Manifest
  | .object members =>
    let field (key : String) := members.lookup key
    { name := (field "name").bind Json.string?
      version := (field "version").bind versionText?
      main := (field "main").bind Json.string?
      miniprogram := field "miniprogram" }
  | .array items =>
    if items.length ≤ 4 then
      { name := items[0]?.bind Json.string?
        version := items[1]?.bind versionText?
        main := items[2]?.bind Json.string?
        miniprogram := items[3]? }
    else {}
  | _ => {}

/-- A text without the given beginning, however often it is repeated. -/
def dropRepeated : List Char → List Char
  | '.' :: '/' :: rest => dropRepeated rest
  | s => s

/-- A directory name as it is declared, without steps in front, slashes behind
and white space around it. -/
def dirnameOf (declared : String) : List Char :=
  dropEndWhile (· = '/') (dropRepeated (trim declared).toList)

/-- The directory to look in for a built variant of the package. A package that
declares nothing is looked into under the usual name, one that declares a false
value is not. -/
def alternateDirname? (m : Manifest) : Option String :=
  match m.miniprogram with
  | none => some defaultAlternateDirname
  | some (.string s) =>
    match dirnameOf s with
    | [] => none
    | dirname => some (String.ofList dirname)
  | some (.bool false) | some .null => none
  | some (.number n) => if n.isZero then none else some defaultAlternateDirname
  | some _ => some defaultAlternateDirname

end Manifest

/-- The components that a manifest declares, each with the specifier of its
bundle, in the order of their declarations. -/
def componentDeclarations (manifest : Json) : List (String × String) :=
  match (manifest.get? componentsKey).bind Json.members? with
  | some members => members.filterMap fun (label, value) =>
      (value.string?.filter (· ≠ "")).map (label, ·)
  | none => []

end Vendoring
