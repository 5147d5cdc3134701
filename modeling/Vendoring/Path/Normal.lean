/-
# Normal paths

`Path.normalize` removes every `.` and resolves every `..` against the name in
front of it, by text alone. What remains is a root or a run of `..`, and then
names only; a path that comes to nothing is written `.`. Normal paths are the
keys under which files are claimed and recorded, so two routes to one file meet
at one spelling.
-/

import Vendoring.Path.Basic

namespace Vendoring.Path

/-- Take one more component into a walk whose components are held last first.
The root has no enclosing directory, so a `..` behind it changes nothing. -/
def advance (walked : List Component) : Component → List Component
  | .here => walked
  | .up =>
    match walked with
    | .name _ :: before => before
    | .root :: before => .root :: before
    | _ => .up :: walked
  | c => c :: walked

/-- The components left when `.` and `..` are resolved from the left. -/
def collapse (components : List Component) : List Component :=
  (components.foldl advance []).reverse

/-- The plainest spelling of the place that the path leads to. -/
def normalize (p : Path) : Path :=
  match collapse p.components with
  | [] => ⟨"."⟩
  | cs => ofComponents cs

/-- The length of the longest common beginning of two lists of components. -/
def commonLength : List Component → List Component → Nat
  | c :: cs, d :: ds => if c = d then commonLength cs ds + 1 else 0
  | _, _ => 0

/-- The path that leads from the directory `source` to `goal`, when both are
seen from one place. An absolute goal cannot be reached from a relative
directory by steps, so it is named by itself. -/
def relativePath (source goal : Path) : Path :=
  let steps (p : Path) := p.normalize.components.filter (· ≠ .here)
  let start := steps source
  let target := steps goal
  let common := commonLength start target
  let climb := List.replicate (start.length - common) Component.up
  match climb, target.drop common with
  | [], [] => ⟨"."⟩
  | _, .root :: down => ofComponents (.root :: down)
  | climb, down => ofComponents (climb ++ down)

/-- The path with single slashes and without padding, as specifiers write it. -/
def slashed (p : Path) : String :=
  (ofComponents p.components).text

/-- The path written so that it is read as relative to the file it stands in:
a text that does not start with a dot gets `./` in front. -/
def relativeSpecifier (p : Path) : String :=
  let s := p.slashed
  if s = "." then "./"
  else if s.toList.head? = some '.' then s
  else "./" ++ s

end Vendoring.Path
