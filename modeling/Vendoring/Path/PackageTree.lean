/-
# Package trees

Installed packages live in directories named `node_modules`, which may nest: a
package can bring a tree of its own. A path is split behind its innermost tree,
and what follows names the package, in two segments when the first starts with
`@`.
-/

import Vendoring.Path.Basic

namespace Vendoring

/-- The name of a directory that holds installed packages. -/
def packageTreeName : String := "node_modules"

namespace Path

/-- The components up to the innermost package tree, and those behind it. -/
def splitAtTree : List Component → Option (List Component × List Component)
  | [] => none
  | c :: cs =>
    match splitAtTree cs with
    | some (tree, within) => some (c :: tree, within)
    | none => if c = .name packageTreeName then some ([c], cs) else none

/-- The innermost package tree that the path lies in. -/
def packageTree? (p : Path) : Option Path :=
  (splitAtTree p.components).map fun split => ofComponents split.1

/-- The path seen from its innermost package tree; the tree itself has none. -/
def withinTree? (p : Path) : Option Path :=
  match splitAtTree p.components with
  | none | some (_, []) => none
  | some (_, within) => some (ofComponents within)

/-- The names among some components. -/
def namesOf (components : List Component) : List String :=
  components.filterMap fun
    | .name s => some s
    | _ => none

/-- The name of the package whose directory the path lies in or is. -/
def packageName? (p : Path) : Option String :=
  match p.withinTree?.map fun within => namesOf within.components with
  | some (first :: rest) =>
    if first.toList.head? = some '@' then
      rest.head?.map fun second => first ++ "/" ++ second
    else some first
  | _ => none

end Path

end Vendoring
