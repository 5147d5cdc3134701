/-
# Components of a page

The bundles that a manifest uses, directly or through the components in them. A
bundle is known by its directory, and the components that it uses in turn are
those that the manifest of the component declares. A manifest that is missing
declares none.
-/

import Vendoring.Graph.Dependency

namespace Vendoring

/-- The bundles reachable from a manifest. -/
abbrev ComponentGraph := Graph ComponentRef

namespace Resolver

variable (r : Resolver)

/-- The components that a manifest declares and that resolve. -/
def componentsIn (path : Path) (manifest : Json) : List ComponentRef :=
  (componentDeclarations manifest).filterMap fun (_, specifier) =>
    r.resolveComponent? specifier path

/-- The components that a manifest in the tree declares. -/
def componentsOf (path : Path) : List ComponentRef :=
  r.componentsIn path (r.tree.objectD path)

/-- How component declarations are followed. -/
def declarations : Links ComponentRef where
  key := (·.directory)
  source := (·.manifest)
  isMain := fun _ => false
  lookUp := r.componentsOf
  omits := fun _ => false

/-- The bundles reachable from a manifest, or from the text given in its place.
A text that is no JSON object declares nothing. -/
def componentGraph (manifest : Path) (content : Option String) (m : Memo ComponentRef) :
    ComponentGraph × Memo ComponentRef :=
  let (refs, m) := match content with
    | some text => (((Json.parseObject? text).map (r.componentsIn manifest)).getD [], m)
    | none => m.fetch manifest r.componentsOf
  Graph.build r.declarations refs m

end Resolver

namespace ComponentGraph

/-- How a bundle is shown: under which specifier, where and in which package it
is. -/
def describe (root : Path) (n : Node ComponentRef) : String :=
  n.first.specifier ++ " -> " ++ (n.first.directory.belowD root).text ++ "/ [" ++
    n.first.package ++ "]"

/-- The graph as lines, with paths seen from a directory. -/
def outline (g : ComponentGraph) (root : Path) : List String :=
  Graph.outline (describe root) g

end ComponentGraph

end Vendoring
