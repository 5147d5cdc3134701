/-
# Dependencies of a file

The files of packages that a script or stylesheet needs, directly or through
others. The starting file is not part of its own graph. Its text may be given
apart from the tree, and then nothing is remembered about it.
-/

import Vendoring.Graph.Outline
import Vendoring.Resolver
import Vendoring.Scan.Basic

namespace Vendoring

/-- The files reachable from a file by import. -/
abbrev DependencyGraph := Graph Reference

namespace Resolver

variable (r : Resolver)

/-- The references in a text that resolve. -/
def referencesIn (path : Path) (content : String) : List Reference :=
  (Scan.dependencies path content).filterMap fun specifier => r.resolve? specifier path

/-- The references of a file in the tree. A file that cannot be read has none;
damaged text is read as far as possible. -/
def referencesOf (path : Path) : List Reference :=
  if FileKind.ofPath path = .other then []
  else
    match r.tree.read path with
    | .ok contents => r.referencesIn path (Text.decodeLossy contents)
    | .error _ => []

/-- How imports are followed from a file. -/
def imports (entry : Path) : Links Reference where
  key := (·.target)
  source := (·.target)
  isMain := (·.isMain)
  lookUp := r.referencesOf
  omits := fun p => p.SameAs entry

/-- The files reachable from a file, or from the text given in its place. -/
def dependencyGraph (entry : Path) (content : Option String) (m : Memo Reference) :
    DependencyGraph × Memo Reference :=
  let (refs, m) := match content with
    | some text => (r.referencesIn entry text, m)
    | none => m.fetch entry r.referencesOf
  Graph.build (r.imports entry) refs m

end Resolver

namespace DependencyGraph

/-- How a file of a package is shown: under which specifier, where and in which
package it is, and whether it is a main entry. -/
def describe (root : Path) (n : Node Reference) : String :=
  n.first.specifier ++ " -> " ++ (n.first.target.belowD root).text ++ " [" ++ n.first.package ++
    "]" ++ if n.isMain then " (main)" else ""

/-- The graph as lines, with paths seen from a directory. -/
def outline (g : DependencyGraph) (root : Path) : List String :=
  Graph.outline (describe root) g

end DependencyGraph

end Vendoring
