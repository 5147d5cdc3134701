/-
# Graphs of references

What is reachable from one file, each place once. A place is found by a
reference and leads on to the references of some file; where it is reached
again, only what the new reference says about it is added. Edges are kept as
keys of the same map, so cycles need no care.

The references still to be followed wait in a list, and those of a new place go
in front. Places are therefore found in the order of a walk in depth, which
decides the reference under which a place is known. The walk ends because only
finitely many paths lead anywhere in a file tree.
-/

import Vendoring.FileTree.Basic
import Vendoring.Graph.Memo

namespace Vendoring

/-- How references of one sort are followed. -/
structure Links (ρ : Type) where
  /-- The place that a reference leads to. -/
  key : ρ → Path
  /-- The file whose references are followed from that place. -/
  source : ρ → Path
  /-- Whether a reference leads to the main entry of a package. -/
  isMain : ρ → Bool
  /-- The references of a file. -/
  lookUp : Path → List ρ
  /-- Whether a place is left out of the graph. -/
  omits : Path → Bool

/-- A place in a graph of references. -/
structure Node (ρ : Type) where
  /-- The reference by which the place was found first. -/
  first : ρ
  /-- Whether the starting file itself refers to the place. -/
  isRootLevel : Bool
  /-- Whether some reference leads here as to a main entry. -/
  isMain : Bool
  /-- The places that the references from here lead to. -/
  children : PathSet

/-- The places reachable from a file. -/
structure Graph (ρ : Type) where
  /-- The places that the starting file refers to. -/
  roots : PathSet := ∅
  /-- All places reached. -/
  nodes : PathMap (Node ρ) := ∅

namespace Graph

variable {ρ : Type} (links : Links ρ)

/-- The places that some references lead to, without those left out. -/
def targets (refs : List ρ) : PathSet :=
  ((refs.map links.key).filter fun p => !links.omits p).foldl (fun s p => s.insert p ()) ∅

/-- Add what a further reference says about a place that is known. -/
def relink (g : Graph ρ) (ref : ρ) (atRoot : Bool) : Graph ρ :=
  { g with
    nodes := g.nodes.modify (links.key ref) fun n =>
      { n with
        isRootLevel := n.isRootLevel || atRoot
        isMain := n.isMain || links.isMain ref } }

/-- Add the place that a reference leads to, with the references from there. -/
def addNode (g : Graph ρ) (ref : ρ) (atRoot : Bool) (onward : List ρ) : Graph ρ :=
  { g with
    nodes := g.nodes.insert (links.key ref)
      { first := ref
        isRootLevel := atRoot
        isMain := links.isMain ref
        children := targets links onward } }

/-- Follow the references of a list up to the first that leads to a new place.
Gives that reference with those behind it. A reference is told with whether it
comes from the starting file. -/
def followKnown (g : Graph ρ) :
    List (ρ × Bool) → Graph ρ × Option (ρ × Bool × List (ρ × Bool))
  | [] => (g, none)
  | (ref, atRoot) :: rest =>
    if links.omits (links.key ref) then followKnown g rest
    else if g.nodes.contains (links.key ref) then
      followKnown (g.relink links ref atRoot) rest
    else (g, some (ref, atRoot, rest))

/-- Follow the references of a list. At most `bound` new places are added. -/
def follow (bound : Nat) (todo : List (ρ × Bool)) (g : Graph ρ) (m : Memo ρ) :
    Graph ρ × Memo ρ :=
  match bound, g.followKnown links todo with
  | _, (g, none) | 0, (g, some _) => (g, m)
  | bound + 1, (g, some (ref, atRoot, rest)) =>
    let (onward, m) := m.fetch (links.source ref) links.lookUp
    follow bound (onward.map (·, false) ++ rest) (g.addNode links ref atRoot onward) m

/-- The graph of everything reachable by the given references of the starting
file. What is looked up leads to places of a file tree, and what is remembered
may lead to places that are gone; together they bound the number of places. -/
def build (refs : List ρ) (m : Memo ρ) : Graph ρ × Memo ρ :=
  follow links (FileTree.pathCount + m.total) (refs.map (·, true))
    { roots := targets links refs } m

variable (g : Graph ρ)

/-- The places with their keys in the order of their paths. -/
def toList : List (Path × Node ρ) := g.nodes.toList

/-- The number of places. -/
def size : Nat := g.nodes.size

end Graph

end Vendoring
