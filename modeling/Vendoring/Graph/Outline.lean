/-
# Outlines of graphs

A graph is shown as lines, one for each reference, with what a place refers to
indented below it. A place that comes up again has its line but not what is
below it, and a mark if something was left out.
-/

import Vendoring.Graph.Basic

namespace Vendoring.Graph

variable {ρ : Type}

/-- What is shown after a place that was shown before with something below it. -/
def repeatMark : String := " ..."

/-- A line at a depth. -/
def indented (depth : Nat) (line : String) : String :=
  String.join (List.replicate depth "  ") ++ line

/-- The line for a place that has been shown before. -/
def repeatedLine (describe : Node ρ → String) (depth : Nat) (n : Node ρ) : String :=
  indented depth (describe n) ++ if n.children.isEmpty then "" else repeatMark

/-- A place that has not been shown, with the depth of its line and the places
that come behind it. -/
structure Unshown (ρ : Type) where
  /-- The place. -/
  key : Path
  /-- The depth of its line. -/
  depth : Nat
  /-- What is known about the place. -/
  node : Node ρ
  /-- The places behind it, each at its depth. -/
  rest : List (Path × Nat)

/-- The lines for some places up to the first that has not been shown. -/
def repeatedLines (describe : Node ρ → String) (g : Graph ρ) (shown : PathSet) :
    List (Path × Nat) → List String × Option (Unshown ρ)
  | [] => ([], none)
  | (key, depth) :: rest =>
    match g.nodes[key]? with
    | none => repeatedLines describe g shown rest
    | some node =>
      if shown.contains key then
        let (lines, next) := repeatedLines describe g shown rest
        (repeatedLine describe depth node :: lines, next)
      else ([], some ⟨key, depth, node, rest⟩)

/-- The lines for some places, each at its depth. The places whose references
have been shown are passed on, and at most `bound` more are shown. -/
def outlineFrom (describe : Node ρ → String) (g : Graph ρ) (bound : Nat)
    (todo : List (Path × Nat)) (shown : PathSet) : List String :=
  match bound, repeatedLines describe g shown todo with
  | _, (lines, none) | 0, (lines, some _) => lines
  | bound + 1, (lines, some new) =>
    let below := new.node.children.toPaths.map (·, new.depth + 1)
    lines ++ indented new.depth (describe new.node) ::
      outlineFrom describe g bound (below ++ new.rest) (shown.insert new.key ())

/-- The lines of a graph from the places that the starting file refers to. -/
def outline (describe : Node ρ → String) (g : Graph ρ) : List String :=
  outlineFrom describe g g.nodes.size (g.roots.toPaths.map (·, 1)) ∅

end Vendoring.Graph
