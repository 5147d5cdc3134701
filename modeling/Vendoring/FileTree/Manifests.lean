/-
# Manifests in a file tree

A file that is missing, is no text, or holds no JSON object reads as an empty
manifest. Where the difference matters, the reading that may fail is used.
-/

import Vendoring.FileTree.Basic
import Vendoring.Manifest

namespace Vendoring.FileTree

variable (t : FileTree)

/-- The JSON object in a file, if the file holds one. -/
def object? (p : Path) : Option Json :=
  match t.readText p with
  | .ok s => Json.parseObject? s
  | .error _ => none

/-- The JSON object in a file, and an empty one if the file holds none. -/
def objectD (p : Path) : Json :=
  (t.object? p).getD (.object [])

/-- The manifest of a package in a file, if the file holds one. -/
def manifest? (p : Path) : Option Manifest :=
  (t.object? p).map Manifest.ofJson

/-- The manifest of a package in a file, and one that says nothing if the file
holds none. -/
def manifestD (p : Path) : Manifest :=
  Manifest.ofJson (t.objectD p)

end Vendoring.FileTree
