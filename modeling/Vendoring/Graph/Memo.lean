/-
# Remembering what files refer to

A file can be reached from many places, and what it refers to is looked up when
it is first asked for and remembered from then on. Files that change after that
do not change what is remembered. Spellings of one path are one file.
-/

import Vendoring.Path.Basic

namespace Vendoring

/-- What is known about the references of files. -/
abbrev Memo (α : Type) := PathMap (List α)

namespace Memo

/-- What a file refers to, looked up if it is not known, and the knowledge after
that. -/
def fetch {α : Type} (m : Memo α) (file : Path) (lookUp : Path → List α) :
    List α × Memo α :=
  match m[file]? with
  | some known => (known, m)
  | none => (lookUp file, m.insert file (lookUp file))

/-- The number of references that are remembered. -/
def total {α : Type} (m : Memo α) : Nat :=
  m.toList.foldr (fun (_, refs) total => refs.length + total) 0

end Memo

end Vendoring
