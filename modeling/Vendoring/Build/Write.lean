/-
# Writing outputs

The files of a build are written one after the other, each as a whole: a file is
either replaced completely or left as it was. Its contents go to a temporary file
in the same directory first, which is then moved into place, or removed if it
cannot be moved. The first failure ends the writing and names the file, or the
directory in which it was to be written.
-/

import Vendoring.Build.File
import Vendoring.FileTree.Edit

namespace Vendoring.FileTree

/-- How often a name for a temporary file is tried. -/
def temporaryAttempts : Nat := 1000000

/-- A name for a temporary file, hidden and always of one length. -/
def temporaryName (n : Nat) : String :=
  ".tmp" ++ String.ofList ((List.range 6).map fun i => Char.ofNat ('0'.toNat + n / Nat.pow 10 i % 10))

/-- Make a temporary file in a directory, under a name that is not taken. -/
def makeTemporary (dir : Path) (contents : ByteArray) : Nat → FilesM FileError Location
  | 0 => throw .alreadyExists
  | attempts + 1 =>
    tryCatch (makeEntry (dir / temporaryName attempts) (.file contents)) fun cause =>
      if cause = .alreadyExists then makeTemporary dir contents attempts
      else throw cause

/-- Put a file into place by way of a temporary file in the given directory. -/
def writeThrough (dir target : Path) (contents : ByteArray) : FilesM FileError Unit := do
  let temporary ← makeTemporary dir contents temporaryAttempts
  tryCatch (moveFile temporary target) fun cause => do
    modify (·.without temporary)
    throw cause

/-- Write one file together with the directories around it. -/
def writeFile (target : Path) (contents : ByteArray) : FilesM Failure Unit := do
  match target.parent? with
  | none => throw (.other ("Cannot get parent directory for " ++ target.text))
  | some dir =>
    ExceptT.adapt (Failure.write dir) (makeDirectories dir)
    ExceptT.adapt (Failure.write target) (writeThrough dir target contents)

/-- Write the files that have contents below a directory, and count them. -/
def writeOutputs (dest : Path) : List OutputFile → FilesM Failure Nat
  | [] => return 0
  | f :: rest => do
    match f.contents with
    | none => writeOutputs dest rest
    | some contents =>
      writeFile (dest.join f.relative) contents
      return (← writeOutputs dest rest) + 1

end Vendoring.FileTree
