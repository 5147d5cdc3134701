/-
# The program

The files that a command may look at are read into a file tree, the command is
run on it, and what it changed is written back. Links are not followed.
-/

import Vendoring.Command.Run

namespace Vendoring.Program

open Command

/-- The tree after a change. A change that fails keeps what it did before. -/
def after (t : FileTree) (change : FilesM FileError Unit) : FileTree :=
  (change.run t).2

/-- Read what lies at a path into the tree. -/
partial def readInto (t : FileTree) (p : Path) : IO FileTree := do
  let place := (← IO.currentDir) / p.text
  match (← place.symlinkMetadata).type with
  | .dir =>
    let entries ← place.readDir
    entries.foldlM (fun t e => readInto t (p / e.fileName))
      (after t (FileTree.makeDirectories p))
  | .file =>
    let contents ← IO.FS.readBinFile place
    return after t do
      FileTree.makeDirectories (p.parent?.getD ⟨"/"⟩)
      FileTree.replaceFile p contents
  | _ => return t

/-- Read what lies at a path into the tree, if it exists and is not there yet. -/
def readPlace (t : FileTree) (p : Path) : IO FileTree := do
  if (t.find? p).isNone && (← ((← IO.currentDir) / p.text).pathExists) then readInto t p
  else return t

/-- The tree that a program starts from in the given directory. -/
def startTree (here : Path) : FileTree :=
  let t := after .empty (FileTree.makeDirectories here)
  { t with workingDir := Path.namesOf here.components }

/-- Write one entry of the tree. -/
def writeBack (change : Location × Entry) : IO Unit := do
  let place := (FileTree.absolutePath change.1).text
  match change.2 with
  | .directory => IO.FS.createDirAll place
  | .file contents => IO.FS.writeBinFile place contents

/-- A duration in seconds, with two decimal places. -/
def seconds (milliseconds : Nat) : String :=
  let hundredths := (milliseconds + 5) / 10
  let fraction := hundredths % 100
  toString (hundredths / 100) ++ "." ++ (if fraction < 10 then "0" else "") ++ toString fraction

/-- Run a command with the given settings, and say what came of it. -/
def execute (c : Command) (s : Settings) (here : Path) : IO UInt32 := do
  let begun ← IO.monoMsNow
  let t ← (c.places s).foldlM readPlace (startTree here)
  let outcome := c.run t s
  (outcome.tree.changesSince t).forM writeBack
  let taken := seconds ((← IO.monoMsNow) - begun)
  (outcome.report ⟨taken, taken⟩).forM fun line => IO.println line
  match outcome.failure with
  | none => return 0
  | some failure =>
    IO.eprintln ("Error: " ++ failure.message)
    return 1

end Vendoring.Program

open Vendoring Command Program in
/-- Read the command line and the environment, and run the command. -/
def main (args : List String) : IO UInt32 := do
  match Invocation.parse args with
  | .error e =>
    let isAnswer := e = .helpRequested || e = .versionRequested
    if isAnswer then IO.println e.message else IO.eprintln e.message
    return if isAnswer then 0 else 2
  | .ok invocation =>
    let here : Path := ⟨(← IO.currentDir).toString⟩
    match loadSettings (← Environment.read fun name => IO.getEnv name) here with
    | .error failure =>
      IO.eprintln ("Error: " ++ failure.message)
      return 1
    | .ok settings => execute invocation.command settings here
