/-
# Showing the progress of a build

Most events are shown as lines at once. Failures are kept for the end, where
they stand below what the build amounts to.
-/

import Vendoring.Build.Event

namespace Vendoring.Command

/-- What has been seen of a build. -/
structure Display where
  /-- The number of files that entered the build. -/
  inputs : Nat := 0
  /-- The number of dependencies and components that were reported. -/
  extracted : Nat := 0
  /-- The number of files that were written. -/
  written : Nat := 0
  /-- The lines kept for the end. -/
  log : List String := []
  /-- What the build amounts to. -/
  summary : Option Summary := none
  /-- The lines shown so far. -/
  shown : List String := []

namespace Display

/-- Show a line at once. -/
def say (d : Display) (line : String) : Display :=
  { d with shown := d.shown ++ [line] }

/-- Keep a line for the end. -/
def keep (d : Display) (line : String) : Display :=
  { d with log := d.log ++ [line] }

/-- Take an event into account. -/
def apply (d : Display) : Event → Display
  | .buildStarted inputs =>
    { d with inputs := inputs }.say ("Building " ++ toString inputs ++ " input files")
  | .catalogReady packages => d.say ("Package tree: " ++ toString packages ++ " packages")
  | .dependencyExtracted specifier package | .componentExtracted specifier package =>
    { d with extracted := d.extracted + 1 }.say (" ✓ " ++ specifier ++ " (" ++ package ++ ")")
  | .fullExtractFinished entry files =>
    d.say (" ✓ " ++ entry ++ " (" ++ toString files ++ " files)")
  | .fileFailed path message => d.keep ("✗ " ++ path.text ++ ": " ++ message)
  | .rewriteFinished _ => d
  | .fileWritten _ => { d with written := d.written + 1 }
  | .buildFinished summary => { d with summary := some summary }
  | .logWarn message | .logError message => d.keep message

/-- The lines at the end of a build. How long the build and the whole command took
is given as text. -/
def closing (d : Display) (duration elapsed : String) : List String :=
  let summary := match d.summary with
    | none => []
    | some s =>
      ["", "Build finished in " ++ duration ++ "s (" ++ toString s.packages.length ++
        " packages, " ++ toString s.dependencies ++ " dependency files, " ++
        toString s.rewritten ++ " rewritten)"]
  let log := if d.log = [] then [] else "" :: d.log
  let totals :=
    if d.written = 0 then []
    else
      ["", "Inputs: " ++ toString d.inputs ++ "  Extracted: " ++ toString d.extracted ++
        "  Written: " ++ toString d.written ++ "  Elapsed: " ++ elapsed ++ "s"]
  summary ++ log ++ totals

/-- All lines of a build that reports the given events. -/
def lines (events : List Event) (duration elapsed : String) : List String :=
  let d := events.foldl apply {}
  d.shown ++ d.closing duration elapsed

end Display

end Vendoring.Command
