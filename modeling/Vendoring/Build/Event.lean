/-
# Events of a build

What a build reports while it runs, in the order in which it happens.
-/

import Vendoring.Failure

namespace Vendoring

/-- What a finished build amounts to. -/
structure Summary where
  /-- The number of files that entered the build. -/
  inputs : Nat
  /-- The number of files of packages. -/
  dependencies : Nat
  /-- The number of files whose specifiers were changed. -/
  rewritten : Nat
  /-- The packages that files were taken from, in order of their names. -/
  packages : List String
  deriving DecidableEq, Repr

/-- Something that happened in a build. -/
inductive Event
  | buildStarted (inputs : Nat)
  | catalogReady (packages : Nat)
  | dependencyExtracted (specifier package : String)
  | componentExtracted (specifier package : String)
  | fullExtractFinished (entry : String) (files : Nat)
  | fileFailed (path : Path) (message : String)
  | rewriteFinished (count : Nat)
  | fileWritten (relative : Path)
  | buildFinished (summary : Summary)
  | logWarn (message : String)
  | logError (message : String)
  deriving DecidableEq, Repr

/-- The report of a file that could not be dealt with. -/
def Event.ofFailure (path : Path) (failure : Failure) : Event :=
  .fileFailed path failure.message

end Vendoring
