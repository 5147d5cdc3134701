/-
# Settings of a build

Where the project lies, where its packages are installed, and under which name
their files are written out. Settings are read from the environment and then
overridden one by one; moving the project moves its package tree along.
-/

import Vendoring.Failure
import Vendoring.Path.PackageTree
import Vendoring.Text.Blank

namespace Vendoring

open Text

/-- The output directory that the platform itself uses for packages. Only under
this name are main entries renamed to the canonical one. -/
def defaultNpmDirname : String := "miniprogram_npm"

/-- The settings of a build. -/
structure Settings where
  /-- The directory of the project. -/
  projectRoot : Path
  /-- The directory that packages are installed in. -/
  packageTree : Path
  /-- The name of the output directory for packages, a single segment. -/
  npmDirname : String := defaultNpmDirname
  /-- Directories inside packages, or packages, that are taken over completely. -/
  fullExtract : List String := []
  /-- How many workers run at a time. The result of a build does not depend on it. -/
  jobs : Nat := 1
  deriving DecidableEq, Repr, Inhabited

/-- The variables that settings are read from. -/
structure Environment where
  /-- The directory of the project. -/
  projectRoot : Option String := none
  /-- The name of the output directory for packages. -/
  npmDirname : Option String := none
  /-- What is taken over completely, separated by commas. -/
  fullExtract : Option String := none
  /-- The number of workers. -/
  jobs : Option String := none

/-- The variables under the names that they have in the environment of a process. -/
def Environment.read {m : Type → Type} [Monad m] (get : String → m (Option String)) :
    m Environment := do
  return { projectRoot := ← get "MPN_PROJECT_ROOT"
           npmDirname := ← get "MPN_NPM_DIRNAME"
           fullExtract := ← get "MPN_FULL_EXTRACT"
           jobs := ← get "MPN_JOBS" }

namespace Settings

/-- The settings of a project that overrides nothing. -/
def forProject (root : Path) : Settings where
  projectRoot := root
  packageTree := root / packageTreeName

/-- A text without the slashes at its ends. -/
def trimSlashes (s : List Char) : List Char :=
  dropEndWhile (· = '/') (s.dropWhile (· = '/'))

/-- Name the output directory for packages. The name is one path segment, so a
slash inside it is refused. -/
def withNpmDirname (s : Settings) (dirname : String) : Except Failure Settings :=
  let trimmed := trimSlashes dirname.toList
  if trimmed = [] || '/' ∈ trimmed || '\\' ∈ trimmed then
    .error (.settings
      ("Output directory name must be a single path segment, got '" ++ dirname ++ "'"))
  else .ok { s with npmDirname := String.ofList trimmed }

/-- Choose what is taken over completely; blank entries are left out. -/
def withFullExtract (s : Settings) (entries : List String) : Settings :=
  { s with fullExtract := entries.filter fun e => !isAllBlank e }

/-- Choose the number of workers, of which there is at least one. -/
def withJobs (s : Settings) (jobs : Nat) : Settings :=
  { s with jobs := max jobs 1 }

/-- Move the project, and its package tree along with it. -/
def withProjectRoot (s : Settings) (root : Path) : Settings :=
  { s with projectRoot := root, packageTree := root / packageTreeName }

/-- Whether main entries are renamed to the canonical name. -/
def isDefaultOutput (s : Settings) : Bool :=
  s.npmDirname = defaultNpmDirname

/-- The entries of a list separated by commas, without the white space around
them and without empty ones. -/
def parseList (s : String) : List String :=
  ((splitOn ',' s.toList).map fun e => trim (String.ofList e)).filter (· ≠ "")

/-- The largest count that settings can hold. -/
def maxCount : Nat := UInt64.size - 1

/-- Read a count in decimal digits, which a plus sign may precede. -/
def parseCount? (s : String) : Option Nat :=
  let digits := match s.toList with
    | '+' :: rest => rest
    | cs => cs
  if digits ≠ [] && digits.all Char.isDigit then
    let n := digits.foldl (fun n c => 10 * n + (c.toNat - '0'.toNat)) 0
    if n ≤ maxCount then some n else none
  else none

/-- A variable that is set to some text. -/
def nonempty (value : Option String) : Option String :=
  value.filter (· ≠ "")

/-- Read the settings from the environment of a process that runs in the
directory `workingDir`. -/
def load (env : Environment) (workingDir : Path) : Except Failure Settings := do
  let base := forProject (((nonempty env.projectRoot).map Path.mk).getD workingDir)
  let named ← match nonempty env.npmDirname with
    | some dirname => base.withNpmDirname dirname
    | none => .ok base
  let listed := match env.fullExtract with
    | some list => { named with fullExtract := parseList list }
    | none => named
  return match env.jobs.bind parseCount? with
    | some jobs => listed.withJobs jobs
    | none => listed

end Settings

end Vendoring
