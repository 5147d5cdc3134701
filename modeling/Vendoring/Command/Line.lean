/-
# The command line

Three commands: build the project into an output directory, show what one file
refers to, and list the installed packages.
-/

import Vendoring.Command.Usage

namespace Vendoring

namespace Command

/-- The options of a build. -/
structure BuildOptions where
  /-- The directory with the sources. -/
  source : Path
  /-- The output directory. -/
  dest : Path
  /-- The name of the output directory for packages. -/
  npmDirname : Option String := none
  /-- What is taken over completely. -/
  fullExtract : List String := []
  /-- The project whose packages are used. -/
  projectRoot : Option Path := none
  /-- The number of workers. -/
  jobs : Option Nat := none
  deriving DecidableEq, Repr

end Command

/-- A command. -/
inductive Command
  /-- Copy sources and the packages they use into an output directory. -/
  | build (options : Command.BuildOptions)
  /-- Show what one file refers to. -/
  | graph (file : Path)
  /-- List the installed packages, with those inside other packages if asked for. -/
  | packages (all : Bool)
  deriving DecidableEq, Repr

namespace Command

/-- A command with the number of times that more output was asked for. -/
structure Invocation where
  /-- How much output is asked for. -/
  verbose : Nat
  /-- The command. -/
  command : Command
  deriving DecidableEq, Repr

/-- The options that every command has. -/
def commonOptions : List Parameter := [
  { name := "verbose", short := some 'v', action := .count },
  { name := "help", short := some 'h', action := .help },
  { name := "version", short := some 'V', action := .version }]

/-- The command line up to the command. -/
def mainGrammar : Grammar where
  options := commonOptions
  subcommands := ["build", "graph", "packages", "help"]

/-- The command line of a build. -/
def buildGrammar : Grammar where
  options := commonOptions ++ [
    { name := "dest", short := some 'd', action := .set .path },
    { name := "npm-dirname", action := .set .text },
    { name := "full-extract", action := .append .text },
    { name := "project-root", action := .set .path },
    { name := "jobs", short := some 'j', action := .set .count }]
  argument := some { name := "src", action := .set .path }
  required := ["dest"]

/-- The command line that shows what a file refers to. -/
def graphGrammar : Grammar where
  options := commonOptions
  argument := some { name := "file", action := .set .path }
  required := ["file"]

/-- The command line that lists packages. -/
def packagesGrammar : Grammar where
  options := commonOptions ++ [{ name := "all", action := .enable }]

/-- The directory that sources are taken from if none is named. -/
def defaultSource : String := "src"

/-- The largest number of times that more output can be asked for. -/
def maxVerbose : Nat := 255

/-- How often more output was asked for: by the command's own options, and
otherwise by those in front of the command. -/
def verbosity (outer inner : Values) : Nat :=
  let count (values : Values) := (values.all "verbose").length
  min maxVerbose (if count inner = 0 then count outer else count inner)

/-- The options of a build from the values given for them. -/
def BuildOptions.ofValues (values : Values) : BuildOptions where
  source := ⟨(values.last? "src").getD defaultSource⟩
  dest := ⟨(values.last? "dest").getD ""⟩
  npmDirname := values.last? "npm-dirname"
  fullExtract := values.all "full-extract"
  projectRoot := (values.last? "project-root").map Path.mk
  jobs := (values.last? "jobs").bind Settings.parseCount?

/-- How the program is used. -/
def usage : String := "\n".intercalate [
  "Copy the sources of a project and the packages they use into an output directory.",
  "",
  "  build [SRC] --dest DIR [--npm-dirname NAME] [--full-extract PACKAGE]...",
  "        [--project-root DIR] [--jobs N]",
  "  graph FILE",
  "  packages [--all]",
  "",
  "Every command takes -v, -h and -V."]

/-- The version of the program. -/
def version : String := "0.1.0"

/-- What is said about a command line that is not run. -/
def UsageError.message : UsageError → String
  | unknownArgument => "there is no such option or argument"
  | missingArgument => "an option or argument is missing"
  | missingValue => "an option needs a value"
  | badValue => "a value cannot be read"
  | unexpectedValue => "an option is given a value but takes none"
  | repeatedOption => "an option is given twice"
  | unknownSubcommand => "there is no such command"
  | missingSubcommand => "a command is missing"
  | nothingGiven | helpRequested => usage
  | versionRequested => version

/-- Ask for help on a command. Only the commands and help itself have help. -/
def helpOn : List String → UsageError
  | [] => .helpRequested
  | [name] => if name ∈ mainGrammar.subcommands then .helpRequested else .unknownSubcommand
  | _ => .unknownSubcommand

/-- Read the command line of a command. -/
def readCommand (name : String) (args : List String) : Except UsageError (Command × Values) :=
  if name = "build" then
    (buildGrammar.readAll args).map fun values => (.build (.ofValues values), values)
  else if name = "graph" then
    (graphGrammar.readAll args).map fun values =>
      (.graph ⟨(values.last? "file").getD ""⟩, values)
  else if name = "packages" then
    (packagesGrammar.readAll args).map fun values =>
      (.packages (values.last? "all").isSome, values)
  else .error (helpOn args)

/-- Read a command line. -/
def Invocation.parse (args : List String) : Except UsageError Invocation := do
  let (outer, found) ← mainGrammar.read args {}
  match found with
  | none => throw (if outer.values = [] then .nothingGiven else .missingSubcommand)
  | some (name, rest) =>
    let (command, inner) ← readCommand name rest
    return { verbose := verbosity outer.values inner, command := command }

end Command

end Vendoring
