/-
# Running commands

A command reads a file tree and says something; a build changes the tree as well.
Relative paths on the command line are seen from the project, not from the
directory in which the command is run.
-/

import Vendoring.Build.Run
import Vendoring.Build.Write
import Vendoring.Command.Line
import Vendoring.Command.Progress
import Vendoring.FileTree.Walk

namespace Vendoring.Command

/-- How long things took, as text. -/
structure Timing where
  /-- The duration of the build. -/
  build : String
  /-- The duration of the command. -/
  total : String

/-- What a command leaves behind. -/
structure Outcome where
  /-- The files after the command. -/
  tree : FileTree
  /-- What the command says, once it is known how long it took. -/
  report : Timing → List String
  /-- Why the command failed, if it did. -/
  failure : Option Failure := none

namespace Outcome

/-- The outcome of a command that has changed nothing and says the given lines. -/
def say (t : FileTree) (lines : List String) : Outcome :=
  ⟨t, fun _ => lines, none⟩

/-- The outcome of a command that has failed before it did anything. -/
def fail (t : FileTree) (failure : Failure) : Outcome :=
  ⟨t, fun _ => [], some failure⟩

end Outcome

/-- A path on the command line as seen from the project. -/
def anchor (root p : Path) : Path :=
  if p.isAbsolute then p else root.join p

/-- The settings with the options of a build in place of what the environment
says. -/
def BuildOptions.apply (o : BuildOptions) (s : Settings) : Except Failure Settings := do
  let s := match o.projectRoot with
    | some root => s.withProjectRoot root
    | none => s
  let s ← match o.npmDirname with
    | some dirname => s.withNpmDirname dirname
    | none => .ok s
  let s := if o.fullExtract = [] then s else s.withFullExtract o.fullExtract
  return match o.jobs with
    | some jobs => s.withJobs jobs
    | none => s

/-- The paths of the files that a walk from the source directory meets, apart from
those in the output directory. -/
def sourcePaths (t : FileTree) (src dest : Path) : List Path :=
  ((t.walk src).filter fun (p, e) => e.isFile && ¬p.StartsWith dest).map (·.1)

/-- The files below the source directory, apart from those in the output
directory, in the order in which a walk meets them. -/
def collectInputs (t : FileTree) (src dest : Path) : Except Failure (List SourceFile) :=
  (sourcePaths t src dest).mapM fun p =>
    match t.read p with
    | .ok contents => .ok ⟨p, src, some contents⟩
    | .error cause => .error (.copy p cause)

/-- Build and write the result. Gives all that was reported, and the tree. -/
def buildAndWrite (t : FileTree) (s : Settings) (inputs : List SourceFile) (dest : Path) :
    List Event × FileTree × Option Failure :=
  match (Session.start t s).build t inputs with
  | (.error failure, b) => (b.events, t, some failure)
  | (.ok output, b) =>
    match (FileTree.writeOutputs dest output.files).run t with
    | (.error failure, t) => (b.events, t, some failure)
    | (.ok _, t) =>
      let written := (output.files.filter (·.contents.isSome)).map (Event.fileWritten ·.relative)
      (b.events ++ written, t, none)

/-- Run a build. -/
def runBuild (t : FileTree) (s : Settings) (o : BuildOptions) : Outcome :=
  match o.apply s with
  | .error failure => .fail t failure
  | .ok s =>
    let src := anchor s.projectRoot o.source
    let dest := anchor s.projectRoot o.dest
    if t.isDirectory src then
      match collectInputs t src dest with
      | .error failure => .fail t failure
      | .ok inputs =>
        let (events, t, failure) := buildAndWrite t s inputs dest
        let last := match failure with
          | some f => [Event.logError ("Build failed: " ++ f.message)]
          | none => []
        { tree := t
          report := fun timing => Display.lines (events ++ last) timing.build timing.total
          failure := failure }
    else .fail t (.missing ("Source directory " ++ src.text ++ " does not exist"))

/-- The outline of what a file refers to. -/
def referenceLines (t : FileTree) (s : Settings) (file : Path) : List String :=
  let session := Session.start t s
  match FileKind.ofPath file with
  | .script | .stylesheet =>
    DependencyGraph.outline (session.dependencyGraph t file none).1 s.projectRoot
  | .manifest => ComponentGraph.outline (session.componentGraph t file none).1 s.projectRoot
  | .other => []

/-- Show what a file refers to. -/
def runGraph (t : FileTree) (s : Settings) (file : Path) : Outcome :=
  let file := anchor s.projectRoot file
  if t.isFile file then
    let lines := referenceLines t s file
    .say t ((file.belowD s.projectRoot).text ::
      if lines = [] then ["  (no package references)"] else lines)
  else .fail t (.missing (file.text ++ " is not a file"))

/-- Whether a package is installed inside another one. -/
def isNested (c : Catalog) (p : Package) : Bool :=
  match p.root.below? c.treeRoot with
  | some rest => rest.components.contains (.name packageTreeName)
  | none => true

/-- What is shown where a package does not say something. -/
def dash : String := "–"

/-- A text followed by blanks up to a width. -/
def padTo (width : Nat) (s : String) : String :=
  s ++ String.ofList (List.replicate (width - s.length) ' ')

/-- One line of the list of packages. -/
def tableLine (name version output main : String) : String :=
  padTo 32 name ++ " " ++ padTo 12 version ++ " " ++ padTo 20 output ++ " " ++ main

/-- The line of a package: its name and version, the directory of its built
variant, and its main entry. -/
def packageLine (p : Package) : String :=
  tableLine p.name (p.version.getD dash)
    (((p.alternateOutput.bind (·.below? p.root)).map Path.text).getD ".")
    ((p.mainEntry.map Path.text).getD dash)

/-- The packages to be listed, ordered by name and then by root. -/
def listedPackages (c : Catalog) (all : Bool) : List Package :=
  sortBy (fun a b => (compare a.name b.name).then (compare a.root b.root) ≠ .gt)
    (c.packages.filter fun p => all || !isNested c p)

/-- List the installed packages. -/
def runPackages (t : FileTree) (s : Settings) (all : Bool) : Outcome :=
  let packages := listedPackages (Catalog.survey t Session.loader s.packageTree) all
  if packages = [] then .say t ["0 packages installed in " ++ s.packageTree.text]
  else
    .say t (tableLine "NAME" "VERSION" "OUTPUT" "MAIN" :: packages.map packageLine ++
      ["", "Total: " ++ toString packages.length])

/-- Run a command. -/
def run (c : Command) (t : FileTree) (s : Settings) : Outcome :=
  match c with
  | .build options => runBuild t s options
  | .graph file => runGraph t s file
  | .packages all => runPackages t s all

/-- The places with the files that a command may look at: the project, the package
tree, and what the command line names. -/
def places (c : Command) (s : Settings) : List Path :=
  match c with
  | .build options =>
    match options.apply s with
    | .error _ => []
    | .ok s =>
      [s.projectRoot, s.packageTree, anchor s.projectRoot options.source,
        anchor s.projectRoot options.dest]
  | .graph file => [s.projectRoot, s.packageTree, anchor s.projectRoot file]
  | .packages _ => [s.packageTree]

/-- The settings of a command from the environment in which it is run. -/
def loadSettings (env : Environment) (workingDir : Path) : Except Failure Settings :=
  (Settings.load env workingDir).mapError fun failure =>
    .settings ("Could not load config: " ++ failure.message)

end Vendoring.Command
