/-
# Running a build

A build takes over what is extracted completely, discovers what each input needs,
and rewrites the specifiers of all files once every place is known. The files
leave the build in the order of the inputs, each followed by the files that it
was the first to need.

The inputs are independent pieces of work, and their results may arrive in any
order. They are collected by the index of the input; of several failures the one
of the first input counts.
-/

import Vendoring.Build.Discovery
import Vendoring.Rewrite.Basic

namespace Vendoring

/-- The outcome of discovering what one input needs. -/
abbrev InputResult := Except Failure (List OutputFile)

/-- The results that have arrived. -/
structure Collected where
  /-- For every input the files that it needs, as far as they are known. -/
  slots : List (List OutputFile)
  /-- The first input that is known to have failed, and its failure. -/
  failure : Option (Nat × Failure) := none

namespace Collected

/-- Take in the result of the input with the given index. -/
def receive (c : Collected) (message : Nat × InputResult) : Collected :=
  match message with
  | (index, .ok files) => { c with slots := c.slots.set index files }
  | (index, .error failure) =>
    if c.failure.all fun (first, _) => index < first then
      { c with failure := some (index, failure) } else c

/-- The results of all inputs, given in the order in which they arrive. -/
def ofMessages (count : Nat) (messages : List (Nat × InputResult)) :
    Except Failure (List (List OutputFile)) :=
  let c := messages.foldl receive { slots := List.replicate count [] }
  match c.failure with
  | some (_, failure) => .error failure
  | none => .ok c.slots

end Collected

/-- The progress of a build: the session, and what has been reported. -/
structure Progress where
  /-- The session with everything claimed so far. -/
  session : Session
  /-- What has been reported. -/
  events : List Event := []

namespace Progress

variable (t : FileTree) (b : Progress)

/-- Report something. -/
def emit (e : Event) : Progress :=
  { b with events := b.events ++ [e] }

/-- Go on after a discovery, whatever became of it. -/
def finish (d : Discovered) : InputResult × Progress :=
  match d with
  | .ok d => (.ok d.outputs, ⟨d.session, b.events ++ d.events⟩)
  | .error h => (.error h.failure, ⟨h.session, b.events ++ h.events⟩)

/-- Take over the given entries completely. The first failure ends the build. -/
def extractFull : List String → Progress → InputResult × Progress
  | [], b => (.ok [], b)
  | entry :: rest, b =>
    match b.finish (Discovery.ofEntry t b.session entry) with
    | (.error failure, b) => (.error failure, b)
    | (.ok files, b) =>
      let (others, b) := extractFull rest b
      (others.map (files ++ ·), b)

/-- Discover what one input needs, and report a failure. -/
def discover (input : SourceFile) : InputResult × Progress :=
  match b.finish (Discovery.ofInput t b.session input) with
  | (.error failure, b) => (.error failure, b.emit (Event.ofFailure input.path failure))
  | (.ok files, b) => (.ok files, b)

/-- Discover what each of some inputs needs, one after the other. Inputs that hold
nothing need nothing. A failure does not keep the others from being tried. -/
def discoverAll : List (Nat × SourceFile) → Progress → List (Nat × InputResult) × Progress
  | [], b => ([], b)
  | (index, input) :: rest, b =>
    if input.isNull then discoverAll rest b
    else
      let (result, b) := b.discover t input
      let (others, b) := discoverAll rest b
      ((index, result) :: others, b)

end Progress

/-- What a build leaves behind. -/
structure BuildOutput where
  /-- The files that are to be written, in order. -/
  files : List OutputFile
  /-- What the build amounts to. -/
  summary : Summary

namespace BuildOutput

/-- The file that an input leaves the build as. -/
def ofInput (input : SourceFile) : OutputFile where
  source := input.path
  relative := input.relative
  contents := input.contents
  origin := .input

/-- Each input followed by the files that it needs. -/
def interleave (inputs : List SourceFile) (needed : List (List OutputFile)) : List OutputFile :=
  (inputs.zip needed).flatMap fun (input, files) => ofInput input :: files

/-- A file with its specifiers rewritten, if that changes it. Only text of a kind
that has specifiers is looked at. -/
def rewriteFile? (w : Rewriter) (f : OutputFile) : Option OutputFile :=
  if f.kind.isRewritable then do
    let text ← f.contents.bind Text.decode?
    let updated := w.rewrite text f.kind f.source f.relativeDir
    if updated = text then none else some { f with contents := some updated.toUTF8 }
  else none

/-- All files with their specifiers rewritten, and how many that changes. Where no
package was written there is nothing to point at. -/
def rewriteAll (r : Resolver) (planner : Planner) (files : List OutputFile) :
    List OutputFile × Nat :=
  let table := PackageTable.ofOutputs planner files
  if table.entries.isEmpty then (files, 0)
  else
    let w : Rewriter := { table := table, resolver := some r }
    (files.map fun f => (rewriteFile? w f).getD f, files.countP fun f => (rewriteFile? w f).isSome)

/-- What the given files amount to. -/
def summarize (files : List OutputFile) (rewritten : Nat) : Summary where
  inputs := files.countP fun f => !f.isDependency
  dependencies := files.countP OutputFile.isDependency
  rewritten := rewritten
  packages :=
    let names := files.filterMap fun f => f.origin.placement?.map (·.package)
    (names.foldl (fun s name => s.insert name ()) (∅ : Std.TreeMap String Unit)).keys

end BuildOutput

/-- Build from the given inputs. What the session has claimed before is left
alone, and what this build claims stays claimed even if it fails. -/
def Session.build (s : Session) (t : FileTree) (inputs : List SourceFile) :
    Except Failure BuildOutput × Progress :=
  let b : Progress :=
    { session := s, events := [.buildStarted inputs.length, .catalogReady s.catalog.size] }
  match Progress.extractFull t s.settings.fullExtract b with
  | (.error failure, b) => (.error failure, b)
  | (.ok extracted, b) =>
    let (messages, b) := Progress.discoverAll t (inputs.zipIdx.map fun (f, i) => (i, f)) b
    match Collected.ofMessages inputs.length messages with
    | .error failure => (.error failure, b)
    | .ok needed =>
      let files := BuildOutput.interleave inputs needed ++ extracted
      let (files, count) :=
        BuildOutput.rewriteAll (b.session.resolver t) b.session.planner files
      let summary := BuildOutput.summarize files count
      (.ok ⟨files, summary⟩, (b.emit (.rewriteFinished count)).emit (.buildFinished summary))

end Vendoring
