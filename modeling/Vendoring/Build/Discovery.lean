/-
# Discovering the files of packages

Starting from one input, the files that it imports and the bundles that it uses
are claimed and collected. Files that were found by listing a directory have not
been walked yet, so they wait in a queue until their own references have been
followed.

A dependency that cannot be read stops the discovery. What was claimed and
reported until then is not taken back, so it goes along with the failure.
-/

import Vendoring.Build.Event
import Vendoring.Build.File
import Vendoring.Build.Session

namespace Vendoring

/-- A discovery under way. -/
structure Discovery where
  /-- The session with everything claimed so far. -/
  session : Session
  /-- What has been reported. -/
  events : List Event := []
  /-- The files whose references still have to be followed. -/
  pending : List Path := []
  /-- The files collected, in the order in which they were claimed. -/
  outputs : List OutputFile := []

/-- A discovery that was stopped by a failure. -/
structure Halted where
  /-- Why it was stopped. -/
  failure : Failure
  /-- The session with everything claimed until then. -/
  session : Session
  /-- What had been reported. -/
  events : List Event

/-- A discovery that goes on, or one that was stopped. -/
abbrev Discovered := Except Halted Discovery

namespace Discovery

variable (t : FileTree) (d : Discovery)

/-- Report something. -/
def emit (e : Event) : Discovery :=
  { d with events := d.events ++ [e] }

/-- Collect a file with the contents that it has in the tree. -/
def push (origin : Placement → Origin) (p : Placement) : Discovered :=
  match t.read p.source with
  | .error cause => .error ⟨.copy p.source cause, d.session, d.events⟩
  | .ok contents =>
    .ok { d with outputs := d.outputs ++
            [{ source := p.source
               relative := p.relative
               contents := some contents
               origin := origin p }] }

/-- Take a file of a package that the walk of an import has found. -/
def takeImport (n : Path × Node Reference) : Discovered :=
  let (file, node) := n
  match d.session.claimFile? file with
  | none => .ok d
  | some session =>
    let d := { d with session := session }
    let isMain := node.isMain || session.planner.isMainFile file node.first.package
    match session.planner.place? file node.first.package isMain with
    | none => .ok d
    | some p =>
      let d := if node.isRootLevel then
        d.emit (.dependencyExtracted node.first.specifier node.first.package) else d
      d.push t .dependency p

/-- Collect everything that a script or stylesheet imports. -/
def extractImports (path : Path) (content : Option String) : Discovered :=
  let (g, session) := d.session.dependencyGraph t path content
  g.toList.foldlM (takeImport t) { d with session := session }

/-- Take a file that was found by listing a directory, and queue it for its own
walk. Where main files are looked for, they get their canonical name. -/
def inject (package : String) (detectMain : Bool) (origin : Placement → Origin)
    (d : Discovery) (file : Path) : Discovered :=
  match d.session.claimFile? file with
  | none => .ok d
  | some session =>
    let d := { d with session := session }
    let isMain := detectMain && session.planner.isMainFile file package
    match session.planner.place? file package isMain with
    | none => .ok d
    | some p => do
      let d ← d.push t origin p
      return if (FileKind.ofPath file).isRewritable then
        { d with pending := d.pending ++ [file] } else d

/-- Take all files of a bundle. -/
def takeBundle (n : Path × Node ComponentRef) : Discovered :=
  let (directory, node) := n
  match d.session.claimBundle? directory with
  | none => .ok d
  | some session =>
    let d := { d with session := session }
    let d := if node.isRootLevel then
      d.emit (.componentExtracted node.first.specifier node.first.package) else d
    (t.filesBelow node.first.directory).foldlM (inject t node.first.package true .component) d

/-- Collect all bundles that a manifest uses. -/
def extractComponents (path : Path) (content : Option String) : Discovered :=
  let (g, session) := d.session.componentGraph t path content
  g.toList.foldlM (takeBundle t) { d with session := session }

/-- Follow the references of a file, whose text may be given apart from the tree. -/
def walk (path : Path) (content : Option String) : Discovered :=
  match FileKind.ofPath path with
  | .script | .stylesheet => d.extractImports t path content
  | .manifest => d.extractComponents t path content
  | .other => .ok d

/-- Follow the references of at most `bound` queued files, and of those that are
queued meanwhile. -/
def drainUpTo : Nat → Discovery → Discovered
  | 0, d => .ok d
  | bound + 1, d =>
    match d.pending with
    | [] => .ok d
    | path :: rest => do
      let d ← { d with pending := rest }.walk t path none
      drainUpTo bound d

/-- Follow the references of all queued files. A file is queued when it is
claimed and read, so once at most for every path that leads to a file. -/
def drain : Discovered :=
  drainUpTo t (d.pending.length + FileTree.pathCount) d

/-- The files of packages that an input is the first to claim. -/
def ofInput (s : Session) (input : SourceFile) : Discovered :=
  match input.contents with
  | none => .ok { session := s }
  | some bytes => do
    let d ← ({ session := s } : Discovery).walk t input.path (some (Text.decodeLossy bytes))
    d.drain t

/-- The directory that an entry of the full extraction names, and its package. -/
def extractedDir? (s : Session) (entry : String) : Option (Package × Path) := do
  let parsed := Specifier.parse entry
  let p ← s.catalog.get? (← parsed.packageName?)
  let dir := Resolver.inside p.contentRoot parsed.subpath?
  if t.isDirectory dir then return (p, dir) else none

/-- The files in a directory that is taken over completely, with everything that
they refer to. An entry that names no such directory is left out. -/
def ofEntry (s : Session) (entry : String) : Discovered :=
  match extractedDir? t s entry with
  | none => .ok { session := s }
  | some (p, dir) => do
    let d ← (t.filesBelow dir).foldlM (inject t p.name false .fullExtract) { session := s }
    let count := d.outputs.length
    let d ← d.drain t
    return d.emit (.fullExtractFinished entry count)

end Discovery

end Vendoring
