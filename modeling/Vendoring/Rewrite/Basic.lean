/-
# Rewriting specifiers

Once the place of every file is known, the specifiers in a file are pointed at
the copies that were written. A specifier that leads to a file of the build is
replaced by the path from the file's directory to that copy, unless it leads
there already. One that cannot be followed to a file, but names a package that
was written, is pointed into the directory of that package. Everything else, and
every character outside the specifiers, stays as it is.
-/

import Vendoring.Resolver
import Vendoring.Rewrite.Table
import Vendoring.Scan.Basic

namespace Vendoring

/-- The knowledge by which specifiers are rewritten. -/
structure Rewriter where
  /-- What was written, and where. -/
  table : PackageTable
  /-- Where specifiers lead from the places that files were read from. -/
  resolver : Option Resolver := none

namespace Rewriter

/-- Whether a relative specifier already leads to an output, to an output whose
extension it leaves out, or to a directory with the output as its index. -/
def pointsAt (dir : Path) (specifier : String) (output : Path) : Bool :=
  specifier.toList.head? = some '.' &&
    let target := (dir / specifier).normalize
    target.SameAs output || target.SameAs output.withoutExtension ||
      (output.stem? = some canonicalStem && output.parent?.any fun p => p.SameAs target)

/-- The last segment of a specifier. -/
def lastSegment (specifier : String) : String :=
  String.ofList (specifier.toList.reverse.takeWhile (· ≠ '/')).reverse

/-- The specifier that leads from a directory to an output. The extension is left
out where the specifier it replaces left it out, and always in manifests. -/
def specifierFor (dir output : Path) (specifier : String) (kind : FileKind) : String :=
  let last := some (lastSegment specifier)
  let bare := kind = .manifest || (output.fileName? ≠ last && output.stem? = last)
  (dir.relativePath (if bare then output.withoutExtension else output)).relativeSpecifier

/-- A path inside a package without the directory of the built variant in front. -/
def stripAlternate (subpath : String) (alternate : Option String) : String :=
  match alternate.bind fun dirname => Scan.behind? (dirname.toList ++ ['/']) subpath.toList with
  | none | some [] => subpath
  | some rest => String.ofList rest

/-- The specifier that leads from a directory into the directory of a package. -/
def specifierInto (dir : Path) (e : PackageEntry) (subpath : Option String) : String :=
  match subpath with
  | none => (dir.relativePath (e.mainEntry.getD e.outputRoot)).relativeSpecifier
  | some sub =>
    let root := (dir.relativePath e.outputRoot).relativeSpecifier
    String.ofList (Text.dropEndWhile (· = '/') root.toList) ++ "/" ++
      stripAlternate sub e.alternateDirname

variable (w : Rewriter)

/-- The place of the file that a specifier leads to from where its file was read.
A component leads to its manifest. -/
def locate? (specifier : String) (kind : FileKind) (source : Path) : Option Path :=
  w.resolver.bind fun r =>
    let target := match kind with
      | .manifest => (r.resolveComponent? specifier source).map ComponentRef.manifest
      | _ => (r.resolve? specifier source).map Reference.target
    target.bind w.table.outputOf?

/-- What a specifier is replaced by in a file that was read from `source` and is
written to the directory `dir`. -/
def rewriteSpecifier? (specifier : String) (kind : FileKind) (source dir : Path) :
    Option String :=
  match w.locate? specifier kind source with
  | some output =>
    if pointsAt dir specifier output then none
    else some (specifierFor dir output specifier kind)
  | none =>
    match Specifier.parse specifier with
    | .inScope name subpath | .plain name subpath =>
      (w.table.get? name).map fun e => specifierInto dir e subpath
    | .relative _ | .absolute _ | .empty => none

/-- A replacement for the text between two byte offsets. -/
structure Replacement where
  /-- The offset of the first byte. -/
  start : Nat
  /-- The offset behind the last byte. -/
  stop : Nat
  /-- The new text. -/
  text : String

/-- Split a text at a byte offset. -/
def splitAtByte : Nat → List Char → List Char × List Char
  | _, [] => ([], [])
  | 0, s => ([], s)
  | n, c :: rest =>
    let (before, behind) := splitAtByte (n - c.utf8Size) rest
    (c :: before, behind)

/-- The text with one replacement made. An offset behind the end of the text counts
as the end, and one inside a character as the place behind it. Such offsets come up
only where two replacements are made at one place, as in a declaration of components
inside another one, and the first has made the text shorter; a replacement that
checks its offsets fails there. -/
def Replacement.apply (r : Replacement) (s : List Char) : List Char :=
  (splitAtByte r.start s).1 ++ r.text.toList ++ (splitAtByte r.stop s).2

/-- The replacements of the specifiers of a text that change. -/
def replacements (content : String) (kind : FileKind) (source dir : Path) : List Replacement :=
  (Scan.scan kind content).filterMap fun m =>
    ((w.rewriteSpecifier? m.specifier kind source dir).filter (· ≠ m.specifier)).map fun text =>
      ⟨m.start, m.stop, text⟩

/-- The text of a file with its specifiers rewritten. Replacements are made from
the last to the first, so that the offsets of those still to be made hold. -/
def rewrite (content : String) (kind : FileKind) (source dir : Path) : String :=
  String.ofList ((w.replacements content kind source dir).foldr Replacement.apply content.toList)

end Rewriter

end Vendoring
