/-
# Searching a text for specifiers

A form in which a specifier can be written is given by a recogniser: at a place
in the text it either sees the form start there or not, and if it does, says how
much of the text the form covers. A search goes through the text from the left,
and behind a form that was seen it goes on behind that form, so the forms found
never overlap. Places are counted in bytes of the encoded text.
-/

import Vendoring.Text.Blank
import Vendoring.Text.Word

namespace Vendoring.Scan

open Text

/-- A specifier in a text. The span covers the specifier alone, without the
quotes around it. -/
structure Match where
  /-- The offset of the first byte. -/
  start : Nat
  /-- The offset behind the last byte. -/
  stop : Nat
  /-- The specifier as it is meant, with escapes resolved where the form has them. -/
  specifier : String
  deriving DecidableEq, Repr

/-- A form seen at the start of a text. -/
structure Seen (α : Type) where
  /-- How many characters the form covers, at least one. -/
  size : Nat
  /-- What the form says. -/
  value : α

/-- The number of bytes that encode the characters. -/
def byteLength : List Char → Nat
  | [] => 0
  | c :: rest => c.utf8Size + byteLength rest

/-- The places where the recogniser sees its form, with their byte offsets. The
recogniser is told the character in front of the place. The next `skip`
characters belong to a form that was seen before. -/
def searchFrom {α : Type} (recognise : Option Char → List Char → Option (Seen α)) :
    Nat → Option Char → Nat → List Char → List (Nat × α)
  | _, _, _, [] => []
  | 0, before, offset, c :: rest =>
    match recognise before (c :: rest) with
    | some seen =>
      (offset, seen.value) ::
        searchFrom recognise (seen.size - 1) (some c) (offset + c.utf8Size) rest
    | none => searchFrom recognise 0 (some c) (offset + c.utf8Size) rest
  | skip + 1, _, offset, c :: rest =>
    searchFrom recognise skip (some c) (offset + c.utf8Size) rest

/-- The forms in a text from its beginning. -/
def search {α : Type} (recognise : Option Char → List Char → Option (Seen α))
    (s : List Char) : List (Nat × α) :=
  searchFrom recognise 0 none 0 s

/-- A specifier inside a form: the text of the form in front of it, and itself. -/
structure Occurrence where
  /-- The text between the start of the form and the specifier. -/
  lead : List Char
  /-- The specifier as it is written. -/
  specifier : List Char

/-- The specifier at its place, for a form that starts at the given offset. -/
def Occurrence.toMatch (offset : Nat) (o : Occurrence) : Match :=
  let start := offset + byteLength o.lead
  ⟨start, start + byteLength o.specifier, String.ofList o.specifier⟩

/-- The specifiers that a recogniser finds. -/
def matchesOf (recognise : Option Char → List Char → Option (Seen Occurrence))
    (s : List Char) : List Match :=
  (search recognise s).map fun (offset, o) => o.toMatch offset

/-- Whether a character opens and closes a string. -/
def isQuote (c : Char) : Bool :=
  c = '\'' || c = '"'

/-- The text between the quotes of a string that starts here and ends on the
same line. -/
def literal? : List Char → Option (List Char)
  | [] => none
  | quote :: rest =>
    if isQuote quote then
      let body := rest.takeWhile fun c => c ≠ quote && c ≠ '\n'
      if (rest.drop body.length).head? = some quote then some body else none
    else none

/-- The text behind a given beginning. -/
def behind? (start : List Char) (s : List Char) : Option (List Char) :=
  if start.isPrefixOf s then some (s.drop start.length) else none

end Vendoring.Scan
