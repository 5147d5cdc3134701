/-
# Imports in scripts

A script names a module in two forms. A statement has `import` or `export`, then
nothing, the word `type`, or a clause that ends in `from`, and then a string. A
call has `require` or `import` and a string in parentheses. The keyword has to
start a line or to follow a character that cannot belong to a longer name.

The two forms are searched for separately. Where what they find overlaps, the
one that starts first is kept.
-/

import Vendoring.Scan.Search
import Vendoring.Sorting

namespace Vendoring.Scan

open Text

/-- Whether a place behind the given character starts a line. -/
def startsLine (before : Option Char) : Bool :=
  before = none || before = some '\n'

/-- Whether a keyword may follow the character. -/
def isBoundary (c : Char) : Bool :=
  !(isWordChar c || c = '$' || c = '.')

/-- See a form whose keyword starts a line or follows a boundary. The boundary
counts as part of the form. -/
def atBoundary (form : List Char → Option (Seen Occurrence)) (before : Option Char)
    (s : List Char) : Option (Seen Occurrence) :=
  let direct := if startsLine before then form s else none
  match direct, s with
  | some seen, _ => some seen
  | none, [] => none
  | none, c :: rest =>
    if isBoundary c then
      (form rest).map fun seen =>
        ⟨seen.size + 1, { seen.value with lead := c :: seen.value.lead }⟩
    else none

/-- The text behind the first of the keywords that the text starts with. -/
def behindKeyword? (keywords : List String) (s : List Char) : Option (List Char) :=
  keywords.findSome? fun keyword => behind? keyword.toList s

/-- Whether a character may stand in the list of imported names. -/
def isClauseChar (c : Char) : Bool :=
  isWordChar c || c = '$' || c = '*' || c = '\x7b' || c = '\x7d' || c = ',' || isBlank c

/-- Whether a text is the word `type` with white space behind it. -/
def isTypeMarker (s : List Char) : Bool :=
  match behind? "type".toList s with
  | some rest => rest ≠ [] && rest.all isBlank
  | none => false

/-- Whether a text is a list of imported names with `from` behind it. Some
character has to stand in front of `from`. -/
def isFromClause (s : List Char) : Bool :=
  match behind? "from".toList.reverse (s.reverse.dropWhile isBlank) with
  | some names => names ≠ [] && names.all isClauseChar
  | none => false

/-- Whether a text can stand between the keyword of a statement and the string
with the specifier. -/
def isClause (s : List Char) : Bool :=
  s.all isBlank || isTypeMarker (s.dropWhile isBlank) || isFromClause s

/-- See a statement that starts with its keyword. A clause holds no quotes, so
the string is the one at the first quote. -/
def statement? (s : List Char) : Option (Seen Occurrence) := do
  let rest ← behindKeyword? ["import", "export"] s
  let clause := rest.takeWhile fun c => !isQuote c
  let text ← literal? (rest.drop clause.length)
  if isClause clause then
    let lead := s.take (s.length - rest.length + clause.length + 1)
    return ⟨lead.length + text.length + 1, ⟨lead, text⟩⟩
  else none

/-- See a call that starts with its keyword. -/
def call? (s : List Char) : Option (Seen Occurrence) := do
  let rest ← behindKeyword? ["require", "import"] s
  let argument ← behind? ['('] (rest.dropWhile isBlank)
  let inside := argument.dropWhile isBlank
  let text ← literal? inside
  let left ← behind? [')'] ((inside.drop (text.length + 2)).dropWhile isBlank)
  return ⟨s.length - left.length, ⟨s.take (s.length - inside.length + 1), text⟩⟩

/-- Keep the matches that start behind the last one kept before them. -/
def dropOverlaps : List Match → List Match
  | [] => []
  | m :: rest => m :: go m.stop rest
where
  /-- The same for matches behind one that ends at `reached`. -/
  go (reached : Nat) : List Match → List Match
    | [] => []
    | m :: rest => if m.start < reached then go reached rest else m :: go m.stop rest

/-- The specifiers of a script in the order of their places. -/
def scanScript (s : List Char) : List Match :=
  let found := matchesOf (atBoundary statement?) s ++ matchesOf (atBoundary call?) s
  dropOverlaps (sortBy (fun a b => a.start ≤ b.start) found)

end Vendoring.Scan
