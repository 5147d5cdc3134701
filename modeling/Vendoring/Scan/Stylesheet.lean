/-
# Imports in stylesheets

A stylesheet imports another one by `@import` and a string, or by `@import` and
`url(` with a string or a bare text behind it. Letters count in either case.
-/

import Vendoring.Scan.Script

namespace Vendoring.Scan

open Text

/-- The text behind a given beginning in lower case, read in either case. -/
def behindAnyCase? (start : List Char) (s : List Char) : Option (List Char) :=
  if (s.take start.length).map Char.toLower = start then some (s.drop start.length) else none

/-- A text that needs no quotes inside `url(`: it ends at white space, a quote or
the closing parenthesis, and is not empty. -/
def bareText? (s : List Char) : Option (List Char) :=
  match s.takeWhile fun c => !(isQuote c || isBlank c || c = ')') with
  | [] => none
  | text => some text

/-- The specifier that stands in `s` behind what precedes `at`. The form ends
behind `closing` more characters. -/
def occurrenceAt (s place text : List Char) (closing : Nat) : Seen Occurrence :=
  let lead := s.take (s.length - place.length)
  ⟨lead.length + text.length + closing, ⟨lead, text⟩⟩

/-- See an import that starts here. -/
def styleImport? (_before : Option Char) (s : List Char) : Option (Seen Occurrence) := do
  let rest := (← behindAnyCase? "@import".toList s).dropWhile isBlank
  match behindAnyCase? "url(".toList rest with
  | some argument =>
    let inside := argument.dropWhile isBlank
    match literal? inside with
    | some text => return occurrenceAt s (inside.drop 1) text 1
    | none => return occurrenceAt s inside (← bareText? inside) 0
  | none => return occurrenceAt s (rest.drop 1) (← literal? rest) 1

/-- The specifiers of a stylesheet in the order of their places. -/
def scanStylesheet (s : List Char) : List Match :=
  dropOverlaps (matchesOf styleImport? s)

end Vendoring.Scan
