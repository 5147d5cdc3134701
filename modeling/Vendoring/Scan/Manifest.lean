/-
# Component declarations in the text of a manifest

A manifest is read as JSON to learn which components it declares, but to change
one of them in place its text has to be searched. A block of declarations starts
behind its key and ends at the brace that closes it; inside the block every
string that is the value of a string is a specifier. Blocks may nest, and then a
declaration in the inner one is found once for each block around it.
-/

import Vendoring.Json.Reader
import Vendoring.Manifest
import Vendoring.Scan.Search

namespace Vendoring.Scan

open Text

/-- Where the search for a closing brace stands. -/
inductive BraceState
  /-- Outside strings. -/
  | code
  /-- Inside a string. -/
  | string
  /-- Inside a string, behind a backslash. -/
  | escape
  deriving DecidableEq, Repr

/-- The number of characters in front of the brace that closes the outermost of
`depth` open ones. Braces inside strings do not count. -/
def closingBrace? : BraceState → Nat → List Char → Option Nat
  | _, _, [] => none
  | .escape, depth, _ :: rest => (closingBrace? .string depth rest).map (· + 1)
  | .string, depth, c :: rest =>
    let next := if c = '\\' then .escape else if c = '"' then .code else .string
    (closingBrace? next depth rest).map (· + 1)
  | .code, depth, c :: rest =>
    if c = '"' then (closingBrace? .string depth rest).map (· + 1)
    else if c = '\x7b' then (closingBrace? .code (depth + 1) rest).map (· + 1)
    else if c = '\x7d' then
      if depth ≤ 1 then some 0 else (closingBrace? .code (depth - 1) rest).map (· + 1)
    else (closingBrace? .code depth rest).map (· + 1)

/-- The place of the brace that closes the one that the text starts with. -/
def matchingBrace? (s : List Char) : Option Nat :=
  closingBrace? .code 0 s

/-- The text behind a colon with white space around it. -/
def behindColon? (s : List Char) : Option (List Char) :=
  (behind? [':'] (s.dropWhile isBlank)).map (·.dropWhile isBlank)

/-- See the key of a block of declarations with the brace that opens it. The
value is the text in front of that brace and the text from it onwards. -/
def blockStart? (_before : Option Char) (s : List Char) :
    Option (Seen (List Char × List Char)) := do
  let key := '"' :: componentsKey.toList ++ ['"']
  let opening ← behindColon? (← behind? key s)
  let inside ← behind? ['\x7b'] opening
  return ⟨s.length - inside.length, s.take (s.length - opening.length), opening⟩

/-- The text up to the quote that closes a string, with its escapes. A backslash
takes the next character with it, unless that ends the line. -/
def rawString? : List Char → Option (List Char)
  | [] => none
  | c :: rest =>
    if c = '"' then some []
    else if c = '\\' then
      match rest with
      | [] => none
      | d :: more => if d = '\n' then none else (rawString? more).map (c :: d :: ·)
    else (rawString? rest).map (c :: ·)

/-- See a string, a colon and a second string; the second is the specifier. -/
def stringPair? (_before : Option Char) (s : List Char) : Option (Seen Occurrence) := do
  let body ← behind? ['"'] s
  let key ← rawString? body
  let value ← behind? ['"'] (← behindColon? (body.drop (key.length + 1)))
  let raw ← rawString? value
  let lead := s.take (s.length - value.length)
  return ⟨lead.length + raw.length + 1, ⟨lead, raw⟩⟩

/-- The text that a string with escapes stands for, if they are valid. -/
def decodeRaw? (raw : List Char) : Option String :=
  if '\\' ∈ raw then
    match Json.readString (raw ++ ['"']) with
    | some (s, []) => some s
    | _ => none
  else some (String.ofList raw)

/-- The specifiers of one block whose brace opens at the given offset. -/
def blockMatches (offset : Nat) (s : List Char) : List Match :=
  match matchingBrace? s with
  | none => []
  | some close =>
    let inside := (s.take close).drop 1
    (search stringPair? inside).filterMap fun (place, o) =>
      (decodeRaw? o.specifier).map fun text =>
        { o.toMatch (offset + 1 + place) with specifier := text }

/-- The specifiers in all blocks of declarations, block by block. -/
def scanManifest (s : List Char) : List Match :=
  (search blockStart? s).flatMap fun (offset, lead, text) =>
    blockMatches (offset + byteLength lead) text

end Vendoring.Scan
