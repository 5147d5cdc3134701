/-
# Reading JSON

The grammar of JSON over a list of characters. A document may nest at most 127
containers; a number too large for double precision and an escape that is half a
surrogate pair are refused. Where a key occurs twice in one object, the first
place and the last value count.

The readers of values, items and members call each other on what is left of the
text. Their first argument bounds the depth of these calls: a call that does not
consume a character is followed by one that does, so twice the length of the
text is always enough, and `Json.parse?` supplies it.
-/

import Vendoring.Json.Basic

namespace Vendoring.Json

/-- The number of containers that may enclose a value. -/
def maxDepth : Nat := 127

/-- The largest whole number that digits are collected into. -/
def maxWhole : Nat := UInt64.size - 1

/-- White space between the tokens of a document. -/
def isSpace (c : Char) : Bool :=
  c = ' ' || c = '\n' || c = '\t' || c = '\r'

/-- The text from the first token onwards. -/
def skipSpace (s : List Char) : List Char :=
  s.dropWhile isSpace

/-- The value of a decimal digit. -/
def digitValue (c : Char) : Nat :=
  c.toNat - '0'.toNat

/-- Collect digits as long as they fit the largest whole number. Gives the
number, how many digits were taken, and the rest, which starts with a digit only
if that one did not fit. -/
def collectDigits (n : Nat) : List Char → Nat × Nat × List Char
  | [] => (n, 0, [])
  | c :: rest =>
    if c.isDigit && 10 * n + digitValue c ≤ maxWhole then
      let (m, count, left) := collectDigits (10 * n + digitValue c) rest
      (m, count + 1, left)
    else (n, 0, c :: rest)

/-- Whether a text starts with a digit. -/
def startsWithDigit (s : List Char) : Bool :=
  s.head?.any Char.isDigit

/-- A number of double precision with a sign. -/
def double? (negative : Bool) (digits : Nat) (power : Int) : Option JsonNumber :=
  (Decimal.Binary64.ofDigits? digits power).map (JsonNumber.double negative)

/-- The rest of a number behind its digits: an exponent or nothing. -/
def readExponent (negative : Bool) (digits : Nat) (power : Int) (s : List Char) :
    Option (JsonNumber × List Char) :=
  match s with
  | c :: rest =>
    if c = 'e' || c = 'E' then
      let (below, unsigned) := match rest with
        | '+' :: more => (false, more)
        | '-' :: more => (true, more)
        | _ => (false, rest)
      let written := unsigned.takeWhile Char.isDigit
      if written = [] then none
      else
        let n : Int := (written.foldl (fun n c => 10 * n + digitValue c) 0 : Nat)
        (double? negative digits (if below then power - n else power + n)).map
          (·, unsigned.dropWhile Char.isDigit)
    else (double? negative digits power).map (·, s)
  | [] => (double? negative digits power).map (·, s)

/-- The rest of a number behind its point. Digits that do not fit any more are
left out, while a point needs at least one digit behind it. -/
def readFraction (negative : Bool) (digits : Nat) (power : Int) (s : List Char) :
    Option (JsonNumber × List Char) :=
  let (n, count, rest) := collectDigits digits s
  if startsWithDigit rest then
    readExponent negative n (power - count) (rest.dropWhile Char.isDigit)
  else if count = 0 then none
  else readExponent negative n (power - count) rest

/-- A whole number of the given sign, exact if it fits 64 bits. A negative zero
and a negative number below the range of signed words are of double precision. -/
def wholeNumber (negative : Bool) (n : Nat) : Option JsonNumber :=
  if !negative then some (.whole n)
  else if n = 0 || n > Decimal.pow2 63 then double? true n 0
  else some (.whole (-n))

/-- The rest of a number behind digits that form a whole number. -/
def readNumberEnd (negative : Bool) (n : Nat) (s : List Char) :
    Option (JsonNumber × List Char) :=
  if startsWithDigit s then
    let power := (s.takeWhile Char.isDigit).length
    match s.dropWhile Char.isDigit with
    | '.' :: rest => readFraction negative n power rest
    | rest => readExponent negative n power rest
  else
    match s with
    | '.' :: rest => readFraction negative n 0 rest
    | c :: _ =>
      if c = 'e' || c = 'E' then readExponent negative n 0 s
      else (wholeNumber negative n).map (·, s)
    | [] => (wholeNumber negative n).map (·, s)

/-- Read a number. No digit may follow a leading zero. -/
def readNumber (s : List Char) : Option (JsonNumber × List Char) :=
  let (negative, unsigned) := match s with
    | '-' :: rest => (true, rest)
    | _ => (false, s)
  match unsigned with
  | '0' :: rest => if startsWithDigit rest then none else readNumberEnd negative 0 rest
  | c :: _ =>
    if c.isDigit then
      let (n, _, rest) := collectDigits 0 unsigned
      readNumberEnd negative n rest
    else none
  | [] => none

/-- A piece of a string: a character, or a number written as an escape. -/
inductive StringPiece
  | char (c : Char)
  | unit (n : Nat)
  deriving DecidableEq, Repr

/-- The character that an escape of one letter stands for. -/
def escaped? : Char → Option Char
  | '"' => some '"'
  | '\\' => some '\\'
  | '/' => some '/'
  | 'b' => some '\x08'
  | 'f' => some '\x0c'
  | 'n' => some '\n'
  | 'r' => some '\r'
  | 't' => some '\t'
  | _ => none

/-- The value of a hexadecimal digit. -/
def hexValue? (c : Char) : Option Nat :=
  if c.isDigit then some (digitValue c)
  else if 'a' ≤ c ∧ c ≤ 'f' then some (c.toNat - 'a'.toNat + 10)
  else if 'A' ≤ c ∧ c ≤ 'F' then some (c.toNat - 'A'.toNat + 10)
  else none

/-- The value of four hexadecimal digits. -/
def hexUnit? (a b c d : Char) : Option Nat := do
  let high := (← hexValue? a) * 16 + (← hexValue? b)
  let low := (← hexValue? c) * 16 + (← hexValue? d)
  return high * 256 + low

/-- Read the pieces of a string up to its closing quote. -/
def lexString : List Char → Option (List StringPiece × List Char)
  | [] => none
  | c :: rest =>
    if c = '"' then some ([], rest)
    else if c = '\\' then
      match rest with
      | [] => none
      | e :: more =>
        if e = 'u' then
          match more with
          | h₁ :: h₂ :: h₃ :: h₄ :: left =>
            (hexUnit? h₁ h₂ h₃ h₄).bind fun n =>
              (lexString left).map fun (pieces, left) => (.unit n :: pieces, left)
          | _ => none
        else
          (escaped? e).bind fun d =>
            (lexString more).map fun (pieces, left) => (.char d :: pieces, left)
    else if c.toNat < 0x20 then none
    else (lexString rest).map fun (pieces, left) => (.char c :: pieces, left)

/-- Whether a number is the first half of a surrogate pair. -/
def isHighSurrogate (n : Nat) : Bool :=
  0xD800 ≤ n && n ≤ 0xDBFF

/-- Whether a number is the second half of a surrogate pair. -/
def isLowSurrogate (n : Nat) : Bool :=
  0xDC00 ≤ n && n ≤ 0xDFFF

/-- The characters of a string. Both halves of a surrogate pair have to be there. -/
def joinPieces : List StringPiece → Option (List Char)
  | [] => some []
  | .char c :: rest => (joinPieces rest).map (c :: ·)
  | .unit n :: rest =>
    if isHighSurrogate n then
      match rest with
      | .unit m :: more =>
        if isLowSurrogate m then
          (joinPieces more).map
            (Char.ofNat (0x10000 + (n - 0xD800) * 0x400 + (m - 0xDC00)) :: ·)
        else none
      | _ => none
    else if isLowSurrogate n then none
    else (joinPieces rest).map (Char.ofNat n :: ·)

/-- Read a string behind its opening quote. -/
def readString (s : List Char) : Option (String × List Char) :=
  (lexString s).bind fun (pieces, rest) =>
    (joinPieces pieces).map fun chars => (String.ofList chars, rest)

/-- The members in the order of their keys' first places, with their last values. -/
def distinctMembers (members : List (String × Json)) : List (String × Json) :=
  members.foldl (fun seen (key, value) => insertMember key value seen) []

mutual

/-- Read a value inside at most `depth` further containers. -/
def readValue : Nat → Nat → List Char → Option (Json × List Char)
  | 0, _, _ => none
  | calls + 1, depth, s =>
    match skipSpace s with
    | 'n' :: 'u' :: 'l' :: 'l' :: rest => some (null, rest)
    | 't' :: 'r' :: 'u' :: 'e' :: rest => some (bool true, rest)
    | 'f' :: 'a' :: 'l' :: 's' :: 'e' :: rest => some (bool false, rest)
    | '"' :: rest => (readString rest).map fun (text, left) => (string text, left)
    | '[' :: rest =>
      if depth = 0 then none
      else
        match skipSpace rest with
        | ']' :: left => some (array [], left)
        | _ => (readItems calls (depth - 1) rest).map fun (items, left) => (array items, left)
    | '\x7b' :: rest =>
      if depth = 0 then none
      else
        match skipSpace rest with
        | '\x7d' :: left => some (object [], left)
        | _ =>
          (readMembers calls (depth - 1) rest).map fun (members, left) =>
            (object (distinctMembers members), left)
    | other => (readNumber other).map fun (n, left) => (number n, left)

/-- Read the items of an array up to its closing bracket. -/
def readItems : Nat → Nat → List Char → Option (List Json × List Char)
  | 0, _, _ => none
  | calls + 1, depth, s =>
    (readValue calls depth s).bind fun (item, rest) =>
      match skipSpace rest with
      | ',' :: more => (readItems calls depth more).map fun (items, left) => (item :: items, left)
      | ']' :: left => some ([item], left)
      | _ => none

/-- Read the members of an object up to its closing brace. -/
def readMembers : Nat → Nat → List Char → Option (List (String × Json) × List Char)
  | 0, _, _ => none
  | calls + 1, depth, s =>
    match skipSpace s with
    | '"' :: behind =>
      (readString behind).bind fun (key, rest) =>
        match skipSpace rest with
        | ':' :: valueText =>
          (readValue calls depth valueText).bind fun (value, rest) =>
            match skipSpace rest with
            | ',' :: more =>
              (readMembers calls depth more).map fun (members, left) =>
                ((key, value) :: members, left)
            | '\x7d' :: left => some ([(key, value)], left)
            | _ => none
        | _ => none
    | _ => none

end

/-- Read a document: one value and nothing but white space around it. -/
def parse? (text : String) : Option Json :=
  let s := text.toList
  match readValue (2 * s.length + 2) maxDepth s with
  | some (value, rest) => if skipSpace rest = [] then some value else none
  | none => none

/-- Read a document that has to be an object. -/
def parseObject? (text : String) : Option Json :=
  match parse? text with
  | some (object members) => some (object members)
  | _ => none

end Vendoring.Json
