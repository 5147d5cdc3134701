/-
# JSON values

A document keeps the order of its members, since the components of a page are
taken over in the order in which they are declared. A number is kept as it was
written: a whole number that fits 64 bits stays exact, every other one is a
number of double precision.
-/

import Vendoring.Decimal.Shortest

namespace Vendoring

/-- A number of a document. -/
inductive JsonNumber
  /-- A whole number written without fraction and exponent. -/
  | whole (n : Int)
  /-- A number of double precision with its sign. -/
  | double (negative : Bool) (size : Decimal.Binary64)
  deriving DecidableEq, Repr

/-- A JSON value. -/
inductive Json
  | null
  | bool (b : Bool)
  | number (n : JsonNumber)
  | string (s : String)
  | array (items : List Json)
  | object (members : List (String × Json))
  deriving Repr, Inhabited

namespace JsonNumber

/-- Whether the number is zero, of either sign. -/
def isZero : JsonNumber → Bool
  | whole n => n = 0
  | double _ size => size.mantissa = 0

/-- The digits of a decimal with the point and exponent of JSON. Numbers from
10⁻⁵ up to 10¹⁶ are written out with at least one digit behind the point, all
others with one digit before the point and an exponent with its sign. -/
def decimalText (d : Decimal.Shortest) : List Char :=
  let digits := Nat.toDigits 10 d.digits
  let exponent : Int := d.power + digits.length - 1
  if -5 ≤ exponent ∧ exponent < 16 then
    if d.power ≥ 0 then digits ++ List.replicate d.power.toNat '0' ++ ['.', '0']
    else if exponent ≥ 0 then
      digits.take (exponent.toNat + 1) ++ '.' :: digits.drop (exponent.toNat + 1)
    else ['0', '.'] ++ List.replicate (exponent.natAbs - 1) '0' ++ digits
  else
    let point := if digits.length = 1 then digits else digits.take 1 ++ '.' :: digits.drop 1
    let sign := if exponent < 0 then '-' else '+'
    point ++ ['e', sign] ++ Nat.toDigits 10 exponent.natAbs

/-- The text of the number. -/
def toText : JsonNumber → String
  | whole n => toString n
  | double negative size =>
    let digits := match size.shortest? with
      | some d => decimalText d
      | none => ['0', '.', '0']
    String.ofList (if negative then '-' :: digits else digits)

end JsonNumber

namespace Json

/-- The value of a member of an object. -/
def get? (key : String) : Json → Option Json
  | object members => members.lookup key
  | _ => none

/-- The text of a string. -/
def string? : Json → Option String
  | string s => some s
  | _ => none

/-- The members of an object. -/
def members? : Json → Option (List (String × Json))
  | object members => some members
  | _ => none

/-- Put a member into an object. A key that is there already keeps its place and
takes the new value. -/
def insertMember (key : String) (value : Json) :
    List (String × Json) → List (String × Json)
  | [] => [(key, value)]
  | (k, v) :: rest =>
    if k = key then (k, value) :: rest else (k, v) :: insertMember key value rest

end Json

end Vendoring
