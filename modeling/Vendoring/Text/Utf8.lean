/-
# Reading bytes as text

Files are bytes. A manifest has to be valid UTF-8 to be read at all, while a
script is scanned even when part of it is damaged: every longest run of bytes
that begins like a character but cannot be completed then counts as one
replacement character. On valid bytes the two readings agree.
-/

namespace Vendoring.Text

/-- The character that stands for bytes that are no character. -/
def replacementChar : Char := '\ufffd'

/-- Whether a byte continues a character begun before it. -/
def isContinuation (b : UInt8) : Bool :=
  0x80 ≤ b && b ≤ 0xBF

/-- The bits that a continuation byte adds to a character. -/
def continuationBits (b : UInt8) : Nat :=
  b.toNat % 0x40

/-- Whether `b` may follow the first byte `a` of a three-byte character. The
bounds exclude overlong forms and surrogates. -/
def isSecondOfThree (a b : UInt8) : Bool :=
  if a == 0xE0 then 0xA0 ≤ b && b ≤ 0xBF
  else if a == 0xED then 0x80 ≤ b && b ≤ 0x9F
  else isContinuation b

/-- Whether `b` may follow the first byte `a` of a four-byte character. The
bounds exclude overlong forms and values beyond the last code point. -/
def isSecondOfFour (a b : UInt8) : Bool :=
  if a == 0xF0 then 0x90 ≤ b && b ≤ 0xBF
  else if a == 0xF4 then 0x80 ≤ b && b ≤ 0x8F
  else isContinuation b

/-- The characters of a byte sequence, with one replacement character for every
maximal piece that is not a character. -/
def decodeLossyList : List UInt8 → List Char
  | [] => []
  | a :: rest =>
    if a < 0x80 then Char.ofNat a.toNat :: decodeLossyList rest
    else if 0xC2 ≤ a && a ≤ 0xDF then
      match rest with
      | [] => [replacementChar]
      | b :: more =>
        if isContinuation b then
          Char.ofNat ((a.toNat % 0x20) * 0x40 + continuationBits b) :: decodeLossyList more
        else replacementChar :: decodeLossyList (b :: more)
    else if 0xE0 ≤ a && a ≤ 0xEF then
      match rest with
      | [] => [replacementChar]
      | b :: more =>
        if isSecondOfThree a b then
          match more with
          | [] => [replacementChar]
          | c :: last =>
            if isContinuation c then
              Char.ofNat ((a.toNat % 0x10) * 0x1000 + continuationBits b * 0x40 +
                continuationBits c) :: decodeLossyList last
            else replacementChar :: decodeLossyList (c :: last)
        else replacementChar :: decodeLossyList (b :: more)
    else if 0xF0 ≤ a && a ≤ 0xF4 then
      match rest with
      | [] => [replacementChar]
      | b :: more =>
        if isSecondOfFour a b then
          match more with
          | [] => [replacementChar]
          | c :: others =>
            if isContinuation c then
              match others with
              | [] => [replacementChar]
              | d :: last =>
                if isContinuation d then
                  Char.ofNat ((a.toNat % 0x08) * 0x40000 + continuationBits b * 0x1000 +
                    continuationBits c * 0x40 + continuationBits d) :: decodeLossyList last
                else replacementChar :: decodeLossyList (d :: last)
            else replacementChar :: decodeLossyList (c :: others)
        else replacementChar :: decodeLossyList (b :: more)
    else replacementChar :: decodeLossyList rest

/-- The text that the bytes encode, if they are valid UTF-8. -/
def decode? (bytes : ByteArray) : Option String :=
  String.fromUTF8? bytes

/-- The text of the bytes, with replacement characters where they are damaged. -/
def decodeLossy (bytes : ByteArray) : String :=
  (decode? bytes).getD (String.ofList (decodeLossyList bytes.data.toList))

/-- Valid bytes are read alike by both readings. -/
theorem decodeLossy_eq_of_decode? {bytes : ByteArray} {s : String}
    (h : decode? bytes = some s) : decodeLossy bytes = s := by
  simp [decodeLossy, h]

end Vendoring.Text
