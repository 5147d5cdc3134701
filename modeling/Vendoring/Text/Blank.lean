/-
# White space

The characters that separate words in sources, manifests and settings. The
class is the Unicode property White_Space, which is wider than the blanks of
ASCII: it also holds the no-break and ideographic spaces, and the two line
separators. Trimming removes exactly these characters from the ends of a text.
-/

namespace Vendoring.Text

/-- White space in the sense of Unicode. -/
def isBlank (c : Char) : Bool :=
  let n := c.toNat
  (9 ≤ n && n ≤ 13) || n == 0x20 || n == 0x85 || n == 0xA0 || n == 0x1680 ||
    (0x2000 ≤ n && n ≤ 0x200A) || n == 0x2028 || n == 0x2029 || n == 0x202F ||
    n == 0x205F || n == 0x3000

/-- Every blank that a lexer of plain ASCII would skip is white space here too. -/
theorem isBlank_of_isWhitespace {c : Char} (h : c.isWhitespace = true) :
    isBlank c = true := by
  simp only [Char.isWhitespace, Bool.or_eq_true, decide_eq_true_eq] at h
  obtain ((rfl | rfl) | rfl) | rfl := h <;> rfl

/-- Drop characters in the class from the end of a text. -/
def dropEndWhile (p : Char → Bool) (s : List Char) : List Char :=
  (s.reverse.dropWhile p).reverse

/-- A text without the white space at its two ends. -/
def trim (s : String) : String :=
  String.ofList (dropEndWhile isBlank (s.toList.dropWhile isBlank))

/-- A text that holds nothing but white space. -/
def isAllBlank (s : String) : Bool :=
  s.toList.all isBlank

end Vendoring.Text
