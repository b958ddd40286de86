import JsxLint.Text.Utf8

/-!
# White space

* `isSpace`: the property White_Space;
* `isBlank`: white space in a text, that property and the four information separators;
* `strip`, `stripEnd`: a text without the white space at its ends, or at its end;
* `Bytes.stripEnd`: bytes without the ASCII white space at their end.
-/

namespace JsxLint.Text

/-- The property White_Space. -/
def isSpace (c : Char) : Bool :=
  let n := c.toNat
  (0x9 ≤ n && n ≤ 0xD) || n == 0x20 || n == 0x85 || n == 0xA0 || n == 0x1680 ||
    (0x2000 ≤ n && n ≤ 0x200A) || n == 0x2028 || n == 0x2029 || n == 0x202F || n == 0x205F ||
    n == 0x3000

/-- White space in a text. -/
def isBlank (c : Char) : Bool :=
  isSpace c || (0x1C ≤ c.toNat && c.toNat ≤ 0x1F)

/-- The elements up to the last one that `p` does not hold for. -/
def dropEndWhile {α : Type} (p : α → Bool) (l : List α) : List α :=
  (l.reverse.dropWhile p).reverse

/-- A text without the white space at its end. -/
def stripEnd (s : String) : String :=
  String.ofList (dropEndWhile isBlank s.toList)

/-- A list without the first and the last elements that `p` holds for. -/
def trimBoth {α : Type} (p : α → Bool) (l : List α) : List α :=
  dropEndWhile p (l.dropWhile p)

/-- A text without the white space at its ends. -/
def strip (s : String) : String :=
  String.ofList (trimBoth isBlank s.toList)

end JsxLint.Text

namespace JsxLint.Bytes

/-- The bytes of space, tab, line feed, carriage return, vertical tab and form feed. -/
def isBlank (b : UInt8) : Bool :=
  b == 0x20 || (0x9 ≤ b && b ≤ 0xD)

/-- Bytes without the ASCII white space at their end. -/
def stripEnd (bs : Bytes) : Bytes :=
  Text.dropEndWhile isBlank bs

end JsxLint.Bytes
