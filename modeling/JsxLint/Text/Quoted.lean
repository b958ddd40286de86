import JsxLint.Text.Printable

/-!
# Quoted text

A text between quotes, in which what cannot be shown is written as an escape. Single quotes are
used unless the text has a single quote and no double quote.

* `quote`: the written form.
-/

namespace JsxLint.Text

/-- A number as `width` or more lower-case hexadecimal digits. -/
def hex (width n : Nat) : String :=
  let digits := Nat.toDigits 16 n
  String.ofList (List.replicate (width - digits.length) '0' ++ digits)

/-- The quote chosen for a text. -/
def quoteFor (cs : List Char) : Char :=
  if cs.contains '\'' && !cs.contains '"' then '"' else '\''

/-- One character between the quotes `q`. -/
def escape (q c : Char) : String :=
  if c == '\\' then "\\\\"
  else if c == q then String.ofList ['\\', q]
  else if c == '\n' then "\\n"
  else if c == '\r' then "\\r"
  else if c == '\t' then "\\t"
  else if isPrintable c then String.singleton c
  else if c.toNat < 0x100 then "\\x" ++ hex 2 c.toNat
  else if c.toNat < 0x10000 then "\\u" ++ hex 4 c.toNat
  else "\\U" ++ hex 8 c.toNat

/-- The written form of a text. -/
def quote (cs : List Char) : String :=
  let q := quoteFor cs
  String.singleton q ++ String.join (cs.map (escape q)) ++ String.singleton q

end JsxLint.Text
