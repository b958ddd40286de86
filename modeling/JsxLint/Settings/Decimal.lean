import JsxLint.Text.Blank
import JsxLint.Text.Numeral

/-!
# Decimal texts

An integer given as a text is best written plainly: perhaps a minus sign, and digits without a zero
in front. Any other text is tidied first: white space around it, a plus sign, zeros in front, a
point with only zeros behind it and single underscores are dropped.

* `Decimal.plain`: the integer of a plain text;
* `Decimal.tidy?`: the plain text of one that is not;
* `Decimal.integer`: the integer of a text.
-/

namespace JsxLint.Settings.Decimal

/-- Why a text denotes no integer. -/
inductive Fault
  | malformed
  /-- It has too many digits. -/
  | tooLong
  deriving DecidableEq, Repr

/-! ### Plain texts -/

/-- The number that digits denote. -/
def valueOf (digits : List Char) : Nat :=
  digits.foldl (fun value c => 10 * value + (c.toNat - '0'.toNat)) 0

/-- The number of digits without a zero in front. Too many digits are told before anything that
follows them. -/
def unsigned (cs : List Char) : Except Fault Nat :=
  let digits := cs.takeWhile Char.isDigit
  if digits.head? = some '0' then
    if cs = ['0'] then .ok 0 else .error .malformed
  else if Numeral.digitLimit < digits.length then .error .tooLong
  else if digits.isEmpty || digits.length ≠ cs.length then .error .malformed
  else .ok (valueOf digits)

/-- The integer of a plain text. -/
def plain : List Char → Except Fault Int
  | '-' :: cs => (unsigned cs).map fun n => -(n : Int)
  | cs => (unsigned cs).map Int.ofNat

/-! ### Tidying -/

/-- Drop zeros and underscores behind the character `last`, one of them too. In front of a point
and at the end the last of them stays. -/
def dropZerosBehind (last : Char) : List Char → Option (List Char)
  | [] => some [last]
  | c :: cs =>
    if c = '0' || c = '_' then dropZerosBehind c cs
    else if c = '.' then some (last :: c :: cs)
    else if c.isDigit || c = '-' then some (c :: cs)
    else none

/-- Drop the zeros in front. A minus sign may stand behind them. -/
def dropZeros : List Char → Option (List Char)
  | [] => none
  | c :: cs =>
    if c = '0' then dropZerosBehind c cs
    else if c.isDigit || c = '-' then some (c :: cs)
    else none

/-- Drop a point with only zeros behind it. -/
def dropPoint (cs : List Char) : List Char :=
  match cs.dropWhile (· ≠ '.') with
  | _ :: zeros => if zeros.all (· == '0') then cs.takeWhile (· ≠ '.') else cs
  | [] => cs

/-- Whether two underscores stand side by side. -/
def hasDoubled : List Char → Bool
  | '_' :: '_' :: _ => true
  | _ :: cs => hasDoubled cs
  | [] => false

/-- Drop underscores, if each of them stands between two other characters. -/
def dropUnderscores (cs : List Char) : List Char :=
  if cs.head? = some '_' || cs.getLast? = some '_' || hasDoubled cs then cs
  else cs.filter (· ≠ '_')

/-- A text without a sign in a plainer form. -/
def tidyUnsigned? (cs : List Char) : Option (List Char) :=
  (dropZeros cs).map fun cs => dropUnderscores (dropPoint cs)

/-- A text without a plus sign in a plainer form. -/
def tidySigned? : List Char → Option (List Char)
  | '-' :: cs => (tidyUnsigned? cs).map ('-' :: ·)
  | cs => tidyUnsigned? cs

/-- A text in a plainer form. -/
def tidy? (cs : List Char) : Option (List Char) :=
  match Text.trimBoth Text.isSpace cs with
  | '+' :: cs => tidySigned? cs
  | cs => tidySigned? cs

/-- The integer that a text denotes. -/
def integer (s : String) : Except Fault Int :=
  match plain s.toList with
  | .error .malformed =>
    match tidy? s.toList with
    | some cs => plain cs
    | none => .error .malformed
  | result => result

example : integer " +1_000.0" = .ok 1000 := by cbv
example : integer "0-5" = .ok (-5) := by cbv
example : integer "1__0" = .error .malformed := by cbv

end JsxLint.Settings.Decimal
