import JsxLint.Path
import JsxLint.Settings.Basic
import JsxLint.Settings.Decimal

/-!
# Loose values

Values that settings are given in, and how they are read: a number may come as a text or a truth
value, a truth value as a text or a number.

* `Floating`, `Value`: loose values;
* `Defect`: what is wrong with one;
* `Value.toInt`, `toPositive`, `toBool`, `toPath`, `toTexts`: reading them.
-/

namespace JsxLint.Settings

/-- A number of floating point. -/
inductive Floating
  /-- It has no fractional part. -/
  | integral (n : Int)
  | fractional
  | infinite
  deriving DecidableEq, Repr, Inhabited

/-- A value that a setting is given in. -/
inductive Value
  | null
  | bool (b : Bool)
  | whole (n : Int)
  | floating (x : Floating)
  | text (s : String)
  | list (items : List Value)
  /-- Values under keys. -/
  | record (keys : List String)
  deriving Repr, Inhabited

/-- What is wrong with a value. -/
inductive Defect
  | notAnInteger
  | hasFraction
  | notFinite
  | notANumeral
  /-- A number of floating point beyond the range, or a text with too many digits. -/
  | tooLarge
  | tooSmall
  | notABool
  | notABoolWord
  | notAPath
  | notAList
  | notAText
  deriving DecidableEq, Repr

/-- A defect and where it is: the place of an item, for lists. -/
structure Misfit where
  item : Option Nat
  defect : Defect
  deriving DecidableEq, Repr

namespace Value

/-! ### Numbers -/

/-- The integers in this range are those of 64 bits with a sign. -/
def wordRange : Int := 0x8000000000000000

/-- Whether an integer lies between the ends of the range, which floating point has to. -/
def isInside (n : Int) : Bool :=
  decide (-wordRange < n) && decide (n < wordRange)

/-- Whether an integer has 64 bits with a sign. -/
def isWord (n : Int) : Bool :=
  isInside n || n == -wordRange

/-- The defect of a text that is no integer. -/
def ofFault : Decimal.Fault → Defect
  | .malformed => .notANumeral
  | .tooLong => .tooLarge

/-- Read an integer. -/
def toInt : Value → Except Defect Int
  | whole n => .ok n
  | bool b => .ok (if b then 1 else 0)
  | floating (.integral n) => if isInside n then .ok n else .error .tooLarge
  | floating .fractional => .error .hasFraction
  | floating .infinite => .error .notFinite
  | text s => (Decimal.integer s).mapError ofFault
  | _ => .error .notAnInteger

/-- An integer that is at least one. -/
def positive (n : Int) : Except Defect Positive :=
  if h : 0 < n.toNat then .ok ⟨n.toNat, h⟩ else .error .tooSmall

/-- Read an integer that is at least one. -/
def toPositive (v : Value) : Except Defect Positive :=
  v.toInt.bind positive

/-! ### Truth values -/

/-- The words for true. -/
def trueWords : List String := ["1", "on", "t", "true", "y", "yes"]

/-- The words for false. -/
def falseWords : List String := ["0", "off", "f", "false", "n", "no"]

/-- The truth value of a number. -/
def boolOfInt (n : Int) : Except Defect Bool :=
  if n = 1 then .ok true else if n = 0 then .ok false else .error .notABoolWord

/-- Read a truth value. -/
def toBool : Value → Except Defect Bool
  | bool b => .ok b
  | whole n => if isWord n then boolOfInt n else .error .notABool
  | floating (.integral n) => if isInside n then boolOfInt n else .error .notABool
  | text s =>
    let word := s.toLower
    if trueWords.contains word then .ok true
    else if falseWords.contains word then .ok false
    else .error .notABoolWord
  | _ => .error .notABool

/-! ### Paths and lists -/

/-- Read a path. -/
def toPath : Value → Except Defect Path
  | text s => .ok (.ofString s)
  | _ => .error .notAPath

/-- Read a path that may be missing. -/
def toPath? : Value → Except Defect (Option Path)
  | null => .ok none
  | v => v.toPath.map some

/-- The items, from the given number on, that are not texts. -/
def misfitsFrom (items : List Value) (start : Nat) : List Misfit :=
  (items.zipIdx start).filterMap fun
    | (text _, _) => none
    | (_, i) => some ⟨some i, .notAText⟩

/-- The items that are texts. -/
def textsOf (items : List Value) : List String :=
  items.filterMap fun
    | text s => some s
    | _ => none

/-- Read a list of texts. -/
def toTexts : Value → Except (List Misfit) (List String)
  | list items =>
    match misfitsFrom items 0 with
    | [] => .ok (textsOf items)
    | misfits => .error misfits
  | _ => .error [⟨none, .notAList⟩]

end Value
end JsxLint.Settings
