import JsxLint.Text.Letter.Table

/-!
# Letter case

Case by the properties of Unicode 14, with the full mappings that may give several characters and,
for lower case, the two forms of the Greek sigma.

* `isLower`, `isUpper`: a character with the property Lowercase or Uppercase;
* `upper`: the upper-case form of a character;
* `lower`: the lower-case form of a text.
-/

namespace JsxLint.Letter

/-- A lower-case character. -/
def isLower (c : Char) : Bool :=
  lowercase.any (·.has c.toNat)

/-- An upper-case character. -/
def isUpper (c : Char) : Bool :=
  uppercase.any (·.has c.toNat)

/-- A character that has a case. -/
def isCased (c : Char) : Bool :=
  isLower c || isUpper c || titlecase.any (·.has c.toNat)

/-- A character passed over when the neighbours of a sigma are looked at. -/
def isCaseIgnorable (c : Char) : Bool :=
  caseIgnorable.any (·.has c.toNat)

/-- A character mapped by a table of sequences or else by a table of shifts. -/
def mapped (sequences : List (Nat × List Nat)) (shifts : List Shift) (c : Char) : List Char :=
  match sequences.lookup c.toNat with
  | some ns => ns.map Char.ofNat
  | none =>
    match shifts.findSome? (·.image? c.toNat) with
    | some n => [Char.ofNat n]
    | none => [c]

/-- The upper-case form of a character. -/
def upper (c : Char) : List Char :=
  mapped upperSequences upperShifts c

/-- Whether the next character that is not passed over has a case. -/
def nextIsCased (cs : List Char) : Bool :=
  match cs.dropWhile isCaseIgnorable with
  | [] => false
  | c :: _ => isCased c

/-- A sigma between `before` (nearest first) and `after` takes its final form at the end of a word. -/
def lowerSigma (before after : List Char) : Char :=
  if nextIsCased before && !nextIsCased after then 'ς' else 'σ'

/-- The lower-case form of the characters that follow `before` (nearest first). -/
def lowerAfter : List Char → List Char → List Char
  | _, [] => []
  | before, c :: cs =>
    (if c == 'Σ' then [lowerSigma before cs] else mapped lowerSequences lowerShifts c) ++
      lowerAfter (c :: before) cs

/-- The lower-case form of a text. -/
def lower (s : String) : String :=
  String.ofList (lowerAfter [] s.toList)

/-- Whether the first character of a text is lower-case. -/
def startsLower (s : String) : Bool :=
  s.toList.head?.any isLower

/-- Whether the first character of a text is upper-case. -/
def startsUpper (s : String) : Bool :=
  s.toList.head?.any isUpper

/-- A text whose first character is in its upper-case form. -/
def capitalise (s : String) : String :=
  match s.toList with
  | [] => ""
  | c :: cs => String.ofList (upper c ++ cs)

end JsxLint.Letter
