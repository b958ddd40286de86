/-!
# Lines

* `lines`: the lines of a text, for every line boundary of Unicode;
* `joined`: texts with a separator between them;
* `splitOn`, `afterLast`: texts cut at a separator.
-/

namespace JsxLint.Text

/-- The characters that end a line; a carriage return and a line feed together are one end. -/
def endsLine (c : Char) : Bool :=
  let n := c.toNat
  (0xA ≤ n && n ≤ 0xD) || (0x1C ≤ n && n ≤ 0x1E) || n == 0x85 || n == 0x2028 || n == 0x2029

/-- The lines of characters, the first of which begins with `line` (nearest first). -/
def linesFrom : List Char → List Char → List (List Char)
  | [], [] => []
  | line, [] => [line.reverse]
  | line, '\r' :: '\n' :: cs => line.reverse :: linesFrom [] cs
  | line, c :: cs =>
    if endsLine c then line.reverse :: linesFrom [] cs else linesFrom (c :: line) cs

/-- The lines of a text, without their ends. -/
def lines (s : String) : List String :=
  (linesFrom [] s.toList).map String.ofList

/-- Texts with a separator between neighbours. -/
def joined (separator : String) (parts : List String) : String :=
  separator.intercalate parts

/-- The parts of a list between the elements that `p` holds for; at least one part. -/
def splitAt {α : Type} (p : α → Bool) : List α → List (List α)
  | [] => [[]]
  | a :: l =>
    match p a, splitAt p l with
    | true, parts => [] :: parts
    | false, part :: parts => (a :: part) :: parts
    | false, [] => [[a]]

/-- What follows the last element equal to `a`. -/
def afterLast {α : Type} [BEq α] (a : α) (l : List α) : Option (List α) :=
  if l.contains a then (splitAt (· == a) l).getLast? else none

/-- The parts of a text between the characters equal to `c`; at least one part. -/
def splitOn (c : Char) (s : String) : List String :=
  (splitAt (· == c) s.toList).map String.ofList

end JsxLint.Text
