/-!
# Globs

Patterns for the text of a path. A star stands for characters of one name, a question mark for one
of them, brackets for one character of a set, and a backslash takes its meaning from the next
character.

* `Bracket`: the content of brackets; `Bracket.ranges?` are the ranges that it lists;
* `Piece`: what a pattern is made of;
* `glob`: the pieces of a pattern for one name;
* `Piece.rests`: what follows a piece in a text; `leads`: whether pieces follow each other in it.
-/

namespace JsxLint.Ignore

/-- The content of brackets. -/
structure Bracket where
  /-- Whether the characters are meant that are not listed. -/
  negated : Bool
  content : List Char
  deriving DecidableEq, Repr

/-- The ranges of characters that a content lists, both ends included; none when the ends of one
are the wrong way round. -/
def ranges? : List Char → Option (List (Char × Char))
  | [] => some []
  | low :: '-' :: high :: cs =>
    if high < low then none else (ranges? cs).map ((low, high) :: ·)
  | c :: cs => (ranges? cs).map ((c, c) :: ·)

/-- Whether a character is meant by brackets. -/
def Bracket.holds (b : Bracket) (c : Char) : Bool :=
  let listed := ((ranges? b.content).getD []).any fun (low, high) => decide (low ≤ c ∧ c ≤ high)
  listed != b.negated

/-- A part of a pattern. -/
inductive Piece
  /-- This character. -/
  | char (c : Char)
  /-- A character other than a slash. -/
  | one
  /-- Characters other than slashes. -/
  | many
  /-- At least one character, none of them a slash. -/
  | some
  | bracket (b : Bracket)
  /-- Nothing, or a path and the slash behind it. -/
  | above
  /-- Nothing, or a slash and the path behind it. -/
  | between
  deriving DecidableEq, Repr

/-- What is wrong with a pattern for a name. -/
inductive GlobError
  /-- Brackets are not closed. -/
  | unclosed
  /-- Nothing follows a backslash. -/
  | loneEscape
  deriving DecidableEq, Repr

/-! ### Reading -/

/-- Where in a pattern a character stands. -/
inductive Mode
  | plain
  /-- Behind a backslash. -/
  | escaped
  /-- Behind an opening bracket. -/
  | opened
  /-- Behind the sign for negated brackets. -/
  | negated
  /-- Among the characters of brackets, the last one of them first. -/
  | inside (negated : Bool) (content : List Char)

/-- The pieces of a pattern for a name. The first character between brackets may be a closing one. -/
def glob : Mode → List Char → Except GlobError (List Piece)
  | .plain, [] => .ok []
  | .escaped, [] => .error .loneEscape
  | _, [] => .error .unclosed
  | .plain, '\\' :: cs => glob .escaped cs
  | .plain, '*' :: cs => (glob .plain cs).map (.many :: ·)
  | .plain, '?' :: cs => (glob .plain cs).map (.one :: ·)
  | .plain, '[' :: cs => glob .opened cs
  | .plain, c :: cs => (glob .plain cs).map (.char c :: ·)
  | .escaped, c :: cs => (glob .plain cs).map (.char c :: ·)
  | .opened, '!' :: cs => glob .negated cs
  | .opened, '^' :: cs => glob .negated cs
  | .opened, c :: cs => glob (.inside false [c]) cs
  | .negated, c :: cs => glob (.inside true [c]) cs
  | .inside negated content, ']' :: cs =>
    (glob .plain cs).map (.bracket ⟨negated, content.reverse⟩ :: ·)
  | .inside negated content, c :: cs => glob (.inside negated (c :: content)) cs

/-- Whether every range of every bracket has its ends the right way round. -/
def rangesInOrder (pieces : List Piece) : Bool :=
  pieces.all fun
    | .bracket b => (ranges? b.content).isSome
    | _ => true

/-! ### Matching -/

/-- What is left of a text behind any number of first characters that all satisfy `p`. -/
def restsWhile (p : Char → Bool) : List Char → List (List Char)
  | [] => [[]]
  | c :: cs => (c :: cs) :: if p c then restsWhile p cs else []

/-- A character of a name. -/
def inName (c : Char) : Bool := c != '/'

/-- A character of a line. -/
def inLine (c : Char) : Bool := c != '\n'

/-- What is left of a text behind at least one character of its first line. -/
def restsOfLine (t : List Char) : List (List Char) :=
  (restsWhile inLine t).drop 1

/-- What is left of a text behind its first character, if `p` holds for that. -/
def restAfter (p : Char → Bool) : List Char → List (List Char)
  | [] => []
  | c :: cs => if p c then [cs] else []

/-- What can be left of a text behind a piece. -/
def Piece.rests : Piece → List Char → List (List Char)
  | .char c, t => restAfter (· == c) t
  | .one, t => restAfter inName t
  | .many, t => restsWhile inName t
  | .some, t => (restsWhile inName t).drop 1
  | .bracket b, t => restAfter b.holds t
  | .above, t => t :: (restsOfLine t).flatMap (restAfter (· == '/'))
  | .between, t => t :: (restAfter (· == '/') t).flatMap restsOfLine

/-- Whether pieces follow each other at the beginning of a text, and what is left fits `close`. -/
def leads (close : List Char → Bool) : List Piece → List Char → Bool
  | [], t => close t
  | p :: ps, t => (p.rests t).any (leads close ps)

/-- Whether a name ends here: at a slash or at the end of the text, of which a last line feed may
be left. -/
def nameEnds : List Char → Bool
  | [] => true
  | '\n' :: cs => cs.isEmpty
  | c :: _ => c == '/'

end JsxLint.Ignore
