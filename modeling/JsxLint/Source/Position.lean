import JsxLint.Text.Utf8

/-!
# Places in a text

A byte offset is shown to people as a line, counted from one, and a column, counted in characters
from zero. A line ends behind a line feed.

* `Span`, `slice`: a range of bytes and what it holds;
* `lineStarts`: the offsets at which lines start;
* `positionOf`: line and column of an offset;
* `positionAt`: the same for offsets that may be negative.
-/

namespace JsxLint

/-- A range of byte offsets, from `start` up to and without `stop`. -/
structure Span where
  start : Nat
  stop : Nat
  deriving DecidableEq, Repr, Inhabited

/-- The bytes from one offset up to and without another. -/
def slice (bs : Bytes) (start stop : Nat) : Bytes :=
  (bs.drop start).take (stop - start)

/-- A line, counted from one, and a column, counted from zero. -/
structure Position where
  line : Nat
  column : Nat
  deriving DecidableEq, Repr, Inhabited

/-- The offsets behind the line feeds of bytes that start at offset `n`. -/
def lineStartsFrom (n : Nat) : Bytes → List Nat
  | [] => []
  | b :: bs => if b = 0x0A then (n + 1) :: lineStartsFrom (n + 1) bs else lineStartsFrom (n + 1) bs

/-- The offsets at which lines start. -/
def lineStarts (bs : Bytes) : List Nat :=
  0 :: lineStartsFrom 0 bs

/-- Line and column of an offset, given the line starts. -/
def positionOf (bs : Bytes) (starts : List Nat) (offset : Nat) : Position :=
  let passed := starts.takeWhile (· ≤ offset)
  let start := passed.getLast?.getD 0
  ⟨passed.length, (Utf8.decodeLossy (slice bs start offset)).length⟩

/-- Line and column of an offset. A negative one counts from the end; its line is zero, and its
column counts from the start of the last line. -/
def positionAt (bs : Bytes) (starts : List Nat) (offset : Int) : Position :=
  if offset < 0 then
    ⟨0, (Utf8.decodeLossy (slice bs (starts.getLast?.getD 0) (bs.length + offset).toNat)).length⟩
  else positionOf bs starts offset.toNat

end JsxLint
