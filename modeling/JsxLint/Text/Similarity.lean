/-!
# Similar words

How much two words have in common: their longest common part, and what they have in common before
it and behind it. Words are similar when that is at least three tenths of their length together.

* `Shared`, `longestShared`: a common part, and the longest one;
* `common`: how many characters two words have in common;
* `similar`: the words of a list that are similar to a word.
-/

namespace JsxLint.Text

/-- How many first characters two words share. -/
def sharedStart : List Char → List Char → Nat
  | a :: as, b :: bs => if a = b then sharedStart as bs + 1 else 0
  | _, _ => 0

/-- A common part of two words: where it begins in each, and its size. -/
structure Shared where
  left : Nat
  right : Nat
  size : Nat
  deriving DecidableEq, Repr

/-- The common parts of two words, by where they begin in the first one, then in the second one. -/
def sharedParts (a b : List Char) : List Shared :=
  (List.range a.length).flatMap fun i =>
    (List.range b.length).map fun j => ⟨i, j, sharedStart (a.drop i) (b.drop j)⟩

/-- The longest common part of two words; of several the one that comes first. -/
def longestShared (a b : List Char) : Shared :=
  (sharedParts a b).foldl (fun best s => if best.size < s.size then s else best) ⟨0, 0, 0⟩

/-- How many characters two words have in common, looking for common parts at most `steps` deep. -/
def commonIn : Nat → List Char → List Char → Nat
  | 0, _, _ => 0
  | steps + 1, a, b =>
    let s := longestShared a b
    if s.size = 0 then 0
    else commonIn steps (a.take s.left) (b.take s.right) + s.size +
      commonIn steps (a.drop (s.left + s.size)) (b.drop (s.right + s.size))

/-- How many characters two words have in common. -/
def common (a b : String) : Nat :=
  commonIn a.length a.toList b.toList

/-- A word of a list with what makes it similar to another one. -/
structure Candidate where
  word : String
  common : Nat
  /-- The length of both words together. -/
  total : Nat
  deriving DecidableEq, Repr

/-- Whether the words have at least three tenths of their length in common. -/
def Candidate.isSimilar (c : Candidate) : Bool :=
  3 * c.total ≤ 10 * c.common

/-- The order of candidates, the most similar one first. -/
def Candidate.before (c d : Candidate) : Bool :=
  d.common * c.total < c.common * d.total ||
    (d.common * c.total == c.common * d.total && decide (d.word ≤ c.word))

/-- The words of a list that are similar to a word, at most three of them, in alphabetical order. -/
def similar (word : String) (words : List String) : List String :=
  let candidates := words.map fun w => (⟨w, common w word, w.length + word.length⟩ : Candidate)
  let nearest := ((candidates.filter (·.isSimilar)).mergeSort Candidate.before).take 3
  (nearest.map (·.word)).mergeSort fun a b => decide (a ≤ b)

end JsxLint.Text
