/-!
# Control sequences

A control sequence tells a terminal about colours and places: an escape and an opening bracket, then
parameters, then intermediate characters, and one final character. Each of these has its own range of
ASCII characters. In a text that goes anywhere else a control sequence has no place.

* `behindSequence?`: what follows the control sequence that a text begins with;
* `plain`: a text without its control sequences.
-/

namespace JsxLint.Text

/-- A character of the parameters of a control sequence: a digit or one of `:;<=>?`. -/
def isParameter (c : Char) : Bool :=
  '0' ≤ c && c ≤ '?'

/-- An intermediate character of a control sequence: a space or one of the marks up to the slash. -/
def isIntermediate (c : Char) : Bool :=
  ' ' ≤ c && c ≤ '/'

/-- A final character of a control sequence: a letter or one of the marks around the letters. -/
def isFinal (c : Char) : Bool :=
  '@' ≤ c && c ≤ '~'

/-- What follows the control sequence that characters begin with. -/
def behindSequence? : List Char → Option (List Char)
  | '\x1b' :: '[' :: cs =>
    match (cs.dropWhile isParameter).dropWhile isIntermediate with
    | c :: rest => if isFinal c then some rest else none
    | [] => none
  | _ => none

/-- A control sequence has characters. -/
theorem length_lt_of_behindSequence? {cs rest : List Char} (h : behindSequence? cs = some rest) :
    rest.length < cs.length := by
  unfold behindSequence? at h
  split at h
  · next cs =>
    split at h
    · next c tail hd =>
      have hle := ((List.dropWhile_suffix isIntermediate).trans
        (List.dropWhile_suffix isParameter (l := cs))).length_le
      rw [hd] at hle
      split at h
      · cases h
        simp only [List.length_cons] at hle ⊢
        omega
      · cases h
    · cases h
  · cases h

/-- Characters without the control sequences among them. -/
def withoutSequences : List Char → List Char
  | [] => []
  | c :: cs =>
    match _ : behindSequence? (c :: cs) with
    | some rest => withoutSequences rest
    | none => c :: withoutSequences cs
termination_by cs => cs.length
decreasing_by
  · exact length_lt_of_behindSequence? ‹_›
  · simp

/-- A text without its control sequences. -/
def plain (s : String) : String :=
  String.ofList (withoutSequences s.toList)

/-- Nothing is taken from characters without an escape. -/
theorem withoutSequences_of_not_mem {cs : List Char} (h : '\x1b' ∉ cs) :
    withoutSequences cs = cs := by
  induction cs with
  | nil => simp [withoutSequences]
  | cons c cs ih =>
    have hc : behindSequence? (c :: cs) = none := by
      unfold behindSequence?
      split
      · next heq => cases heq; simp at h
      · rfl
    rw [withoutSequences]
    split
    · next hs => rw [hc] at hs; cases hs
    · rw [ih fun hm => h (List.mem_cons_of_mem c hm)]

end JsxLint.Text
