import JsxLint.Rule.Basic

/-!
# Faults

What goes wrong during an analysis: a rule, its repair, name resolution or printing breaks down.
Faults are given by the number of the call that they strike, counted from one, so an analysis is a
function of them.

* `Faults`: what goes wrong at which call;
* `Calls`: how many calls were made.
-/

namespace JsxLint

/-- What goes wrong, and at which call. Every fault comes with its message. -/
structure Faults where
  /-- Whether the detection of a rule breaks down at a call. -/
  detect : String → Nat → Option String
  /-- Whether the repair of a rule breaks down at a call. -/
  repair : String → Nat → Option String
  /-- Whether name resolution breaks down at a call. -/
  resolve : Nat → Option String
  /-- Whether printing breaks down. -/
  print : Option String

/-- Nothing goes wrong. -/
def Faults.none : Faults :=
  ⟨fun _ _ => .none, fun _ _ => .none, fun _ => .none, .none⟩

instance : Inhabited Faults := ⟨.none⟩

/-- How many calls were made. -/
structure Calls where
  /-- Detections, rule by rule. -/
  detect : List (String × Nat)
  /-- Repairs, rule by rule. -/
  repair : List (String × Nat)
  /-- Name resolutions. -/
  resolve : Nat
  deriving Repr, Inhabited

/-- No call was made yet. -/
def Calls.none : Calls :=
  ⟨[], [], 0⟩

/-- One call more under a key; also its number. -/
def countCall (key : String) : List (String × Nat) → Nat × List (String × Nat)
  | [] => (1, [(key, 1)])
  | (k, n) :: rest =>
    if k = key then (n + 1, (k, n + 1) :: rest)
    else
      let (number, rest) := countCall key rest
      (number, (k, n) :: rest)

/-- The message of a breakdown, or the word for it when the message is empty. -/
def breakdownMessage (message : String) : String :=
  if message = "" then "RuntimeError" else message

end JsxLint
