import JsxLint.Rule.Finding

/-!
# Outcomes

What the analysis of one file comes to.

* `FileState`: how the analysis ended;
* `Outcome`: findings, repairs and everything that went wrong;
* `Outcome.issues`, `good`, `unresolved`, `unresolvedErrors`: views of the findings;
* `Outcome.abandon`: repairs that were made but could not be kept.
-/

namespace JsxLint

/-- How the analysis of a file ended. -/
inductive FileState
  /-- The file was not analysed. -/
  | skipped
  /-- Nothing was repaired. -/
  | unchanged
  /-- There is a repaired text. -/
  | regenerated
  /-- The repaired text replaced the file. -/
  | written
  deriving DecidableEq, Repr, Inhabited

/-- The word for a state. -/
def FileState.word : FileState → String
  | .skipped => "skipped"
  | .unchanged => "unchanged"
  | .regenerated => "regenerated"
  | .written => "written"

/-- What the analysis of a file comes to. -/
structure Outcome where
  path : String
  state : FileState
  /-- How many rounds of repairs were made. -/
  passes : Nat
  findings : List Finding
  changes : List Change
  refusals : List Refusal
  /-- The rules that broke down. -/
  failures : List DetectionFailure
  /-- Why the file could not be read. -/
  parseError : Option String
  /-- Why the analysis broke down. -/
  error : Option String
  /-- Why the repaired text could not be written. -/
  writeError : Option String
  written : Bool
  /-- The repaired text. -/
  output : Option String
  deriving Repr, Inhabited

namespace Outcome

/-- The outcome for a file that could not be read. -/
def unread (path message : String) : Outcome :=
  { path, state := .skipped, passes := 0, findings := [], changes := [], refusals := []
    failures := [], parseError := some message, error := none, writeError := none
    written := false, output := none }

/-- The findings that ask for a repair. -/
def issues (o : Outcome) : List Finding :=
  o.findings.filter (·.isIssue)

/-- The findings that praise. -/
def good (o : Outcome) : List Finding :=
  o.findings.filter (!·.isIssue)

/-- The issues that no change was made for. -/
def unresolved (o : Outcome) : List Finding :=
  let repaired := o.changes.map (·.finding.key)
  o.issues.filter fun f => !repaired.contains f.key

/-- The unresolved issues that are errors. -/
def unresolvedErrors (o : Outcome) : List Finding :=
  o.unresolved.filter (·.severity == .error)

/-- A change that could not be kept, as a refusal. -/
def lost (reason : Reason) (c : Change) : Refusal :=
  ⟨c.rule, c.finding, reason⟩

/-- Turn the changes, which could not be kept, into refusals. -/
def abandon (o : Outcome) (reason : Reason) : Outcome :=
  { o with
    refusals := o.refusals ++ o.changes.map (lost reason)
    changes := []
    output := none }

end Outcome
end JsxLint
