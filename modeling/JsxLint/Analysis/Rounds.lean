import JsxLint.Analysis.Fault
import JsxLint.Analysis.Outcome
import JsxLint.Syntax.Printer
import JsxLint.Syntax.Reading

/-!
# Rounds of analysis

A text is read once and then worked on in rounds. A round resolves the names afresh, lets every
rule detect, and hands the findings that no earlier round had to the repairs of their rules. The
rounds end when one makes no change or when their number is used up; then the tree is printed.

* `Engine`: the rules and all else that an analysis depends on;
* `Engine.detectAll`, `Engine.repairAll`: the halves of a round;
* `Engine.rounds`: the rounds;
* `Engine.analyse`: the outcome for a text.
-/

namespace JsxLint

/-- What an analysis depends on, apart from the text. -/
structure Engine where
  rules : List Rule
  grammar : Grammar
  faults : Faults
  /-- Whether findings are repaired. -/
  fix : Bool
  /-- The greatest number of rounds of repairs. -/
  maxPasses : Nat

/-- Why an analysis broke down. -/
inductive AnalysisError
  /-- A node of the source lacks a part. -/
  | missingPart
  /-- Name resolution broke down. -/
  | unresolvable (message : String)
  /-- The repaired tree does not print as text. -/
  | notText (defect : Utf8.Defect)
  deriving DecidableEq, Repr

/-- The words for an analysis that broke down. -/
def AnalysisError.message : AnalysisError → String
  | .missingPart => "AttributeError: 'NoneType' object has no attribute 'type'"
  | .unresolvable message => "RuntimeError: " ++ message
  | .notText defect => "UnicodeDecodeError: " ++ defect.message

/-- How far the analysis of a file has come. -/
structure Progress where
  document : Document
  /-- The findings so far, in the order in which they came; no two have the same key. -/
  seen : List Finding
  changes : List Change
  refusals : List Refusal
  failures : List DetectionFailure
  /-- The rounds of repairs so far. -/
  passes : Nat
  calls : Calls
  deriving Inhabited

namespace Progress

/-- The state of a document that nothing was done with. -/
def start (d : Document) (calls : Calls) : Progress :=
  ⟨d, [], [], [], [], 0, calls⟩

/-- Whether a rule broke down. -/
def hasFailed (p : Progress) (rule : String) : Bool :=
  p.failures.any (·.rule == rule)

/-- Whether a finding of the same rule at the same place is known. -/
def knows (p : Progress) (f : Finding) : Bool :=
  p.seen.any (·.key == f.key)

end Progress

namespace Engine

/-! ### Detection -/

/-- The findings of one rule; one that breaks down, or did so before, has none. -/
def detectOne (e : Engine) (w : Workspace) (nodes : List Node) (rule : Rule) (p : Progress) :
    List Finding × Progress :=
  if p.hasFailed rule.id then ([], p)
  else
    let (number, detect) := countCall rule.id p.calls.detect
    let p := { p with calls := { p.calls with detect } }
    match e.faults.detect rule.id number with
    | none => (rule.detect w nodes, p)
    | some message =>
      ([], { p with failures := p.failures ++ [⟨rule.id, breakdownMessage message⟩] })

/-- Keep a finding unless it is known. -/
def note (rule : Rule) (state : List (Rule × Finding) × Progress) (f : Finding) :
    List (Rule × Finding) × Progress :=
  if state.2.knows f then state
  else (state.1 ++ [(rule, f)], { state.2 with seen := state.2.seen ++ [f] })

/-- The new findings of all rules, each with its rule. -/
def detectAll (e : Engine) (w : Workspace) (p : Progress) : List (Rule × Finding) × Progress :=
  let nodes := w.document.root.walk
  e.rules.foldl (fun (new, p) rule =>
    let (findings, p) := e.detectOne w nodes rule p
    findings.foldl (note rule) (new, p)) ([], p)

/-! ### Repairs -/

/-- Repair one finding, if its rule can. -/
def repairOne (e : Engine) (w : Workspace) (p : Progress) (rule : Rule) (f : Finding) :
    Workspace × Progress :=
  match rule.repair? with
  | none => (w, p)
  | some repair =>
    let (number, repairs) := countCall rule.id p.calls.repair
    let p := { p with calls := { p.calls with repair := repairs } }
    let refuse : Reason → Workspace × Progress := fun reason =>
      (w, { p with refusals := p.refusals ++ [⟨rule.id, f, reason⟩] })
    match e.faults.repair rule.id number with
    | some message => refuse (.brokeDown (breakdownMessage message))
    | none =>
      match repair w f with
      | .error reason => refuse reason
      | .ok (change, w) => (w, { p with changes := p.changes ++ [change] })

/-- Repair findings one after the other, all in the names resolved before the first. -/
def repairAll (e : Engine) (w : Workspace) (p : Progress) (new : List (Rule × Finding)) : Progress :=
  let (w, p) := new.foldl (fun (w, p) (rule, f) => e.repairOne w p rule f) (w, p)
  { p with document := w.document, passes := p.passes + 1 }

/-! ### Rounds -/

/-- Resolve the names of a document afresh. -/
def resolve (e : Engine) (p : Progress) : Progress × Except AnalysisError Workspace :=
  let number := p.calls.resolve + 1
  let p := { p with calls := { p.calls with resolve := number } }
  match e.faults.resolve number with
  | some message => (p, .error (.unresolvable message))
  | none => (p, .ok (.ofDocument p.document))

/-- Rounds of detection and repair, with at most the given number of rounds of repair. -/
def rounds (e : Engine) (fix : Bool) (remaining : Nat) (p : Progress) :
    Progress × Option AnalysisError :=
  match e.resolve p with
  | (p, .error error) => (p, some error)
  | (p, .ok w) =>
    let (new, p) := e.detectAll w p
    match fix, remaining with
    | true, remaining + 1 =>
      let repaired := e.repairAll w p new
      if repaired.changes.length = p.changes.length then (repaired, none)
      else e.rounds fix remaining repaired
    | _, _ => (p, none)

/-! ### Outcomes -/

/-- The order of findings in an outcome: by line, then by column. -/
def findingLe (a b : Finding) : Bool :=
  a.line < b.line || (a.line == b.line && a.column ≤ b.column)

/-- The outcome of an analysis that broke down: nothing of a half-processed tree is reported. -/
def broken (path : String) (p : Progress) (error : AnalysisError) : Outcome :=
  { path, state := .skipped, passes := p.passes, findings := [], changes := [], refusals := []
    failures := p.failures, parseError := none, error := some error.message, writeError := none
    written := false, output := none }

/-- The outcome of finished rounds, before anything is printed. -/
def finished (path : String) (p : Progress) : Outcome :=
  { path, state := .unchanged, passes := p.passes, findings := p.seen.mergeSort findingLe
    changes := p.changes, refusals := p.refusals, failures := p.failures, parseError := none
    error := none, writeError := none, written := false, output := none }

/-- The outcome of finished rounds: repaired documents are printed, and a document that cannot be
printed loses its repairs. -/
def conclude (e : Engine) (path : String) (p : Progress) : Outcome :=
  let o := finished path p
  if p.changes.isEmpty then o
  else match e.faults.print, p.document.printText with
    | some message, _ => o.abandon (.notPrinted message)
    | none, .ok text => { o with state := .regenerated, output := some text }
    | none, .error (.notText defect) => broken path p (.notText defect)
    | none, .error error => o.abandon (.notPrinted error.message)

/-- The outcome for a text, and the calls made so far. `fix` may overrule the engine's own choice. -/
def analyse (e : Engine) (path text : String) (fix : Option Bool) (calls : Calls) : Outcome × Calls :=
  match Document.read e.grammar path text with
  | .error (.fault fault) => (.unread path (fault.located path), calls)
  | .error .missingPart => (broken path (.start default calls) .missingPart, calls)
  | .ok d =>
    match e.rounds (fix.getD e.fix) e.maxPasses (.start d calls) with
    | (p, some error) => (broken path p error, p.calls)
    | (p, none) => (e.conclude path p, p.calls)

end Engine
end JsxLint
