import JsxLint.Analysis.Outcome
import JsxLint.Report.Basic
import JsxLint.Rule.Registry

/-!
# Aggregation

The report on a list of outcomes. The outcomes are put into the order of their paths first, so the
order in which they came does not matter as long as the paths differ.

* `tally`: how often every element of a list occurs, in the order of first occurrences;
* `issueGroups`, `topOf`: the issues rule by rule, and the greatest of a list;
* `Report.ofOutcomes`: the report.
-/

namespace JsxLint.Report

/-! ### Counting -/

/-- How often every element of a list occurs, in the order of first occurrences. -/
def tally {α : Type} [BEq α] (l : List α) : List (α × Nat) :=
  l.eraseDups.map fun a => (a, l.count a)

/-- How often the elements of a fixed list occur in another one. -/
def tallyOf {α : Type} [BEq α] (keys l : List α) : List (α × Nat) :=
  keys.map fun a => (a, l.count a)

/-- How many entries the lists of greatest counts have at most. -/
def topSize : Nat := 10

/-- The elements of the greatest sizes, the greatest first and else in their order. -/
def topOf {α : Type} (size : α → Nat) (l : List α) : List α :=
  (l.mergeSort fun a b => decide (size b ≤ size a)).take topSize

/-! ### Parts -/

/-- Everything that went wrong with a file. -/
def errorsOf (o : Outcome) : List ErrorRecord :=
  (o.parseError.filter (· != "")).toList.map (⟨.parse, ·, none, none⟩) ++
    o.failures.map (fun f => ⟨.detect, f.message, some f.rule, none⟩) ++
    o.refusals.map (fun r => ⟨.fix, r.reason.message, some r.rule, some r.finding.line⟩) ++
    (o.error.filter (· != "")).toList.map (⟨.analyze, ·, none, none⟩) ++
    (o.writeError.filter (· != "")).toList.map (⟨.write, ·, none, none⟩)

/-- The part of the report on one outcome. -/
def ofOutcome (o : Outcome) : FileReport where
  file := o.path
  changes := o.changes
  findings := o.findings
  parseFailed := o.parseError.isSome
  written := o.written
  errors := errorsOf o

/-- The issues of one rule, given the first of them. -/
def issueGroup (issues : List (String × Finding)) (rule : String) (first : Finding) : IssueGroup :=
  let own := issues.filter fun (_, f) => f.rule == rule
  { rule
    name := ((Rule.find? rule).map (·.name)).getD rule
    category := first.category
    severity := first.severity
    message := first.message
    hint := first.hint
    count := own.length
    files := (own.map (·.1)).eraseDups }

/-- The issues rule by rule, in the order in which the rules first occur. -/
def issueGroups (issues : List (String × Finding)) : List IssueGroup :=
  (issues.map (·.2.rule)).eraseDups.filterMap fun rule =>
    (issues.find? fun (_, f) => f.rule == rule).map fun (_, f) => issueGroup issues rule f

/-- The files with issues and their number. -/
def ranking (outcomes : List Outcome) : List FileRank :=
  (outcomes.filter fun o => !o.issues.isEmpty).map fun o => ⟨o.path, o.issues.length⟩

/-! ### The report -/

/-- The order of outcomes: by path. -/
def outcomeLe (a b : Outcome) : Bool :=
  decide (a.path ≤ b.path)

/-- The sum of some numbers. -/
def total (ns : List Nat) : Nat :=
  ns.foldr (· + ·) 0

/-- The totals of outcomes that are in order. -/
def summarise (outcomes : List Outcome) : Summary :=
  let findings := outcomes.flatMap (·.findings)
  let issues := outcomes.flatMap fun o => o.issues.map (o.path, ·)
  { bySeverity := tallyOf Severity.all (findings.map (·.severity))
    byCategory := tallyOf Category.all (issues.map (·.2.category))
    byRule := tally (findings.map (·.rule))
    totalIssues := total (outcomes.map (·.issues.length))
    totalGood := total (outcomes.map (·.good.length))
    unresolvedErrors := total (outcomes.map (·.unresolvedErrors.length))
    topIssues := topOf (·.count) (issueGroups issues)
    topFiles := topOf (·.issues) (ranking outcomes) }

/-- The report on a list of outcomes, of a run that was interrupted or not. -/
def ofOutcomes (outcomes : List Outcome) (interrupted : Bool) : Report :=
  let outcomes := outcomes.mergeSort outcomeLe
  let changes := tally ((outcomes.flatMap (·.changes)).map (·.rule))
  { filesChecked := outcomes.length
    filesFixed := (outcomes.filter (·.written)).length
    totalChanges := total (changes.map (·.2))
    changesByType := changes
    files := outcomes.map ofOutcome
    summary := summarise outcomes
    interrupted }

end JsxLint.Report
