import JsxLint.Report.Basic
import JsxLint.Text.ControlSequence

/-!
# Reports on the console

The summary of a run that people read: totals, what was left out, the commonest issues, what was
fixed, and what is left. Names of files may have control sequences, which are not written.

* `Report.console`: the text of the summary.
-/

namespace JsxLint.Report

/-- The sign in front of a severity. -/
def icon : Severity → String
  | .error => "❌"
  | .warning => "⚠️"
  | .info => "ℹ️"
  | .good => ""

/-- The lines with the totals. -/
def totalLines (r : Report) : List String :=
  ["\n📊 JSX Best Practices Report", "=====================================\n",
    "📁 Files analyzed: " ++ toString r.filesChecked,
    "⚠️  Total issues: " ++ toString r.summary.totalIssues,
    "✅ Good practices: " ++ toString r.summary.totalGood]

/-- The lines on files that were not analysed. -/
def skippedLines (r : Report) : List String :=
  let skipped := r.files.filter (·.isSkipped)
  if skipped.isEmpty then []
  else ("⏭️  Skipped (parse or analysis errors): " ++ toString skipped.length) ::
    skipped.map fun f => "   - " ++ f.file

/-- The lines on the issues of every severity. -/
def severityLines (r : Report) : List String :=
  if r.summary.totalIssues = 0 then []
  else
    let shown := r.summary.bySeverity.filter fun (severity, n) => severity != .good && n > 0
    "\n📈 Issues by severity:" :: shown.map fun (severity, n) =>
      "  " ++ icon severity ++ " " ++ severity.word ++ ": " ++ toString n

/-- The lines on the issues of one rule, which comes at the given place. -/
def groupLines (g : IssueGroup) (place : Nat) : List String :=
  ["  " ++ toString place ++ ". " ++ g.name ++ " (" ++ toString g.count ++ " occurrences)",
    "     " ++ g.message] ++
    (g.hint.filter (· != "")).toList.map ("     💡 Fix: " ++ ·)

/-- The lines on the commonest issues. -/
def topLines (r : Report) : List String :=
  if r.summary.topIssues.isEmpty then []
  else "\n🔝 Top issues:" :: (r.summary.topIssues.zipIdx 1).flatMap fun (g, i) => groupLines g i

/-- A text that may be missing or empty, or else another one that may be missing. -/
def textOr (text otherwise : Option String) : String :=
  ((text.filter (· != "")).or otherwise).getD "None"

/-- The line on one change. -/
def changeLine (c : Change) : String :=
  match c.after.filter (· != "") with
  | some after => "  - " ++ c.rule ++ ": " ++ textOr c.before c.action ++ " → " ++ after
  | none => "  - " ++ c.rule ++ ": " ++ textOr none c.action

/-- The lines on what was fixed. -/
def fixLines (r : Report) : List String :=
  let fixed := r.files.filter (·.written)
  fixed.flatMap (fun f => ("\n✓ Fixed " ++ f.file) :: f.changes.map changeLine) ++
    ["\n" ++ String.ofList (List.replicate 50 '='), "Summary:",
      "  Files fixed: " ++ toString r.filesFixed, "  Total changes: " ++ toString r.totalChanges] ++
    (if r.changesByType.isEmpty then []
     else "\nChanges by type:" :: r.changesByType.map fun (rule, n) =>
      "  " ++ rule ++ ": " ++ toString n)

/-- The lines on what is left and where the report is. -/
def closingLines (r : Report) (reportPath : Option String) : List String :=
  (if r.summary.unresolvedErrors = 0 then []
   else ["\n❌ Unresolved errors: " ++ toString r.summary.unresolvedErrors]) ++
    (if r.interrupted then ["\n⚠️  Run interrupted; report is partial"] else []) ++
    reportPath.toList.map ("\nReport saved to: " ++ ·)

/-- The lines of the summary of a run, which fixed what it could or only checked. -/
def consoleLines (r : Report) (fix : Bool) (reportPath : Option String) : List String :=
  r.totalLines ++ r.skippedLines ++ r.severityLines ++ r.topLines ++
    (if fix then r.fixLines else []) ++ r.closingLines reportPath

/-- The summary of a run. -/
def console (r : Report) (fix : Bool) (reportPath : Option String) : String :=
  Text.plain (String.join ((r.consoleLines fix reportPath).map (· ++ "\n")))

end JsxLint.Report
