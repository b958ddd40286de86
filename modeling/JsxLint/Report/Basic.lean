import JsxLint.Rule.Finding

/-!
# Reports

What a run over many files comes to: a part for every file, and totals.

* `ErrorRecord`, `FileReport`: the part of a file;
* `IssueGroup`, `FileRank`, `Summary`: the totals;
* `Report`: all of it; `Report.exitStatus` says whether errors are left;
* `Report.json`: its JSON value.
-/

namespace JsxLint

/-- At what point of its analysis something went wrong with a file. -/
inductive Stage
  | parse
  | detect
  | fix
  | analyze
  | write
  deriving DecidableEq, Repr

/-- The word for a stage. -/
def Stage.word : Stage → String
  | .parse => "parse"
  | .detect => "detect"
  | .fix => "fix"
  | .analyze => "analyze"
  | .write => "write"

/-- Something that went wrong with a file. -/
structure ErrorRecord where
  stage : Stage
  message : String
  rule : Option String
  line : Option Int
  deriving DecidableEq, Repr

/-- The part of a report on one file. -/
structure FileReport where
  file : String
  changes : List Change
  findings : List Finding
  parseFailed : Bool
  written : Bool
  errors : List ErrorRecord
  deriving DecidableEq, Repr

/-- Whether a file was not analysed. -/
def FileReport.isSkipped (f : FileReport) : Bool :=
  f.parseFailed || f.errors.any (·.stage == .analyze)

/-- The issues of one rule over all files. -/
structure IssueGroup where
  rule : String
  name : String
  category : Category
  severity : Severity
  message : String
  hint : Option String
  count : Nat
  /-- The files with such an issue. -/
  files : List String
  deriving DecidableEq, Repr

/-- A file and the number of its issues. -/
structure FileRank where
  file : String
  issues : Nat
  deriving DecidableEq, Repr

/-- The totals of a report. -/
structure Summary where
  bySeverity : List (Severity × Nat)
  /-- Issues only. -/
  byCategory : List (Category × Nat)
  /-- In the order in which the rules first occur. -/
  byRule : List (String × Nat)
  totalIssues : Nat
  totalGood : Nat
  unresolvedErrors : Nat
  /-- The rules with most issues. -/
  topIssues : List IssueGroup
  /-- The files with most issues. -/
  topFiles : List FileRank
  deriving DecidableEq, Repr

/-- What a run comes to. -/
structure Report where
  filesChecked : Nat
  filesFixed : Nat
  totalChanges : Nat
  /-- The number of changes of every rule that made some. -/
  changesByType : List (String × Nat)
  files : List FileReport
  summary : Summary
  interrupted : Bool
  deriving DecidableEq, Repr

namespace Report

/-- The status with which a finished run ends: 1 when an error is left unresolved. -/
def exitStatus (r : Report) : Nat :=
  if r.summary.unresolvedErrors = 0 then 0 else 1

/-! ### JSON -/

/-- Numbers under texts. -/
def counts (entries : List (String × Nat)) : Json :=
  .obj (entries.map fun (key, n) => (key, .nat n))

/-- The value of something that went wrong. -/
def errorJson (e : ErrorRecord) : Json :=
  .obj <| Json.present [("stage", some (.str e.stage.word)), ("message", some (.str e.message)),
    ("rule", e.rule.map .str), ("line", e.line.map .int)]

/-- The value of a finding. -/
def findingJson (f : Finding) : Json :=
  .obj <| Json.present [("rule", some (.str f.rule)), ("severity", some (.str f.severity.word)),
    ("category", some (.str f.category.word)), ("message", some (.str f.message)),
    ("line", some (.int f.line)), ("column", some (.int f.column)), ("hint", f.hint.map .str),
    ("detail", f.detail.map .str)]

/-- The value of the part on one file. -/
def fileJson (f : FileReport) : Json :=
  .obj [("file", .str f.file), ("changes", .arr (f.changes.map Change.record)),
    ("findings", .arr (f.findings.map findingJson)), ("parseFailed", .bool f.parseFailed),
    ("written", .bool f.written), ("errors", .arr (f.errors.map errorJson))]

/-- The value of the issues of one rule. -/
def groupJson (g : IssueGroup) : Json :=
  .obj <| Json.present [("rule", some (.str g.rule)), ("name", some (.str g.name)),
    ("category", some (.str g.category.word)), ("severity", some (.str g.severity.word)),
    ("message", some (.str g.message)), ("hint", g.hint.map .str), ("count", some (.nat g.count)),
    ("files", some (.arr (g.files.map .str)))]

/-- The value of a file's rank. -/
def rankJson (r : FileRank) : Json :=
  .obj [("file", .str r.file), ("issues", .nat r.issues)]

/-- The value of the totals. -/
def summaryJson (s : Summary) : Json :=
  .obj [("bySeverity", counts (s.bySeverity.map fun (severity, n) => (severity.word, n))),
    ("byCategory", counts (s.byCategory.map fun (category, n) => (category.word, n))),
    ("byRule", counts s.byRule), ("totalIssues", .nat s.totalIssues),
    ("totalGood", .nat s.totalGood), ("unresolvedErrors", .nat s.unresolvedErrors),
    ("topIssues", .arr (s.topIssues.map groupJson)), ("topFiles", .arr (s.topFiles.map rankJson))]

/-- The entries of a report's value, the time of the run aside. -/
def entries (r : Report) : List (String × Json) :=
  [("filesChecked", .nat r.filesChecked), ("filesFixed", .nat r.filesFixed),
    ("totalChanges", .nat r.totalChanges), ("changesByType", counts r.changesByType),
    ("files", .arr (r.files.map fileJson)), ("summary", summaryJson r.summary),
    ("interrupted", .bool r.interrupted)]

/-- The value of a report on a run at the given time. -/
def json (r : Report) (timestamp : String) : Json :=
  .obj (("timestamp", .str timestamp) :: r.entries)

/-- The text of the report's file. -/
def fileText (r : Report) (timestamp : String) : String :=
  (r.json timestamp).pretty ++ "\n"

end Report
end JsxLint
