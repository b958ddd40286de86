import JsxLint.Command.Request
import JsxLint.Report.Console
import JsxLint.Run.Project
import JsxLint.Settings.Environment

/-!
# Executing requests

A request is executed on a file tree and ends with what is written, a status and the file tree
afterwards. A run that comes to a report ends with its status, unless the report cannot be written.

* `World`: all that executing a request depends on;
* `Failure`: what breaks a run off;
* `Ending`: how a request ends;
* `Request.execute`: executing a request;
* `execute`: executing a command line.
-/

namespace JsxLint.Command

/-- All that executing a request depends on, apart from the file tree. -/
structure World where
  environment : Environment
  grammar : Grammar
  faults : Faults
  runFaults : RunFaults
  /-- The time of the run. -/
  timestamp : String

/-- What breaks a run off. -/
inductive Failure
  /-- A path of the command line can stand for nothing. -/
  | path (e : FileError)
  | scan (e : ScanError)
  | report (e : FileError)
  deriving Repr

/-- The words for what breaks a run off. -/
def Failure.message : Failure → String
  | .path e => e.words
  | .scan e => e.message
  | .report e => "the report cannot be written: " ++ e.words

/-- How a request ends. -/
structure Ending where
  output : String
  errors : String
  status : Nat
  failure : Option Failure
  files : Files

namespace Ending

/-- A request that writes something and is done. -/
def done (f : Files) (output : String) : Ending :=
  ⟨output, "", 0, none, f⟩

/-- A request that writes what is wrong. -/
def wrong (f : Files) (output errors : String) (status : Nat) : Ending :=
  ⟨output, errors, status, none, f⟩

/-- A request that is broken off. -/
def broken (f : Files) (output : String) (failure : Failure) : Ending :=
  ⟨output, "", 1, some failure, f⟩

end Ending

/-- The status of a run that was interrupted. -/
def interruptedStatus : Nat := 130

/-- The status of a run that came to a report. -/
def statusOf (r : Report) : Nat :=
  if r.interrupted then interruptedStatus else r.exitStatus

/-- The settings of a run: those of the environment with the options on top. -/
def RunOptions.settings (o : RunOptions) (fix : Bool) (environment : Environment) : Settings :=
  let s := Settings.ofEnvironment environment
  { s with
    root := .ofString o.root
    fix
    output := ((o.output.filter (· != "")).map Path.ofString).or s.output
    disabledRules := s.disabledRules ++ o.disabled.filter fun rule => !s.disabledRules.contains rule
    jobs := o.jobs.getD s.jobs }

/-- The line on what is done where. -/
def heading (fix : Bool) (root : Path) : String :=
  Text.plain ("🔍 " ++ (if fix then "Fixing" else "Checking") ++ " JSX/TSX files in: " ++
    root.toString ++ "\n")

/-- Whether a root that cannot be scanned is told on a line of its own. -/
def isTold : ScanError → Bool
  | .missing _ => true
  | .notADirectory _ => true
  | _ => false

/-- How a run ends that cannot be made. -/
def unscanned (f : Files) (output : String) (e : ScanError) : Ending :=
  if isTold e then .wrong f output (Text.plain ("❌ " ++ e.message ++ "\n")) 1
  else .broken f output (.scan e)

/-- How a run ends that came to a report. -/
def reported (s : Settings) (f : Files) (output : String) (r : Report) (timestamp : String) :
    Ending :=
  let a := f.writeReport r s.reportPath timestamp
  match a.error with
  | some e => .broken a.files output (.report e)
  | none =>
    ⟨output ++ r.console s.fix (some s.reportPath.toString), "", statusOf r, none, a.files⟩

/-- Work on a project. -/
def runSettings (w : World) (f : Files) (s : Settings) : Ending :=
  match Rule.enabled s.disabledRules with
  | .error ids => .wrong f "" (Text.plain ("Error: " ++ Rule.unknownMessage ids ++ "\n")) 1
  | .ok rules =>
    match f.resolveRoot s.root with
    | .error e => .broken f "" (.scan e)
    | .ok root =>
      let output := heading s.fix root
      match s.run (.ofSettings s rules w.grammar w.faults) w.runFaults f with
      | .error e => unscanned f output e
      | .ok (r, f) => reported s f output r w.timestamp

/-- A text with blanks up to a width. -/
def padded (width : Nat) (text : String) : String :=
  text ++ String.ofList (List.replicate (width - text.length) ' ')

/-- The line on a rule. -/
def ruleLine (r : Rule) : String :=
  Text.joined " " [padded 22 r.id, padded 11 r.category.word, padded 8 r.severity.word,
    padded 8 (if r.isFixable then "fixable" else "-"), r.message] ++ "\n"

/-- Execute a request. -/
def Request.execute (w : World) (f : Files) : Request → Ending
  | .run fix options => runSettings w f (options.settings fix w.environment)
  | .listRules => .done f (String.join (Rule.all.map ruleLine))
  | .help page => .done f (Page.usage page)

/-- Execute a command line. -/
def execute (w : World) (f : Files) (arguments : List String) : Ending :=
  match Request.ofArguments arguments with
  | .ok request => request.execute w f
  | .error .nullCharacter => .broken f "" (.path .nullCharacter)
  | .error e => .wrong f "" e.text UsageError.status

end JsxLint.Command
