import JsxLint.Report.Aggregate
import JsxLint.Run.File
import JsxLint.Scan.Root

/-!
# Working on a project

All files that a scan finds are worked on one after the other; an interruption ends that before
the file that it strikes. The report is on the files that were worked on.

* `RunFaults`: what goes wrong apart from the analysis;
* `Engine.workAll`: work on files;
* `Settings.run`: the report on a project;
* `Files.writeReport`: the report's file.
-/

namespace JsxLint

/-- What goes wrong during a run, apart from the analysis. -/
structure RunFaults where
  /-- Whether a step of replacing a file fails. -/
  write : Files.WriteStep → Option String
  /-- The number of the file at which the run is interrupted, counted from one. -/
  interrupt : Option Nat

/-- Nothing goes wrong. -/
def RunFaults.none : RunFaults :=
  ⟨fun _ => .none, .none⟩

instance : Inhabited RunFaults := ⟨.none⟩

/-- What work on files comes to. -/
structure Progressed where
  outcomes : List Outcome
  state : State
  isInterrupted : Bool

namespace Engine

/-- Work on files, of which the first one has the given number. -/
def workAll (e : Engine) (faults : RunFaults) (number : Nat) (s : State) : List Job → Progressed
  | [] => ⟨[], s, false⟩
  | job :: rest =>
    if faults.interrupt = some number then ⟨[], s, true⟩
    else
      let (o, s) := e.work faults.write s job
      let p := e.workAll faults (number + 1) s rest
      { p with outcomes := o :: p.outcomes }

end Engine

/-- The jobs that a scan found. -/
def Settings.Scan.jobs (scan : Settings.Scan) : List Job :=
  scan.files.map fun names => .below (some scan.root) (Selection.below scan.root names)

/-- The report on a project and the file tree afterwards. -/
def Settings.run (s : Settings) (e : Engine) (faults : RunFaults) (f : Files) :
    Except ScanError (Report × Files) :=
  (s.scan f s.root).map fun scan =>
    let p := e.workAll faults 1 ⟨f, .none⟩ scan.jobs
    (.ofOutcomes p.outcomes p.isInterrupted, p.state.files)

/-- Write a report on a run at the given time to a path; directories above it are made. -/
def Files.writeReport (f : Files) (r : Report) (p : Path) (timestamp : String) : Attempt :=
  let a := f.makeDirectories p.parent
  if a.error.isSome then a
  else a.files.attempt (a.files.write p (Utf8.encode (r.fileText timestamp)))

end JsxLint
