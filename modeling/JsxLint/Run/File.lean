import JsxLint.Analysis.Rounds
import JsxLint.Files.Writing
import JsxLint.Settings.Basic

/-!
# Working on a file

A file is read, analysed and, when the analysis has a repaired text, replaced by it. What cannot be
read is not analysed, and repairs that cannot be written are taken back.

* `Engine.ofSettings`: the analysis that settings ask for;
* `Job`: a file to work on;
* `State`: the file tree and the calls so far;
* `Engine.work`: the outcome for a file;
* `Engine.workAt`: the same for a path, which may be such that no file can have it.
-/

namespace JsxLint

/-- The analysis that settings ask for. -/
def Engine.ofSettings (s : Settings) (rules : List Rule) (grammar : Grammar) (faults : Faults) :
    Engine where
  rules
  grammar
  faults
  fix := s.fix
  maxPasses := s.maxPasses.val

/-- A file to work on. -/
structure Job where
  path : Path
  /-- What the file is called in its outcome. -/
  shown : String
  deriving DecidableEq, Repr

/-- The job for a path, which is called what it is below the root, if it is. -/
def Job.below (root : Option Path) (path : Path) : Job where
  path
  shown := ((root.bind path.relativeTo?).getD path).toString

/-- What work on files changes. -/
structure State where
  files : Files
  calls : Calls

namespace Engine

/-- The text of the file that a path leads to, or why it has none. -/
def readText (f : Files) (p : Path) : Except String String :=
  match f.content p with
  | .error e => .error (e.message p)
  | .ok bytes => (Utf8.decode? bytes).mapError (·.message)

/-- Put the repaired text of an outcome in place of the file. -/
def save (f : Files) (p : Path) (o : Outcome) (fault : Files.WriteStep → Option String) :
    Outcome × Files :=
  match o.output with
  | none => (o, f)
  | some text =>
    let r := f.replace p (Utf8.encode text) fault
    match r.error with
    | some message => ({ o.abandon (.notWritten message) with writeError := some message }, r.files)
    | none => ({ o with written := true, state := .written }, r.files)

/-- The outcome for a file, and what the work on it changed. -/
def work (e : Engine) (fault : Files.WriteStep → Option String) (s : State) (job : Job) :
    Outcome × State :=
  match readText s.files job.path with
  | .error message => (.unread job.shown ("could not read file: " ++ message), s)
  | .ok text =>
    let (o, calls) := e.analyse job.shown text none s.calls
    let (o, files) := save s.files job.path o fault
    (o, ⟨files, calls⟩)

/-- The outcome for the file at a path, which is called what it is below the root, if it is. -/
def workAt (e : Engine) (fault : Files.WriteStep → Option String) (s : State) (root : Option Path)
    (path : Path) : Except FileError (Outcome × State) :=
  if path.hasNull then .error .nullCharacter else .ok (e.work fault s (.below root path))

end Engine
end JsxLint
