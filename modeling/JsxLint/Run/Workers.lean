import JsxLint.Run.Project

/-!
# Workers

The files of a project can be worked on by several workers. Each works on a file of its own, step by
step, and the steps of different workers come in any order. A step reads or changes the file tree
once; an analysis looks at nothing but its text, so it is no step of its own. Files are taken up in
their order, and the outcomes are collected as the workers get done.

* `Phase`: how far the work on a file has come;
* `Engine.proceed`: the next step of the work on a file;
* `Pool`: the workers, with the files that none of them has taken up and the outcomes so far;
* `Pool.Step`: what can happen next.
-/

namespace JsxLint

/-- How far the work on a file has come. -/
inductive Phase
  /-- The file was taken up. -/
  | started
  /-- It was analysed, and has to get a repaired text. -/
  | repaired (o : Outcome) (text : String)
  /-- An empty temporary file was made beside it. -/
  | created (o : Outcome) (text : String) (temporary : RealPath)
  /-- The temporary file has the repaired text. -/
  | filled (o : Outcome) (text : String) (temporary : RealPath)
  /-- It has the mode of the file as well. -/
  | moded (o : Outcome) (temporary : RealPath)
  /-- The work is done. -/
  | done (o : Outcome)

/-- The temporary file that there is in a phase. -/
def Phase.temporary? : Phase → Option RealPath
  | .created _ _ temporary => some temporary
  | .filled _ _ temporary => some temporary
  | .moded _ temporary => some temporary
  | _ => none

namespace Files

/-- Where a temporary file with a mark is made for the file that a path names, or why that fails. -/
def temporaryFor (f : Files) (p : Path) (mark : String) (fault : WriteStep → Option String) :
    Except String RealPath :=
  match f.locateEntry p with
  | .error e => .error (e.message p)
  | .ok place =>
    match f.createFault p place.dropLast fault with
    | some message => .error message
    | none => .ok (place.dropLast ++ [temporaryNameWith mark p.name])

/-- The mode that a new file takes over from the file that a path leads to, or why that fails. -/
def modeFor (f : Files) (p : Path) (fault : WriteStep → Option String) : Except String Nat :=
  match fault .copyMode, f.find p with
  | some message, _ => .error message
  | none, .error e => .error (e.message p)
  | none, .ok (_, .file _ mode) => .ok mode
  | none, .ok _ => .ok temporaryMode

/-- The file tree in which a temporary file took the place of the file that a path names, or why
that fails. -/
def moveTo (f : Files) (p : Path) (temporary : RealPath) (fault : WriteStep → Option String) :
    Except String Files :=
  match fault .rename, f.locateEntry p, f.get? temporary with
  | some message, _, _ => .error message
  | none, .error e, _ => .error (e.message p)
  | none, .ok _, none => .error (FileError.missing.message p)
  | none, .ok place, some entry => .ok ((f.erase temporary).put place entry)

end Files

namespace Engine

/-- The outcome of a file whose repaired text cannot be put in its place. -/
def unsaved (o : Outcome) (message : String) : Phase :=
  .done { o.abandon (.notWritten message) with writeError := some message }

/-- The next step of the work on a file. A temporary file gets the mark; when there is such a file
already, nothing happens and another mark has to be tried. -/
def proceed (e : Engine) (fault : Files.WriteStep → Option String) (job : Job) (mark : String)
    (s : State) : Phase → State × Phase
  | .started =>
    match readText s.files job.path with
    | .error message => (s, .done (.unread job.shown ("could not read file: " ++ message)))
    | .ok text =>
      let (o, calls) := e.analyse job.shown text none s.calls
      (⟨s.files, calls⟩, match o.output with
        | none => .done o
        | some text => .repaired o text)
  | .repaired o text =>
    match s.files.temporaryFor job.path mark fault with
    | .error message => (s, unsaved o message)
    | .ok temporary =>
      if (s.files.get? temporary).isSome then (s, .repaired o text)
      else ({ s with files := s.files.put temporary (.file [] Files.temporaryMode) },
        .created o text temporary)
  | .created o text temporary =>
    match fault .fill with
    | some message => ({ s with files := s.files.erase temporary }, unsaved o message)
    | none =>
      let entry := Entry.file (Utf8.encode text) Files.temporaryMode
      ({ s with files := s.files.put temporary entry }, .filled o text temporary)
  | .filled o text temporary =>
    match s.files.modeFor job.path fault with
    | .error message => ({ s with files := s.files.erase temporary }, unsaved o message)
    | .ok mode =>
      ({ s with files := s.files.put temporary (.file (Utf8.encode text) mode) },
        .moded o temporary)
  | .moded o temporary =>
    match s.files.moveTo job.path temporary fault with
    | .error message => ({ s with files := s.files.erase temporary }, unsaved o message)
    | .ok files => ({ s with files }, .done { o with written := true, state := .written })
  | .done o => (s, .done o)

end Engine

/-- Workers and what they share. -/
structure Pool where
  state : State
  /-- The files that no worker has taken up, in order. -/
  waiting : List Job
  /-- The files that are being worked on. -/
  running : List (Job × Phase)
  /-- The outcomes so far, in the order in which they came. -/
  completed : List Outcome

namespace Pool

/-- The workers before a run. -/
def start (f : Files) (jobs : List Job) : Pool :=
  ⟨⟨f, .none⟩, jobs, [], []⟩

/-- Whether all files were worked on. -/
def IsDone (p : Pool) : Prop :=
  p.waiting = [] ∧ p.running = []

/-- What can happen next when there are at most so many workers: a free one takes up the next file,
one goes on with its file, or one is done with it. -/
inductive Step (e : Engine) (fault : Files.WriteStep → Option String) (workers : Nat) :
    Pool → Pool → Prop
  | takeUp {s : State} {job : Job} {waiting : List Job} {running : List (Job × Phase)}
      {completed : List Outcome} (h : running.length < workers) :
      Step e fault workers ⟨s, job :: waiting, running, completed⟩
        ⟨s, waiting, running ++ [(job, .started)], completed⟩
  | goOn {s : State} {job : Job} {phase : Phase} {waiting : List Job}
      {before after : List (Job × Phase)} {completed : List Outcome} (mark : String) :
      Step e fault workers ⟨s, waiting, before ++ (job, phase) :: after, completed⟩
        ⟨(e.proceed fault job mark s phase).1, waiting,
          before ++ (job, (e.proceed fault job mark s phase).2) :: after, completed⟩
  | complete {s : State} {job : Job} {o : Outcome} {waiting : List Job}
      {before after : List (Job × Phase)} {completed : List Outcome} :
      Step e fault workers ⟨s, waiting, before ++ (job, .done o) :: after, completed⟩
        ⟨s, waiting, before ++ after, completed ++ [o]⟩

end Pool
end JsxLint
