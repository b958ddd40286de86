import JsxLint.Scan.Walk

/-!
# Scanning from a root

The root has to be a directory; a list of ignored paths in it counts for everything below.

* `Files.resolveRoot`, `Files.scanRoot`: what the path of a root stands for;
* `Files.ignoreList`: the decisions of the list of ignored paths in a root;
* `Settings.scan`: the files that settings ask for.
-/

namespace JsxLint

namespace Files

/-- What the path of a root stands for. -/
def resolveRoot (f : Files) (p : Path) : Except ScanError Path :=
  match f.canonical p with
  | .ok root => .ok root
  | .error .linkLoop => .error (.linkLoop (f.resolved p))
  | .error e => .error (.barred e)

/-- What the path of a root stands for, which has to be a directory. -/
def scanRoot (f : Files) (p : Path) : Except ScanError Path :=
  match f.resolveRoot p with
  | .error e => .error e
  | .ok root =>
    match f.find root with
    | .ok (_, .directory) => .ok root
    | .ok _ => .error (.notADirectory root)
    | .error .nameTooLong => .error (.barred .nameTooLong)
    | .error _ => .error (.missing root)

/-- The name of the list of ignored paths. -/
def ignoreListName : String := ".gitignore"

/-- The decisions of the list of ignored paths in a root; one that cannot be read counts as none. -/
def ignoreList (f : Files) (root : Path) : Except ScanError (String → Bool) :=
  match f.content (root.child ignoreListName) with
  | .error .nameTooLong => .error (.barred .nameTooLong)
  | .error _ => .ok fun _ => false
  | .ok bytes =>
    match Utf8.decode? bytes with
    | .error defect => .error (.notText defect)
    | .ok text => ((Ignore.patternsOf text).mapError .badPattern).map Ignore.ignores

end Files

namespace Settings

/-- What settings take and leave out. -/
def selection (s : Settings) (isIgnored : String → Bool) : Selection where
  suffixes := s.extensions.map Letter.lower
  ignoredNames := s.ignoredNames
  maxFileSize := s.maxFileSize
  isIgnored

/-- What a scan comes to. -/
structure Scan where
  root : Path
  /-- The files below the root, in order. -/
  files : List Names
  deriving Repr, DecidableEq

/-- The decisions on ignored paths that settings ask for. -/
def ignored (s : Settings) (f : Files) (root : Path) : Except ScanError (String → Bool) :=
  if s.respectIgnoreFile then f.ignoreList root else .ok fun _ => false

/-- The files below a root that settings ask for. None of them may be barred. -/
def scan (s : Settings) (f : Files) (path : Path) : Except ScanError Scan :=
  match f.scanRoot path with
  | .error e => .error e
  | .ok root =>
    match s.ignored f root with
    | .error e => .error e
    | .ok isIgnored =>
      let files := (s.selection isIgnored).scan f root
      if files.any fun names => f.isBarred (Selection.below root names) then
        .error (.barred .nameTooLong)
      else .ok ⟨root, files⟩

end Settings
end JsxLint
