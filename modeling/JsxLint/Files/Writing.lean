import JsxLint.Files.Lookup

/-!
# Writing

* `Files.write`: give a file its bytes, new or not;
* `Files.makeDirectories`: make a directory and those above it that are missing;
* `WriteStep`, `Files.replace`: put new bytes in place of a file, all or nothing.
-/

namespace JsxLint.Files

/-! ### Plain writing -/

/-- The mode of a new file. -/
def newMode : Nat := 0o644

/-- Give the file that a path leads to its bytes. A file that was there keeps its mode, which has to
allow writing. -/
def write (f : Files) (p : Path) (content : Bytes) : Except FileError Files :=
  (f.locate p).bind fun q =>
    match f.get? q with
    | none =>
      if f.locked.contains q.dropLast then .error .denied
      else .ok (f.put q (.file content newMode))
    | some (.file _ mode) =>
      if isWritable mode then .ok (f.put q (.file content mode)) else .error .denied
    | some _ => .error .isDirectory

/-- The real path of a name in the directory that a path names, the name not being followed. -/
def locateEntry (f : Files) (p : Path) : Except FileError RealPath :=
  if p.hasNull then .error .nullCharacter
  else (f.locate p.parent).bind fun directory =>
    if f.isDirectoryAt directory then
      if isTooLong p.name then .error .nameTooLong else .ok (directory ++ [p.name])
    else if (f.get? directory).isSome then .error .notDirectory
    else .error .missing

/-- Make one directory. -/
def makeDirectory (f : Files) (p : Path) : Except FileError Files :=
  if p.names.isEmpty || p.name = "." || p.name = ".." then
    (f.find p).bind fun _ => .error .exists
  else if pathLimit < p.toString.utf8ByteSize then .error .nameTooLong
  else (f.locateEntry p).bind fun q =>
    if (f.get? q).isSome then .error .exists
    else if f.locked.contains q.dropLast then .error .denied
    else .ok (f.put q .directory)

/-- Make a directory unless it is there. -/
def ensureDirectory (f : Files) (p : Path) : Except FileError Files :=
  match f.makeDirectory p with
  | .ok f => .ok f
  | .error e => if e ≠ .missing && f.isDirectory p then .ok f else .error e

/-- A file tree that was worked on, and what stopped the work before its end. -/
structure Attempt where
  files : Files
  error : Option FileError

/-- Work on a file tree, unless that fails. -/
def attempt (f : Files) (result : Except FileError Files) : Attempt :=
  match result with
  | .ok f => ⟨f, none⟩
  | .error e => ⟨f, some e⟩

/-- Make a directory, and before it those above it that are missing, of which there are at most
`above`. -/
def makeDirectoriesFrom (f : Files) (p : Path) : Nat → Attempt
  | 0 => f.attempt (f.ensureDirectory p)
  | above + 1 =>
    match f.ensureDirectory p with
    | .error .missing =>
      let a := f.makeDirectoriesFrom p.parent above
      if a.error.isSome then a else a.files.attempt (a.files.ensureDirectory p)
    | result => f.attempt result

/-- Make a directory and those above it that are missing. -/
def makeDirectories (f : Files) (p : Path) : Attempt :=
  f.makeDirectoriesFrom p p.names.length

/-! ### Replacing -/

/-- The steps of putting new bytes in place of a file. -/
inductive WriteStep
  /-- An empty file with a name of its own is made beside the file. -/
  | create
  /-- It gets the bytes. -/
  | fill
  /-- It gets the mode of the file. -/
  | copyMode
  /-- It takes the place of the file. -/
  | rename
  deriving DecidableEq, Repr

/-- The length of the longest name in a directory. -/
def longestName (f : Files) (directory : RealPath) : Nat :=
  (f.names directory).foldl (fun n name => max n name.length) 0

/-- The name of a temporary file for a name, with a mark that makes it one of its own. -/
def temporaryNameWith (mark name : String) : String :=
  "." ++ name ++ "." ++ mark ++ ".tmp"

/-- A name for a temporary file; it is longer than every name of the directory, so it is none of
them. -/
def temporaryName (f : Files) (directory : RealPath) (name : String) : String :=
  temporaryNameWith (String.ofList (List.replicate (f.longestName directory) 'x')) name

/-- A mark of the usual length. -/
def usualMark : String := "xxxxxxxx"

/-- The mode of a temporary file. -/
def temporaryMode : Nat := 0o600

/-- What replacing a file comes to: the file tree afterwards, and why it failed if it did. -/
structure Replacement where
  files : Files
  error : Option String

/-- Why no temporary file can be made beside a file in a directory, if it cannot: its name may be
too long, though that of the file is not, or the directory may be locked. -/
def createFault (f : Files) (p : Path) (directory : RealPath) (fault : WriteStep → Option String) :
    Option String :=
  let name := temporaryNameWith usualMark p.name
  let failed : FileError → Option String := fun e => some (e.message (p.parent.child name))
  (fault .create).or <|
    if isTooLong name then failed .nameTooLong
    else if f.locked.contains directory then failed .denied
    else none

/-- Put new bytes in place of the file that a path names, given which steps fail and why. A link is
replaced, not followed, and a failure leaves no temporary file. -/
def replace (f : Files) (p : Path) (content : Bytes) (fault : WriteStep → Option String) :
    Replacement :=
  match f.locateEntry p, f.find p with
  | .error e, _ => ⟨f, some (e.message p)⟩
  | _, .error e => ⟨f, some (e.message p)⟩
  | .ok place, .ok (_, entry) =>
    let temporary := place.dropLast ++ [f.temporaryName place.dropLast p.name]
    match f.createFault p place.dropLast fault with
    | some message => ⟨f, some message⟩
    | none =>
      let made := f.put temporary (.file [] temporaryMode)
      match fault .fill with
      | some message => ⟨made.erase temporary, some message⟩
      | none =>
        let filled := made.put temporary (.file content temporaryMode)
        match fault .copyMode with
        | some message => ⟨filled.erase temporary, some message⟩
        | none =>
          let mode := match entry with
            | .file _ mode => mode
            | _ => temporaryMode
          let moded := filled.put temporary (.file content mode)
          match fault .rename with
          | some message => ⟨moded.erase temporary, some message⟩
          | none => ⟨(moded.erase temporary).put place (.file content mode), none⟩

end JsxLint.Files
