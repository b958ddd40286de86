import JsxLint.Files.Basic
import JsxLint.Text.Quoted

/-!
# Looking up paths

A path leads through directories and symbolic links to a real path. Looking it up follows at most
`linkLimit` links, and no name on the way may be longer than `nameLimit`.

* `FileError`: why a path leads nowhere;
* `Files.locate`, `Files.find`: the real path that a path leads to, and what stands there;
* `Files.content`: the bytes of a file.
-/

namespace JsxLint

/-- Why something cannot be done with a path. -/
inductive FileError
  | missing
  | denied
  | exists
  | notDirectory
  | isDirectory
  | nameTooLong
  | linkLoop
  /-- The path has a null character, so it can stand for nothing. -/
  | nullCharacter
  deriving DecidableEq, Repr

namespace FileError

/-- The number of an error, if it has one. -/
def number? : FileError → Option Nat
  | .missing => some 2
  | .denied => some 13
  | .exists => some 17
  | .notDirectory => some 20
  | .isDirectory => some 21
  | .nameTooLong => some 36
  | .linkLoop => some 40
  | .nullCharacter => none

/-- The words for an error. -/
def words : FileError → String
  | .missing => "No such file or directory"
  | .denied => "Permission denied"
  | .exists => "File exists"
  | .notDirectory => "Not a directory"
  | .isDirectory => "Is a directory"
  | .nameTooLong => "File name too long"
  | .linkLoop => "Too many levels of symbolic links"
  | .nullCharacter => "embedded null byte"

/-- The message about a path. -/
def message (e : FileError) (p : Path) : String :=
  match e.number? with
  | some n =>
    "[Errno " ++ toString n ++ "] " ++ e.words ++ ": " ++ Text.quote p.toString.toList
  | none => e.words

end FileError

namespace Files

/-! ### Following links -/

/-- How many links a path may lead through. -/
def linkLimit : Nat := 40

/-- How many bytes a name may have. -/
def nameLimit : Nat := 255

/-- How many bytes a path may have. -/
def pathLimit : Nat := 4095

/-- Whether no file can have the name. -/
def isTooLong (name : String) : Bool :=
  nameLimit < name.utf8ByteSize

/-- The names in the target of a link. A slash at its end asks for a directory, like a dot. -/
def targetNames (target : String) : List String :=
  let names := (Text.splitOn '/' target).filter (· ≠ "")
  if target.toList.getLast? = some '/' then names ++ ["."] else names

/-- Where the target of a link in a directory starts from. -/
def targetStart (directory : RealPath) (target : String) : RealPath :=
  if target.toList.head? = some '/' then [] else directory

/-- Where following names comes to. -/
inductive Stop
  /-- All names are used up. Something stands here, or nothing, in a directory. -/
  | arrived (p : RealPath)
  | failed (e : FileError)
  /-- A link in a directory, and the names behind it. -/
  | atLink (directory : RealPath) (target : String) (rest : List String)

/-- Follow names from a real path up to the first link. -/
def advance (f : Files) (here : RealPath) : List String → Stop
  | [] => .arrived here
  | name :: rest =>
    if !f.isDirectoryAt here then .failed .notDirectory
    else if name = "." then f.advance here rest
    else if name = ".." then f.advance here.dropLast rest
    else if isTooLong name then .failed .nameTooLong
    else match f.get? (here ++ [name]) with
      | some (.link target) => .atLink here target rest
      | some _ => f.advance (here ++ [name]) rest
      | none => if rest.isEmpty then .arrived (here ++ [name]) else .failed .missing

/-- Follow names from a real path through at most the given number of links. -/
def follow (f : Files) (links : Nat) (here : RealPath) (names : List String) :
    Except FileError RealPath :=
  match f.advance here names with
  | .arrived p => .ok p
  | .failed e => .error e
  | .atLink directory target rest =>
    match links with
    | 0 => .error .linkLoop
    | links + 1 => f.follow links (targetStart directory target) (targetNames target ++ rest)

/-- Where a path starts from. -/
def start (f : Files) (p : Path) : RealPath :=
  if p.isAbsolute then [] else f.working

/-- The real path that a path leads to. Nothing needs to stand there, but it is in a directory. -/
def locate (f : Files) (p : Path) : Except FileError RealPath :=
  if p.hasNull then .error .nullCharacter
  else if pathLimit < p.toString.utf8ByteSize then .error .nameTooLong
  else f.follow linkLimit (f.start p) p.names

/-- The real path that a path leads to, and what stands there. -/
def find (f : Files) (p : Path) : Except FileError (RealPath × Entry) :=
  (f.locate p).bind fun q =>
    match f.get? q with
    | some e => .ok (q, e)
    | none => .error .missing

/-- Whether a path leads to a directory. -/
def isDirectory (f : Files) (p : Path) : Bool :=
  match f.find p with
  | .ok (_, .directory) => true
  | _ => false

/-- The size of the file that a path leads to. -/
def size? (f : Files) (p : Path) : Option Nat :=
  match f.find p with
  | .ok (_, .file content _) => some content.length
  | _ => none

/-- Whether the owner of a file may read it. -/
def isReadable (mode : Nat) : Bool :=
  mode.testBit 8

/-- Whether the owner of a file may write it. -/
def isWritable (mode : Nat) : Bool :=
  mode.testBit 7

/-- The bytes of the file that a path leads to. -/
def content (f : Files) (p : Path) : Except FileError Bytes :=
  match f.find p with
  | .ok (_, .file content mode) => if isReadable mode then .ok content else .error .denied
  | .ok _ => .error .isDirectory
  | .error e => .error e

/-- A real path as a path. -/
def absolute (p : RealPath) : Path :=
  ⟨"/", p⟩

end Files
end JsxLint
