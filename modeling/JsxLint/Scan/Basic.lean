import JsxLint.Files.Resolution
import JsxLint.Ignore.Pattern
import JsxLint.Settings.Basic
import JsxLint.Text.Letter

/-!
# What a scan looks for

A scan takes files by their suffix, and leaves out what has an ignored name on its way from the
root, what the root's list of ignored paths says, and files that are too large.

* `Names`: paths below the root;
* `Selection`: what is taken and what is left out;
* `Selection.leavesOut`, `Selection.takes`: the decisions on a path;
* `ScanError`: why there is nothing to scan.
-/

namespace JsxLint

/-- A path below the root: the names on the way. -/
abbrev Names := List String

/-- What a scan takes and what it leaves out. -/
structure Selection where
  /-- The suffixes of the files that are taken, in lower case. -/
  suffixes : List String
  ignoredNames : List String
  maxFileSize : Int
  /-- The decision of the list of ignored paths on the text of a path. -/
  isIgnored : String → Bool

/-- Whether a path leads through a link to a name that is too long. -/
def Files.isBarred (f : Files) (p : Path) : Bool :=
  match f.find p with
  | .error .nameTooLong => true
  | _ => false

namespace Selection

/-- The text of a path below the root, with a slash at the end of a directory's. -/
def text (names : Names) (isDirectory : Bool) : String :=
  Text.joined "/" names ++ if isDirectory then "/" else ""

/-- Whether a path leads to a file that is too large. -/
def isTooLarge (s : Selection) (f : Files) (p : Path) : Bool :=
  (f.size? p).any fun size => decide (s.maxFileSize < size)

/-- The path that names below a root lead to. -/
def below (root : Path) (names : Names) : Path :=
  ⟨root.anchor, root.names ++ names⟩

/-- Whether a path below the root is left out. One that is barred is not, unless by its names. -/
def leavesOut (s : Selection) (f : Files) (root : Path) (names : Names) : Bool :=
  names.any s.ignoredNames.contains ||
    !f.isBarred (below root names) &&
      (s.isIgnored (text names (f.isDirectory (below root names))) ||
        s.isTooLarge f (below root names))

/-- Whether a path below the root, which is no directory, is taken. -/
def takes (s : Selection) (f : Files) (root : Path) (names : Names) : Bool :=
  s.suffixes.contains (Letter.lower (below root names).suffix) && !s.leavesOut f root names

end Selection

/-- Why there is nothing to scan. -/
inductive ScanError
  /-- The root is a link that leads back to itself. -/
  | linkLoop (path : Path)
  | missing (root : Path)
  | notADirectory (root : Path)
  /-- The root, its list of ignored paths or a file below it cannot be looked up. -/
  | barred (e : FileError)
  /-- The list of ignored paths is no text. -/
  | notText (defect : Utf8.Defect)
  /-- The list of ignored paths has a pattern that means nothing. -/
  | badPattern (error : Ignore.PatternError)
  deriving Repr

/-- The words for a scan that cannot be made. -/
def ScanError.message : ScanError → String
  | .linkLoop path => "Symlink loop from " ++ Text.quote path.toString.toList
  | .missing root => "Scan root does not exist: " ++ root.toString
  | .notADirectory root => "Scan root is not a directory: " ++ root.toString
  | .barred e => e.words
  | .notText defect => defect.message
  | .badPattern .invalid => "Invalid git pattern"
  | .badPattern .reversedRange => "bad character range"

end JsxLint
