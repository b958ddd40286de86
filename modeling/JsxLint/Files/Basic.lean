import JsxLint.Path
import JsxLint.Text.Utf8

/-!
# File trees

A file tree says what stands at every real path: a directory, a file or a symbolic link. A real
path has the names from the top on, none of which is a link, so it tells directories apart.

* `RealPath`, `Entry`, `Files`;
* `Files.get?`: what stands at a real path;
* `Files.put`, `Files.erase`: file trees with one entry more or less;
* `Files.names`: what is in a directory.
-/

namespace JsxLint

/-- The names from the top directory to what stands below it. -/
abbrev RealPath := List String

/-- What stands at a real path. -/
inductive Entry
  | directory
  | file (content : Bytes) (mode : Nat)
  /-- A symbolic link with its target as it is written. -/
  | link (target : String)
  deriving DecidableEq, Repr, Inhabited

/-- A file tree and the directory that relative paths start from. -/
structure Files where
  entries : List (RealPath × Entry)
  working : RealPath
  /-- The directories in which nothing can be made or replaced. -/
  locked : List RealPath
  deriving Repr, Inhabited

namespace Files

/-- What stands at a real path; the top is a directory. -/
def get? (f : Files) (p : RealPath) : Option Entry :=
  if p = [] then some .directory else f.entries.lookup p

/-- Whether a directory stands at a real path. -/
def isDirectoryAt (f : Files) (p : RealPath) : Bool :=
  match f.get? p with
  | some .directory => true
  | _ => false

/-- The real paths of the directories. -/
def directories (f : Files) : List RealPath :=
  ([] :: f.entries.map (·.1)).filter f.isDirectoryAt

/-- The real paths of the symbolic links. -/
def links (f : Files) : List RealPath :=
  f.entries.filterMap fun
    | (p, .link _) => some p
    | _ => none

/-- The names in a directory. -/
def names (f : Files) (directory : RealPath) : List String :=
  f.entries.filterMap fun (p, _) => if p.dropLast = directory then p.getLast? else none

/-! ### Changing entries -/

/-- An entry in place of what stands at a real path; a new one comes last. -/
def putIn (p : RealPath) (e : Entry) : List (RealPath × Entry) → List (RealPath × Entry)
  | [] => [(p, e)]
  | (q, d) :: rest => if q = p then (p, e) :: rest else (q, d) :: putIn p e rest

/-- The file tree with an entry at a real path. -/
def put (f : Files) (p : RealPath) (e : Entry) : Files :=
  { f with entries := putIn p e f.entries }

/-- The file tree without what stands at a real path. -/
def erase (f : Files) (p : RealPath) : Files :=
  { f with entries := f.entries.filter fun (q, _) => q ≠ p }

end Files
end JsxLint
