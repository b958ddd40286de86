import JsxLint.Text.Lines

/-!
# Paths

A path is an anchor (nothing, one slash or two slashes) and the names that follow it. Empty names
and single dots are dropped when a path is read, two dots stay.

* `Path.ofString`, `Path.toString`: reading and writing;
* `Path.join`: a path seen from another one;
* `Path.name`, `Path.suffix`, `Path.parent`;
* `Path.le`: the order by anchor and names;
* `Path.relativeTo?`: the rest of a path below another one.
-/

namespace JsxLint

/-- A path in its shortest spelling. -/
structure Path where
  /-- What the path starts with: `""`, `"/"` or `"//"`. -/
  anchor : String
  /-- The names between the slashes. -/
  names : List String
  deriving DecidableEq, Repr, Inhabited

namespace Path

/-- The anchor of a written path: exactly two slashes are kept, more are one. -/
def anchorOf : List Char → String
  | '/' :: '/' :: '/' :: _ => "/"
  | '/' :: '/' :: _ => "//"
  | '/' :: _ => "/"
  | _ => ""

/-- Read a path. -/
def ofString (s : String) : Path where
  anchor := anchorOf s.toList
  names := (Text.splitOn '/' s).filter fun name => name ≠ "" && name ≠ "."

/-- Write a path; the empty one is a dot. -/
def toString (p : Path) : String :=
  if p.anchor = "" && p.names.isEmpty then "." else p.anchor ++ Text.joined "/" p.names

/-- Whether the path starts at the root. -/
def isAbsolute (p : Path) : Bool :=
  p.anchor ≠ ""

/-- Whether a name has a null character, which no file's name has. -/
def hasNull (p : Path) : Bool :=
  p.names.any fun name => name.toList.contains '\x00'

/-- The path `q` seen from `p`. -/
def join (p q : Path) : Path :=
  if q.isAbsolute then q else ⟨p.anchor, p.names ++ q.names⟩

/-- The path of an entry `name` in the directory `p`. -/
def child (p : Path) (name : String) : Path :=
  ⟨p.anchor, p.names ++ [name]⟩

/-- The last name, empty when there is none. -/
def name (p : Path) : String :=
  p.names.getLast?.getD ""

/-- The directory of a path. -/
def parent (p : Path) : Path :=
  ⟨p.anchor, p.names.dropLast⟩

/-- The part of a name from its last dot on, unless that dot is its first or last character. -/
def suffixOf (name : String) : String :=
  let cs := name.toList
  let stem := Text.afterLast '.' cs
  match stem with
  | none => ""
  | some after =>
    if after.isEmpty || after.length + 1 = cs.length then "" else String.ofList ('.' :: after)

/-- The suffix of the last name. -/
def suffix (p : Path) : String :=
  suffixOf p.name

/-- The names in order, the anchor first when there is one. -/
def parts (p : Path) : List String :=
  if p.anchor = "" then p.names else p.anchor :: p.names

/-- The order of paths: by their parts, one after the other. -/
def le (p q : Path) : Bool :=
  !List.lex q.parts p.parts fun a b => decide (a < b)

/-- What follows `base` in the path `p`. -/
def relativeTo? (p base : Path) : Option Path :=
  if p.anchor = base.anchor && base.names.isPrefixOf p.names then
    some ⟨"", p.names.drop base.names.length⟩
  else none

example : (ofString "a//b/./c/").toString = "a/b/c" := by cbv
example : (ofString "//a").toString = "//a" := by cbv

end Path
end JsxLint
