import JsxLint.Concrete.Tree
import JsxLint.Files.Basic
import JsxLint.Text.Lines

/-!
# Listed trees

A concrete tree as text: a node a line, parents first. A line has the first byte of the node, the
byte behind it, the number of its children, its marks, its field and its kind, with a blank between
them; a dash stands for no mark or no field. The listing of a source is a file beside it that has
`.tree` at the end of its name.

* `Concrete.ofListing?`: the tree of a listing;
* `Files.grammar`: the trees that are listed in a file tree.
-/

namespace JsxLint

namespace Concrete

/-- The node of a line, and its number of children. The marks are `n` for a rule of the grammar,
`m` for a token put in, `f` for something that could not be read. -/
def ofLine? (line : String) : Option (Concrete × Nat) :=
  match Text.splitOn ' ' line with
  | start :: stop :: children :: marks :: field :: kind => do
    let start ← start.toNat?
    let stop ← stop.toNat?
    let children ← children.toNat?
    let has : Char → Bool := marks.toList.contains
    return ({ kind := Text.joined " " kind
              span := ⟨start, stop⟩
              field := if field = "-" then none else some field
              named := has 'n'
              missing := has 'm'
              faulty := has 'f'
              children := [] }, children)
  | _ => none

/-- The tree of a listing. -/
def ofListing? (text : String) : Option Concrete :=
  ((Text.lines text).mapM ofLine?).bind ofPreorder?

end Concrete

namespace Files

/-- What is added to the name of a source for the name of its listing. -/
def listingSuffix : String := ".tree"

/-- The real path of the listing of a source. -/
def listingPath (p : RealPath) : RealPath :=
  p.dropLast ++ [p.getLast?.getD "" ++ listingSuffix]

/-- The tree that is listed for the source at a real path. -/
def listedTree? (f : Files) (p : RealPath) : Option Concrete :=
  match f.get? (listingPath p) with
  | some (.file content _) => (Utf8.decode? content).toOption.bind Concrete.ofListing?
  | _ => none

/-- The tree that is listed for a text, if the entry is a file with that text. -/
def listedFor? (f : Files) (language : Language) (text : Bytes) :
    RealPath × Entry → Option Concrete
  | (p, .file content _) =>
    if content = text && Language.ofPath (p.getLast?.getD "") = language then f.listedTree? p
    else none
  | _ => none

/-- The trees that are listed in a file tree; a text without a listing has an empty tree. -/
def grammar (f : Files) : Grammar :=
  fun language text => (f.entries.findSome? (f.listedFor? language (Utf8.encode text))).getD default

end Files
end JsxLint
