import JsxLint.Files.Lookup

/-!
# Resolving paths

Resolving a path follows all links on its way, as looking it up does, but goes on by names alone
where nothing stands. A link that is met again while it is being followed ends that: what is
written behind it is then put behind its own spelling, for every link that is being followed, and
the text that this gives is the result. A target that has two slashes in a row can so lead anywhere.

* `Files.resolved`: what a path stands for;
* `Files.canonical`: the same, unless looking it up leads through too many links.
-/

namespace JsxLint

namespace Path

/-- The directory of a path without links on the way. The one above the start of a relative path is
spelled with two dots. -/
def above (p : Path) : Path :=
  match p.names.getLast? with
  | some name => if name = ".." then p.child ".." else p.parent
  | none => if p.isAbsolute then p else p.child ".."

/-- The text of a path behind that of another one, which it replaces if it starts at the root. -/
def textBehind (text rest : String) : String :=
  if rest.toList.head? = some '/' then rest
  else if text.toList.getLast? = some '/' then text ++ rest
  else text ++ "/" ++ rest

end Path

namespace Files

/-- Where resolving comes to. -/
inductive Resolved
  /-- A path without links on the way. -/
  | whole (p : Path)
  /-- A text that starts with a link that leads back to itself. -/
  | looping (text : String)
  deriving DecidableEq, Repr

/-- Follow names without looking at what stands there. -/
def byNames (here : RealPath) : List String → RealPath
  | [] => here
  | name :: rest =>
    if name = ".." then byNames here.dropLast rest else byNames (here ++ [name]) rest

/-- A path from the root on in its shortest spelling. -/
def shortest (f : Files) (p : Path) : Path :=
  ⟨if p.isAbsolute then p.anchor else "/", byNames (f.start p) p.names⟩

/-- What stands at a path without links on the way. -/
def entryAt? (f : Files) (p : Path) : Option Entry :=
  f.get? (f.shortest p).names

/-- The parts of a text between slashes, and the path that they are seen from: the root or `here`. -/
def partsOf (here : Path) (text : String) : Path × List String :=
  (if text.toList.head? = some '/' then ⟨"/", []⟩ else here, Text.splitOn '/' text)

/-- Resolve parts of a text from a path without links on the way, given what links resolve to. -/
def resolveParts (f : Files) (enter : Path → String → Resolved) (here : Path) :
    List String → Resolved
  | [] => .whole here
  | part :: rest =>
    if part = "" || part = "." then f.resolveParts enter here rest
    else if part = ".." then f.resolveParts enter here.above rest
    else match f.entryAt? (here.child part) with
      | some (.link target) =>
        match enter (here.child part) target with
        | .whole p => f.resolveParts enter p rest
        | .looping text => .looping (Path.textBehind text (Text.joined "/" rest))
      | _ => f.resolveParts enter (here.child part) rest

/-- Resolve a text from a path without links on the way while the links `pending` are being
followed, and at most `depth` more. Links are told apart by their spelling. -/
def resolveFrom (f : Files) : Nat → List Path → Path → String → Resolved
  | 0, _, here, text =>
    let (start, parts) := partsOf here text
    f.resolveParts (fun link _ => .looping link.toString) start parts
  | depth + 1, pending, here, text =>
    let (start, parts) := partsOf here text
    f.resolveParts (fun link target =>
      if pending.contains link then .looping link.toString
      else f.resolveFrom depth (link :: pending) link.parent target) start parts

/-- How many links can be followed at the same time: each has a spelling from the root, and a
relative one for the working directory and every directory above it. -/
def depthLimit (f : Files) : Nat :=
  f.links.length * (f.working.length + 2)

/-- What a path stands for, whether something stands there or not. -/
def resolved (f : Files) (p : Path) : Path :=
  match f.resolveFrom f.depthLimit [] ⟨"", []⟩ p.toString with
  | .whole q => f.shortest q
  | .looping text => f.shortest (.ofString text)

/-- What a path stands for, unless it leads through too many links or can stand for nothing. -/
def canonical (f : Files) (p : Path) : Except FileError Path :=
  if p.hasNull then .error .nullCharacter
  else match f.find (f.resolved p) with
    | .error .linkLoop => .error .linkLoop
    | _ => .ok (f.resolved p)

end Files
end JsxLint
