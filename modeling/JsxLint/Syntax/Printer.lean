import JsxLint.Syntax.Document
import JsxLint.Text.Blank

/-!
# Printing syntax trees

A node that was read is printed by splicing: the bytes between its children are copied from the
source and each child is printed in turn, so that comments and layout outside of edited nodes
survive. A node that an edit made has no bytes of its own and is printed from its label; only some
labels allow that, and only below parameter lists and opening tags is there a place for it.

* `gap`: the source between two offsets without removed spans;
* `Label.assemble`: a node from its printed children;
* `Node.print`, `Document.print`, `Document.printText`: nodes and whole documents.
-/

namespace JsxLint

/-- Why a tree cannot be printed. -/
inductive PrintError
  /-- A made node whose label does not allow for it. -/
  | cannotPrint (form : String)
  /-- A made child where the source has no place for it. -/
  | noPosition (child owner : String)
  /-- A node without syntax. -/
  | noForm (form : String)
  /-- The bytes are no text. -/
  | notText (defect : Utf8.Defect)
  deriving DecidableEq, Repr

/-- The words for a printing error. -/
def PrintError.message : PrintError → String
  | .cannotPrint form => "Cannot print synthesized " ++ form
  | .noPosition child owner =>
    "Synthesized " ++ child ++ " has no position inside " ++ owner
  | .noForm form => "No renderer for " ++ form
  | .notText defect => defect.message

namespace Printer

/-! ### Gaps -/

/-- The order of spans: by start, then by end. -/
def spanLe (a b : Span) : Bool :=
  a.start < b.start || (a.start == b.start && a.stop ≤ b.stop)

/-- The source from `cursor` to `stop` without spans that are given in ascending order. -/
def gapFrom (source : Bytes) (cursor stop : Nat) : List Span → Bytes
  | [] => slice source cursor stop
  | span :: spans =>
    if span.stop ≤ cursor || stop ≤ span.start then gapFrom source cursor stop spans
    else slice source cursor span.start ++ gapFrom source span.stop stop spans

/-- The source from `start` to `stop` without removed spans. -/
def gap (source : Bytes) (removed : List Span) (start stop : Nat) : Bytes :=
  gapFrom source start stop (removed.mergeSort spanLe)

/-! ### Assembling nodes -/

/-- A child together with its printed form. -/
abbrev Printed := Node × Except PrintError Bytes

/-- Copy the source around printed children, from `cursor` to `stop`. -/
def spliceFrom (source : Bytes) (owner : Label) (cursor stop : Nat) :
    List Printed → Except PrintError Bytes
  | [] => .ok (gap source owner.removed cursor stop)
  | (child, printed) :: rest =>
    match child.place.span with
    | none => .error (.noPosition child.label.form owner.form)
    | some span => do
      let body ← printed
      let tail ← spliceFrom source owner span.stop stop rest
      return gap source owner.removed cursor span.start ++ body ++ tail

/-- A node whose bytes are those of the source, its children aside. -/
def splice (source : Bytes) (n : Node) (children : List Printed) : Except PrintError Bytes :=
  match n.place.span with
  | none => .error (.cannotPrint n.label.form)
  | some span => spliceFrom source n.label span.start span.stop children

/-- The bytes that a node was read from; without a span, the whole source. -/
def bytesRead (source : Bytes) (n : Node) : Bytes :=
  match n.place.span with
  | some span => slice source span.start span.stop
  | none => source

/-- A leaf: made ones are printed from their label, others as they were read. -/
def leaf (source : Bytes) (n : Node) (text : String) : Bytes :=
  if n.isMade then Utf8.encode text else bytesRead source n

/-- The text of an identifier. One that was renamed keeps the outside name it doubles as. -/
def identifierText (isMade : Bool) (name written : String) : Option Shorthand → String
  | some .property => if isMade || name = written then name else written ++ ": " ++ name
  | some .exported => if isMade || name = written then name else name ++ " as " ++ written
  | none => name

/-- The text of a printed node. -/
def text (bytes : Bytes) : Except PrintError String :=
  (Utf8.decode? bytes).mapError .notText

/-- A parameter list; with a made parameter it is laid out anew. -/
def parameters (source : Bytes) (n : Node) (children : List Printed) : Except PrintError Bytes :=
  if !n.isMade && children.all (!·.1.isMade) then splice source n children
  else do
    let texts ← children.mapM fun (_, printed) => printed >>= text
    return Utf8.encode ("(" ++ Text.joined ", " texts ++ ")")

/-- Braces in markup. -/
def container (source : Bytes) (n : Node) (children : List Printed) : Except PrintError Bytes :=
  if n.isMade then
    match children.head? with
    | some (_, printed) => do return [0x7B] ++ (← printed) ++ [0x7D]
    | none => .ok [0x7B, 0x7D]
  else splice source n children

/-- An attribute. -/
def markupAttribute (source : Bytes) (n : Node) (children : List Printed) :
    Except PrintError Bytes :=
  if n.isMade then
    match children with
    | [] => .ok []
    | (_, name) :: value => do
      let name ← name
      match value.head? with
      | some (_, value) => return name ++ [0x3D] ++ (← value)
      | none => return name
  else splice source n children

/-- Where a node starts; the source's start when it has no span. -/
def startOf (n : Node) : Nat :=
  (n.place.span.map (·.start)).getD 0

/-- Where a node ends; the source's end when it has no span. -/
def stopOf (source : Bytes) (n : Node) : Nat :=
  (n.place.span.map (·.stop)).getD source.length

/-- The made attributes of a tag, each behind a space. -/
def madeAttributes : List Printed → Except PrintError Bytes
  | [] => .ok []
  | (child, printed) :: rest =>
    if child.isMade then do
      let body ← printed
      let tail ← madeAttributes rest
      return 0x20 :: body ++ tail
    else madeAttributes rest

/-- The attributes of a tag that were read, each behind the source before it; also where the last
of them ends. -/
def readAttributes (source : Bytes) (cursor : Nat) :
    List Printed → Except PrintError (Bytes × Nat)
  | [] => .ok ([], cursor)
  | (child, printed) :: rest =>
    match child.place.span with
    | none => readAttributes source cursor rest
    | some span => do
      let body ← printed
      let (tail, cursor') ← readAttributes source span.stop rest
      return (slice source cursor span.start ++ body ++ tail, cursor')

/-- Whether bytes end in the two bytes `/>`. -/
def endsSelfClosed (bs : Bytes) : Bool :=
  [0x2F, 0x3E].isSuffixOf bs

/-- Bytes without a final `>`. -/
def withoutAngle (bs : Bytes) : Bytes :=
  if [0x3E].isSuffixOf bs then bs.dropLast else bs

/-- The body of a tag and its end, closed by ` />` if the tag closes itself and is not written so. -/
def closeTag (selfClosing : Bool) (body tail : Bytes) : Bytes :=
  if selfClosing && !endsSelfClosed (Bytes.stripEnd tail) then
    Bytes.stripEnd body ++ Bytes.stripEnd (withoutAngle (Bytes.stripEnd tail)) ++ [0x20, 0x2F, 0x3E]
  else body ++ tail

/-- An opening tag: made attributes come right behind its name. -/
def openingTag (source : Bytes) (n : Node) (selfClosing : Bool) (children : List Printed) :
    Except PrintError Bytes :=
  match children with
  | [] => .error (.noForm n.label.form)
  | (name, printedName) :: attributes => do
    let head := slice source (startOf n) (startOf' name)
    let nameBytes ← printedName
    let made ← madeAttributes attributes
    let (read, cursor) ← readAttributes source (nameEnd name) attributes
    let tail := slice source cursor (stopOf source n)
    return closeTag selfClosing (head ++ nameBytes ++ made ++ read) tail
where
  /-- Where the name starts; the source's end when it has no span. -/
  startOf' (name : Node) : Nat := (name.place.span.map (·.start)).getD source.length
  /-- Where the name ends; the source's start when it has no span. -/
  nameEnd (name : Node) : Nat := (name.place.span.map (·.stop)).getD 0

/-- An element: one whose opening tag closes itself is that tag. -/
def element (source : Bytes) (n : Node) (children : List Printed) : Except PrintError Bytes :=
  if n.isSelfClosing then
    match children.head? with
    | some (_, opening) => opening
    | none => .error (.noForm n.label.form)
  else splice source n children

/-- A node from its printed children. -/
def assemble (source : Bytes) (n : Node) (children : List Printed) : Except PrintError Bytes :=
  match n.label with
  | .identifier name written shorthand =>
    .ok (Utf8.encode (identifierText n.isMade name written shorthand))
  | .parameters _ => parameters source n children
  | .stringLiteral value quote => .ok (leaf source n (quote ++ value ++ quote))
  | .markupName name => .ok (Utf8.encode name)
  | .markupText text => .ok (leaf source n text)
  | .container _ => container source n children
  | .markupAttribute => markupAttribute source n children
  | .openingTag selfClosing => openingTag source n selfClosing children
  | .element .. => element source n children
  | .bare => .error (.noForm n.label.form)
  | _ => splice source n children

end Printer

mutual

/-- The bytes of a node. -/
def Node.print (source : Bytes) : Node → Except PrintError Bytes
  | ⟨id, parent, place, label, children⟩ =>
    Printer.assemble source ⟨id, parent, place, label, children⟩ (printAll source children)

/-- Nodes together with their bytes. -/
def printAll (source : Bytes) : List Node → List Printer.Printed
  | [] => []
  | n :: ns => (n, n.print source) :: printAll source ns

end

namespace Document

/-- The bytes of a document: its tree, between what the source has before and after it. -/
def print (d : Document) : Except PrintError Bytes := do
  let source := d.source.bytes
  let stop := Printer.stopOf source d.root
  let body ← d.root.print source
  return source.take (Printer.startOf d.root) ++ body ++
    source.drop (if stop = 0 then source.length else stop)

/-- The text of a document. -/
def printText (d : Document) : Except PrintError String :=
  d.print >>= Printer.text

end Document
end JsxLint
