import JsxLint.Source.Basic
import JsxLint.Syntax.Walk

/-!
# Documents under edit

A document is the tree of one source together with the nodes that edits took out of it, which keep
their names and what they knew of their parents, and the next free name.

* `Document.node?`, `Document.ancestors`: nodes by name, and the way up;
* `Document.modify`, `setLabel`: an edit of one node wherever it is;
* `Document.attach`: a made tree gets names, places and parents;
* `Document.removeChild?`, `collapse`, `insertAttribute`, `addParameter`: the edits of the rules.
-/

namespace JsxLint

/-- The tree of a source under edit. -/
structure Document where
  source : Source
  root : Node
  /-- The trees that edits took out, the latest first. -/
  detached : List Node
  /-- The next free name. -/
  fresh : NodeId
  deriving Inhabited

namespace Document

/-- The document of a tree that was just built. -/
def ofRoot (source : Source) (root : Node) : Document :=
  let (root, fresh) := root.number 0
  ⟨source, root.link none, [], fresh⟩

/-! ### Looking up -/

/-- The node with the given name, in the tree or taken out of it. -/
def node? (d : Document) (id : NodeId) : Option Node :=
  (d.root :: d.detached).findSome? (·.find? id)

/-- The way up from a parent, at most `steps` nodes of it. -/
def ancestorsFrom (d : Document) : Nat → Option NodeId → List Node
  | steps + 1, some id =>
    match d.node? id with
    | some n => n :: d.ancestorsFrom steps n.parent
    | none => []
  | _, _ => []

/-- The parent of a node, its parent's parent, and so on. -/
def ancestors (d : Document) (n : Node) : List Node :=
  d.ancestorsFrom d.fresh n.parent

/-- Whether a node is below another one. -/
def isBelow (d : Document) (n : Node) (ancestor : NodeId) : Bool :=
  (d.ancestors n).any (·.id == ancestor)

/-- The nearest function around a node. -/
def enclosingFunction? (d : Document) (n : Node) : Option Node :=
  (d.ancestors n).find? (·.label.isFunction)

/-- The text that a node was read from, empty for a made node. -/
def textOf (d : Document) (n : Node) : String :=
  match n.place.span with
  | some span => d.source.text span
  | none => ""

/-! ### Editing -/

/-- Edit the node with the given name, in the tree and in what was taken out. -/
def modify (d : Document) (id : NodeId) (edit : Node → Node) : Document :=
  { d with
    root := d.root.modify id edit
    detached := d.detached.map (·.modify id edit) }

/-- Edit the label of a node. -/
def modifyLabel (d : Document) (id : NodeId) (edit : Label → Label) : Document :=
  d.modify id fun n => { n with label := edit n.label }

/-- Give another name to an identifier or a markup name. -/
def rename (d : Document) (id : NodeId) (name : String) : Document :=
  d.modifyLabel id (·.rename name)

/-- Keep a tree that is no longer, or not yet, part of the document's tree. -/
def keep (d : Document) (n : Node) : Document :=
  { d with detached := n :: d.detached }

/-- Name the nodes of a made tree and place it, and the made nodes below it, at a position. -/
def attach (d : Document) (n : Node) (position : Position) (parent : Option NodeId) :
    Node × Document :=
  let (n, fresh) := n.number d.fresh
  (n.settle position parent, { d with fresh })

/-- The label with one more removed span. -/
def noteRemoved (span : Span) : Label → Label
  | .element isClosed removed => .element isClosed (removed ++ [span])
  | .fragment removed => .fragment (removed ++ [span])
  | label => label

/-- Take a node out of the content of an element or a fragment and note its span; nothing when it
is not there. -/
def removeChild? (d : Document) (parent child : NodeId) : Option Document := do
  let owner ← d.node? parent
  let taken ← owner.content.find? (·.id == child)
  let unlinked : Node := { taken with parent := none }
  let edit : Node → Node := fun n =>
    { n with
      label := match taken.place.span with
        | some span => noteRemoved span n.label
        | none => n.label
      children := n.children.filter (·.id != child) }
  return (d.modify parent edit).keep unlinked

/-- Turn an element into a self-closing tag without content. -/
def collapse (d : Document) (element : NodeId) : Document :=
  match (d.node? element).bind Node.element? with
  | none => d
  | some parts =>
    let opening : Node := { parts.opening with label := .openingTag true }
    let edit : Node → Node := fun n =>
      { n with label := .element false n.label.removed, children := [opening] }
    (parts.content ++ parts.closing.toList).foldl keep (d.modify element edit)

/-- Where an element is put that is to stand at an index: negative indices count from the end. -/
def insertionPoint (size : Nat) (index : Int) : Nat :=
  if index < 0 then (size + index).toNat else min index.toNat size

/-- A list with an element put in at an index. -/
def insertAt {α : Type} (l : List α) (index : Int) (a : α) : List α :=
  let point := insertionPoint l.length index
  l.take point ++ a :: l.drop point

/-- Put a made attribute into an opening tag, at the place of the tag. -/
def insertAttribute (d : Document) (opening : Node) (index : Int) (added : Node) :
    Node × Document :=
  let (added, d) := d.attach added opening.place.position (some opening.id)
  let edit : Node → Node := fun n =>
    match n.children with
    | name :: attributes => { n with children := name :: insertAt attributes index added }
    | [] => n
  (added, d.modify opening.id edit)

/-- Put a made parameter behind the parameters of a list, at the place of the list. -/
def addParameter (d : Document) (parameters : Node) (parameter : Node) : Node × Document :=
  let (parameter, d) := d.attach parameter parameters.place.position (some parameters.id)
  (parameter, d.modify parameters.id fun n => { n with children := n.children ++ [parameter] })

end Document
end JsxLint
