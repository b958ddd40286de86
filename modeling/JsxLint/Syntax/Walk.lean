import JsxLint.Syntax.Node

/-!
# Walks over a syntax tree

The view of a tree is the list of its nodes, parents first and in the order of the source.

* `Node.walk`: that list;
* `Node.find?`, `Node.modify`: a node by its name, and an edit of it;
* `Node.number`, `Node.link`: names and parents for a tree that was just built;
* `Node.unwrapped`, `Node.isMarkup`: an expression behind its parentheses;
* `Node.ownReturns`, `Node.returnsMarkup`: what a function itself returns.
-/

namespace JsxLint.Node

/-! ### The list of nodes -/

mutual

/-- A node and everything below it, parents first. -/
def walk : Node → List Node
  | ⟨id, parent, place, label, children⟩ =>
    ⟨id, parent, place, label, children⟩ :: walkAll children

/-- The nodes of several trees, one tree after the other. -/
def walkAll : List Node → List Node
  | [] => []
  | n :: ns => n.walk ++ walkAll ns

end

/-- The node with the given name. -/
def find? (n : Node) (id : NodeId) : Option Node :=
  n.walk.find? (·.id == id)

mutual

/-- The tree with the node named `id` edited; what is below that node is left to the edit. -/
def modify (id : NodeId) (edit : Node → Node) : Node → Node
  | ⟨i, parent, place, label, children⟩ =>
    if i = id then edit ⟨i, parent, place, label, children⟩
    else ⟨i, parent, place, label, modifyAll id edit children⟩

/-- `modify` on several trees. -/
def modifyAll (id : NodeId) (edit : Node → Node) : List Node → List Node
  | [] => []
  | n :: ns => n.modify id edit :: modifyAll id edit ns

end

/-! ### Names and parents -/

mutual

/-- Name the nodes of a tree by consecutive numbers, parents first; also the next free number. -/
def number (next : NodeId) : Node → Node × NodeId
  | ⟨_, parent, place, label, children⟩ =>
    let (children, following) := numberAll (next + 1) children
    (⟨next, parent, place, label, children⟩, following)

/-- `number` on several trees. -/
def numberAll (next : NodeId) : List Node → List Node × NodeId
  | [] => ([], next)
  | n :: ns =>
    let (n, next) := n.number next
    let (ns, next) := numberAll next ns
    (n :: ns, next)

end

mutual

/-- Tell every node of a tree its parent. -/
def link (parent : Option NodeId) : Node → Node
  | ⟨id, _, place, label, children⟩ => ⟨id, parent, place, label, linkAll id children⟩

/-- `link` on the children of a node. -/
def linkAll (parent : NodeId) : List Node → List Node
  | [] => []
  | n :: ns => n.link (some parent) :: linkAll parent ns

end

mutual

/-- Give a made node a position and a parent, and the made nodes directly below it likewise. -/
def settle (position : Position) (parent : Option NodeId) : Node → Node
  | ⟨id, _, place, label, children⟩ =>
    ⟨id, parent, ⟨place.span, position⟩, label, settleAll position id children⟩

/-- `settle` on the made nodes among the children of a node. -/
def settleAll (position : Position) (parent : NodeId) : List Node → List Node
  | [] => []
  | n :: ns =>
    (if n.isMade then n.settle position (some parent) else n) :: settleAll position parent ns

end

/-! ### Expressions -/

mutual

/-- An expression without the parentheses around it. -/
def unwrapped : Node → Node
  | ⟨id, parent, place, label, children⟩ =>
    if label = .parenthesized then unwrappedFirst ⟨id, parent, place, label, children⟩ children
    else ⟨id, parent, place, label, children⟩

/-- The first of several expressions without parentheses, or `otherwise`. -/
def unwrappedFirst (otherwise : Node) : List Node → Node
  | [] => otherwise
  | n :: _ => n.unwrapped

end

/-- Whether an expression is an element or a fragment, parentheses aside. -/
def isMarkup (n : Node) : Bool :=
  n.unwrapped.label.isMarkup

/-! ### Functions -/

mutual

/-- The return statements at or below a node that belong to no function in it. -/
def returnsWithin : Node → List Node
  | ⟨id, parent, place, label, children⟩ =>
    if label.isFunction then []
    else if label = .returnStatement then
      ⟨id, parent, place, label, children⟩ :: returnsWithinAll children
    else returnsWithinAll children

/-- `returnsWithin` on several nodes. -/
def returnsWithinAll : List Node → List Node
  | [] => []
  | n :: ns => n.returnsWithin ++ returnsWithinAll ns

end

/-- The return statements of a function itself, not of functions nested in it. -/
def ownReturns (n : Node) : List Node :=
  match n.function? with
  | some parts => if parts.body.label = .block then returnsWithinAll parts.body.children else []
  | none => []

/-- What a function may give back, parentheses aside: the arguments of its own returns, or the
expression that is its body. -/
def returned (n : Node) : List Node :=
  match n.function? with
  | none => []
  | some parts =>
    if parts.body.label = .block then
      n.ownReturns.filterMap fun statement => statement.children.head?.map unwrapped
    else [parts.body.unwrapped]

/-- Whether a function gives back an element or a fragment. -/
def returnsMarkup (n : Node) : Bool :=
  n.returned.any (·.label.isMarkup)

/-- The identifiers with the given name at or below a node. -/
def identifiersNamed (n : Node) (name : String) : List Node :=
  n.walk.filter fun m => m.label.isIdentifier && m.text == name

end JsxLint.Node
