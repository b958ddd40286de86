import JsxLint.Source.Position

/-!
# Syntax trees

A component file as a tree of labelled nodes. Every node has a name of its own that stays with it
while the tree is edited, the name of its parent, and a place: the span it was read from, or none
when an edit made it, and a line and column.

The label says what a node is and holds what is not a node itself; the children come in a fixed
order that is given with each label, and optional children are announced by the label.

* `Label`, `Node`: the trees;
* `Label.form`: the word for a kind of node;
* `Node.function?`, `Node.declarator?`, `Node.element?`, …: the parts of a node by their meaning.
-/

namespace JsxLint

/-- The name of a node; it stays with the node for its whole life. -/
abbrev NodeId := Nat

/-- Where a node stands. -/
structure Place where
  /-- The bytes it was read from; none for a node that an edit made. -/
  span : Option Span
  position : Position
  deriving DecidableEq, Repr, Inhabited

/-- Written names that also name something outside their binding. -/
inductive Shorthand
  /-- The name of a property, as in `{ foo }`. -/
  | property
  /-- The name of an export, as in `export { foo }`. -/
  | exported
  deriving DecidableEq, Repr

/-- What a node is. -/
inductive Label
  /-- Children: the statements. -/
  | program
  /-- Children: the statements. -/
  | block
  /-- A name that declares or refers to a binding; `written` is the name that was read. -/
  | identifier (name written : String) (shorthand : Option Shorthand)
  /-- Children: the parameters. -/
  | parameters (parenthesized : Bool)
  /-- Children: the name when `hasName`, the parameters, the body. -/
  | functionDeclaration (hasName : Bool)
  /-- Children: the name when `hasName`, the parameters, the body. -/
  | functionExpression (hasName : Bool)
  /-- Children: the parameters, the body. -/
  | arrowFunction
  /-- Children: the pattern and, when there is one, the initial value. -/
  | variableDeclarator
  /-- Children: the declarators. -/
  | variableDeclaration (keyword : String)
  /-- Children: the argument when there is one. -/
  | returnStatement
  /-- Children: the callee, the arguments. -/
  | call
  /-- Children: the object. -/
  | member (property : String)
  /-- Children: the test and the two outcomes. -/
  | conditional
  /-- Children: both operands. -/
  | logical (operator : String)
  /-- Children: the expression in the parentheses. -/
  | parenthesized
  | stringLiteral (value quote : String)
  /-- Children: the names that are bound. -/
  | importDeclaration
  /-- The name of an intrinsic tag or of an attribute. -/
  | markupName (name : String)
  | markupText (text : String)
  /-- Braces in markup. Children: the expression when there is one. -/
  | container (hasComment : Bool)
  /-- Children: the name and, when there is one, the value. -/
  | markupAttribute
  /-- Children: the argument. -/
  | spreadAttribute
  /-- Children: the name of the tag, the attributes. -/
  | openingTag (selfClosing : Bool)
  /-- Children: the name of the tag. -/
  | closingTag
  /-- Children: the opening tag, the content, the closing tag when `isClosed`. -/
  | element (isClosed : Bool) (removed : List Span)
  /-- Children: the content. -/
  | fragment (removed : List Span)
  /-- Syntax that no rule looks into, under its grammar kind. Children: its parts, which fill the
  `fields`; `detail` is the keyword of a loop's declaration. -/
  | other (kind : String) (fields : List (Option String)) (detail : Option String)
  /-- A node without syntax of its own, which cannot be printed. -/
  | bare
  deriving DecidableEq, Repr

namespace Label

/-- The word for a kind of node. -/
def form : Label → String
  | .program => "Program"
  | .block => "Block"
  | .identifier .. => "Identifier"
  | .parameters _ => "Parameters"
  | .functionDeclaration _ => "FunctionDeclaration"
  | .functionExpression _ => "FunctionExpression"
  | .arrowFunction => "ArrowFunction"
  | .variableDeclarator => "VariableDeclarator"
  | .variableDeclaration _ => "VariableDeclaration"
  | .returnStatement => "ReturnStatement"
  | .call => "CallExpression"
  | .member _ => "MemberExpression"
  | .conditional => "ConditionalExpression"
  | .logical _ => "LogicalExpression"
  | .parenthesized => "ParenthesizedExpression"
  | .stringLiteral .. => "StringLiteral"
  | .importDeclaration => "ImportDeclaration"
  | .markupName _ => "JSXName"
  | .markupText _ => "JSXText"
  | .container _ => "JSXExpressionContainer"
  | .markupAttribute => "JSXAttribute"
  | .spreadAttribute => "JSXSpreadAttribute"
  | .openingTag _ => "JSXOpeningElement"
  | .closingTag => "JSXClosingElement"
  | .element .. => "JSXElement"
  | .fragment _ => "JSXFragment"
  | .other .. => "Opaque"
  | .bare => "Node"

/-- Whether a node opens a function. -/
def isFunction : Label → Bool
  | .functionDeclaration _ | .functionExpression _ | .arrowFunction => true
  | _ => false

/-- Whether a node is a function expression or an arrow function. -/
def isFunctionValue : Label → Bool
  | .functionExpression _ | .arrowFunction => true
  | _ => false

/-- Whether a node is an element or a fragment. -/
def isMarkup : Label → Bool
  | .element .. | .fragment _ => true
  | _ => false

/-- Whether a node is an identifier. -/
def isIdentifier : Label → Bool
  | .identifier .. => true
  | _ => false

/-- The spans of removed content. -/
def removed : Label → List Span
  | .element _ spans | .fragment spans => spans
  | _ => []

/-- The name that an identifier or a markup name holds. -/
def name? : Label → Option String
  | .identifier name _ _ | .markupName name => some name
  | _ => none

/-- The label with another name, where it holds one. -/
def rename (name : String) : Label → Label
  | .identifier _ written shorthand => .identifier name written shorthand
  | .markupName _ => .markupName name
  | label => label

end Label

/-- A node of a syntax tree. -/
structure Node where
  id : NodeId
  parent : Option NodeId
  place : Place
  label : Label
  children : List Node
  deriving Repr

instance : Inhabited Node := ⟨⟨0, none, default, .bare, []⟩⟩

/-- The parts of a function. -/
structure FunctionParts where
  name : Option Node
  parameters : Node
  body : Node

/-- The parts of an element. -/
structure ElementParts where
  opening : Node
  content : List Node
  closing : Option Node

namespace Node

/-- A node that has neither a name nor a parent yet. -/
def made (label : Label) (children : List Node) : Node :=
  ⟨0, none, default, label, children⟩

/-- Whether an edit made the node. -/
def isMade (n : Node) : Bool :=
  n.place.span.isNone

/-- The line of a node. -/
def line (n : Node) : Nat :=
  n.place.position.line

/-- The name of an identifier or a markup name, empty for all else. -/
def text (n : Node) : String :=
  n.label.name?.getD ""

/-! ### Parts -/

/-- The name, parameters and body of a function. -/
def function? (n : Node) : Option FunctionParts :=
  match n.label, n.children with
  | .functionDeclaration true, [name, parameters, body] => some ⟨some name, parameters, body⟩
  | .functionDeclaration false, [parameters, body] => some ⟨none, parameters, body⟩
  | .functionExpression true, [name, parameters, body] => some ⟨some name, parameters, body⟩
  | .functionExpression false, [parameters, body] => some ⟨none, parameters, body⟩
  | .arrowFunction, [parameters, body] => some ⟨none, parameters, body⟩
  | _, _ => none

/-- The pattern and the initial value of a declarator. -/
def declarator? (n : Node) : Option (Node × Option Node) :=
  match n.label, n.children with
  | .variableDeclarator, pattern :: value => some (pattern, value.head?)
  | _, _ => none

/-- The callee and the arguments of a call. -/
def call? (n : Node) : Option (Node × List Node) :=
  match n.label, n.children with
  | .call, callee :: arguments => some (callee, arguments)
  | _, _ => none

/-- The outcome of a conditional expression when its test fails. -/
def alternate? (n : Node) : Option Node :=
  match n.label, n.children with
  | .conditional, [_, _, alternate] => some alternate
  | _, _ => none

/-- The name and the value of an attribute. -/
def attribute? (n : Node) : Option (Node × Option Node) :=
  match n.label, n.children with
  | .markupAttribute, name :: value => some (name, value.head?)
  | _, _ => none

/-- The name of an opening tag and its attributes. -/
def opening? (n : Node) : Option (Node × List Node) :=
  match n.label, n.children with
  | .openingTag _, name :: attributes => some (name, attributes)
  | _, _ => none

/-- The tags and the content of an element. -/
def element? (n : Node) : Option ElementParts :=
  match n.label, n.children with
  | .element true _, opening :: rest => some ⟨opening, rest.dropLast, rest.getLast?⟩
  | .element false _, opening :: content => some ⟨opening, content, none⟩
  | _, _ => none

/-- The content of an element or a fragment. -/
def content (n : Node) : List Node :=
  match n.label with
  | .fragment _ => n.children
  | _ => (n.element?.map (·.content)).getD []

/-- The part of other syntax that fills a field. -/
def part? (n : Node) (field : String) : Option Node :=
  match n.label with
  | .other _ fields _ => (fields.zip n.children).lookup (some field)
  | _ => none

/-- Whether the node is other syntax of the given kind. -/
def isOther (n : Node) (kind : String) : Bool :=
  match n.label with
  | .other k _ _ => k == kind
  | _ => false

/-- The tag that a name in an opening tag spells; dotted names spell none. -/
def tagName (n : Node) : String :=
  n.text

/-- The tag of an opening tag or an element. -/
def tag (n : Node) : String :=
  match n.label with
  | .element .. => ((n.element?.bind (·.opening.opening?)).map (·.1.tagName)).getD ""
  | _ => (n.opening?.map (·.1.tagName)).getD ""

/-- Whether an opening tag, or the opening tag of an element, closes itself. -/
def isSelfClosing (n : Node) : Bool :=
  match n.label with
  | .openingTag selfClosing => selfClosing
  | .element .. =>
    match n.element? with
    | some parts => parts.opening.label == .openingTag true
    | none => false
  | _ => false

/-- Whether braces hold neither an expression nor a comment. -/
def isEmptyContainer (n : Node) : Bool :=
  match n.label with
  | .container hasComment => n.children.isEmpty && !hasComment
  | _ => false

/-- The first attribute of an opening tag with the given name. -/
def findAttribute? (n : Node) (name : String) : Option Node :=
  n.opening?.bind fun (_, attributes) =>
    attributes.find? fun a => (a.attribute?.map (·.1.text)) == some name

end Node
end JsxLint
