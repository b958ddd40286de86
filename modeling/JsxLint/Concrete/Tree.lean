import JsxLint.Source.Basic

/-!
# Concrete trees

What a grammar makes of a text: every token and rule with its byte span. A node knows the name of
the field it fills in its parent, whether it stands for a rule or for a bare token, whether it was
put in for a missing token, and whether something below it could not be read.

* `Concrete`: the trees;
* `Grammar`: the tree that a language gives for a text;
* `Concrete.ofPreorder?`: the tree whose nodes are listed parents first;
* `Concrete.field?`, `named`, `significant`: ways down.
-/

namespace JsxLint

/-- A node of a concrete tree. -/
structure Concrete where
  kind : String
  span : Span
  /-- The field of the parent that the node fills. -/
  field : Option String
  /-- Whether the node stands for a rule of the grammar, not for a bare token. -/
  named : Bool
  /-- Whether the node was put in for a token that is not there. -/
  missing : Bool
  /-- Whether the node or something below it could not be read. -/
  faulty : Bool
  children : List Concrete
  deriving Repr, Inhabited

/-- The concrete tree of every text in every language. -/
abbrev Grammar := Language → String → Concrete

namespace Concrete

/-- The first child that fills a field. -/
def field? (c : Concrete) (name : String) : Option Concrete :=
  c.children.find? (·.field == some name)

/-- The children that stand for rules. -/
def namedChildren (c : Concrete) : List Concrete :=
  c.children.filter (·.named)

/-- The children that stand for rules, without comments. -/
def significant (c : Concrete) : List Concrete :=
  c.namedChildren.filter (·.kind != "comment")

/-- The first child of a kind that stands for a rule. -/
def firstNamed? (c : Concrete) (kind : String) : Option Concrete :=
  c.namedChildren.find? (·.kind == kind)

mutual

/-- A node and everything below it, parents first. -/
def walk : Concrete → List Concrete
  | ⟨kind, span, field, named, missing, faulty, children⟩ =>
    ⟨kind, span, field, named, missing, faulty, children⟩ :: walkAll children

/-- The nodes of several trees, one tree after the other. -/
def walkAll : List Concrete → List Concrete
  | [] => []
  | c :: cs => c.walk ++ walkAll cs

end

/-- Put a node on top of the trees read so far; it takes as many of them as it has children. -/
def push (row : Concrete × Nat) (trees : List Concrete) : List Concrete :=
  { row.1 with children := trees.take row.2 } :: trees.drop row.2

/-- The tree whose nodes are listed parents first, each with its number of children. -/
def ofPreorder? (rows : List (Concrete × Nat)) : Option Concrete :=
  (rows.foldr push []).head?

end Concrete
end JsxLint
