import JsxLint.Syntax.Node

/-!
# Scope tables

The scopes of a document, the bindings declared in them and the identifiers that refer to them.
Scopes and bindings are numbered in the order in which they were made; a scope lists its names in
the order in which they came to it.

* `Scope`, `Binding`, `ScopeTable`;
* `ScopeTable.chain`, `lookup?`: a scope and those around it, and the nearest binding of a name;
* `ScopeTable.bindingOf?`, `scopeOpenedBy?`: what an identifier or a node stands for;
* `ScopeTable.openScope`, `declare`, `refer`: entries.
-/

namespace JsxLint

/-- The number of a scope in its table. -/
abbrev ScopeId := Nat

/-- The number of a binding in its table. -/
abbrev BindingId := Nat

/-- How far a scope reaches. -/
inductive ScopeKind
  | program
  | function
  | block
  deriving DecidableEq, Repr, Inhabited

/-- The word for a kind of scope. -/
def ScopeKind.word : ScopeKind → String
  | .program => "program"
  | .function => "function"
  | .block => "block"

/-- A region of the source in which names are visible. -/
structure Scope where
  kind : ScopeKind
  /-- The node that opens the scope. -/
  node : NodeId
  parent : Option ScopeId
  /-- The names bound here, in the order in which they came. -/
  names : List (String × BindingId)
  deriving Repr, Inhabited

/-- A declared name and the identifiers that resolve to it. -/
structure Binding where
  name : String
  /-- The word for how the name is declared, such as `const` or `param`. -/
  kind : String
  /-- The identifier that declares the name first. -/
  declaration : NodeId
  scope : ScopeId
  /-- The identifiers that declare it again or refer to it, in the order in which they came. -/
  references : List NodeId
  deriving Repr, Inhabited

/-- The scopes and bindings of a document. -/
structure ScopeTable where
  scopes : List Scope
  bindings : List Binding
  /-- The identifiers that declare a binding. -/
  declared : List (NodeId × BindingId)
  /-- The identifiers that refer to a binding. -/
  referring : List (NodeId × BindingId)
  /-- The scopes in which identifiers refer to a binding. -/
  usedIn : List (NodeId × ScopeId)
  /-- The identifiers that no visible declaration explains. -/
  unresolved : List NodeId
  deriving Repr, Inhabited

/-! ### Names in the order in which they came -/

/-- Bind a name: in its place when it is there, else at the end. -/
def putName (name : String) (b : BindingId) : List (String × BindingId) → List (String × BindingId)
  | [] => [(name, b)]
  | (n, c) :: rest => if n = name then (n, b) :: rest else (n, c) :: putName name b rest

/-- Unbind a name. -/
def dropName (name : String) (names : List (String × BindingId)) : List (String × BindingId) :=
  names.filter fun entry => entry.1 != name

namespace ScopeTable

/-- The table of a program in which nothing is declared yet. -/
def ofProgram (root : NodeId) : ScopeTable :=
  ⟨[⟨.program, root, none, []⟩], [], [], [], [], []⟩

/-! ### Queries -/

/-- A scope and at most `steps - 1` of those around it, the nearest first. -/
def chainFrom (t : ScopeTable) : Nat → Option ScopeId → List ScopeId
  | steps + 1, some s =>
    match t.scopes[s]? with
    | some scope => s :: t.chainFrom steps scope.parent
    | none => []
  | _, _ => []

/-- A scope and those around it, the nearest first. -/
def chain (t : ScopeTable) (s : ScopeId) : List ScopeId :=
  t.chainFrom t.scopes.length (some s)

/-- The binding of a name in a scope itself. -/
def bound? (t : ScopeTable) (s : ScopeId) (name : String) : Option BindingId :=
  t.scopes[s]?.bind fun scope => scope.names.lookup name

/-- The nearest binding of a name, seen from a scope. -/
def lookup? (t : ScopeTable) (s : ScopeId) (name : String) : Option BindingId :=
  (t.chain s).findSome? fun scope => t.bound? scope name

/-- The nearest scope that is no block, seen from a scope. -/
def functionScope (t : ScopeTable) (s : ScopeId) : ScopeId :=
  let outer := (t.chain s).dropWhile fun scope => (t.scopes[scope]?.map (·.kind)) == some .block
  match outer with
  | scope :: _ => scope
  | [] => (t.chain s).getLast?.getD s

/-- Whether an identifier declares a binding. -/
def isDeclaration (t : ScopeTable) (identifier : NodeId) : Bool :=
  (t.declared.lookup identifier).isSome

/-- The binding that an identifier declares or refers to. -/
def bindingOf? (t : ScopeTable) (identifier : NodeId) : Option BindingId :=
  (t.declared.lookup identifier).or (t.referring.lookup identifier)

/-- The scope that a node opens. -/
def scopeOpenedBy? (t : ScopeTable) (node : NodeId) : Option ScopeId :=
  t.scopes.findIdx? (·.node == node)

/-- All bindings that a scope lists, scope by scope. -/
def listed (t : ScopeTable) : List BindingId :=
  t.scopes.flatMap fun scope => scope.names.map (·.2)

/-! ### Entries -/

/-- Open a scope inside another one. -/
def openScope (t : ScopeTable) (kind : ScopeKind) (node : NodeId) (parent : ScopeId) :
    ScopeId × ScopeTable :=
  (t.scopes.length, { t with scopes := t.scopes ++ [⟨kind, node, some parent, []⟩] })

/-- Note that an identifier belongs to a binding, in a scope. -/
def addReference (t : ScopeTable) (b : BindingId) (identifier : NodeId) (s : ScopeId) : ScopeTable :=
  { t with
    bindings := t.bindings.modify b fun binding =>
      { binding with references := binding.references ++ [identifier] }
    usedIn := (identifier, s) :: t.usedIn }

/-- Declare a name in a scope. A name that is declared again keeps its first declaration. -/
def declare (t : ScopeTable) (s : ScopeId) (identifier : NodeId) (name kind : String) :
    BindingId × ScopeTable :=
  match t.bound? s name with
  | some b =>
    (b, { t.addReference b identifier s with declared := (identifier, b) :: t.declared })
  | none =>
    let b := t.bindings.length
    (b, { t with
      scopes := t.scopes.modify s fun scope => { scope with names := putName name b scope.names }
      bindings := t.bindings ++ [⟨name, kind, identifier, s, []⟩]
      declared := (identifier, b) :: t.declared })

/-- Let an identifier refer to a binding, in a scope. -/
def refer (t : ScopeTable) (b : BindingId) (identifier : NodeId) (s : ScopeId) : ScopeTable :=
  { t.addReference b identifier s with referring := (identifier, b) :: t.referring }

/-- Note that no visible declaration explains an identifier. -/
def addUnresolved (t : ScopeTable) (identifier : NodeId) : ScopeTable :=
  { t with unresolved := t.unresolved ++ [identifier] }

end ScopeTable
end JsxLint
