import JsxLint.Scope.Table
import JsxLint.Syntax.Walk

/-!
# Name resolution

Two walks over a tree fill a scope table. The first opens the scopes and enters every declaration
in the scope that owns it; the second lets each other identifier refer to the nearest declaration
of its name.

* `Node.patternNames`: the identifiers that a pattern binds;
* `ScopeTable.enter`: the scope and the declarations of one node;
* `ScopeTable.declareTree`, `ScopeTable.referTree`: the two walks;
* `ScopeTable.resolve`: the table of a tree.
-/

namespace JsxLint

/-! ### Patterns -/

namespace Pattern

/-- Kinds of syntax that bind what each of their parts binds. -/
def containers : List String :=
  ["object_pattern", "array_pattern", "rest_pattern", "rest_element"]

/-- The part of a pattern that binds names, when it is one part: its field, and whether the first
part stands in for a missing one. -/
def bindingField? : String → Option (String × Bool)
  | "pair_pattern" => some ("value", false)
  | "assignment_pattern" | "object_assignment_pattern" => some ("left", true)
  | "required_parameter" | "optional_parameter" => some ("pattern", false)
  | _ => none

/-- What other syntax binds, from what its parts bind. -/
def combine (kind : String) (fields : List (Option String)) (parts : List (List Node)) :
    List Node :=
  if containers.contains kind then parts.flatten
  else match bindingField? kind with
    | none => []
    | some (field, orFirst) =>
      match (fields.zip parts).lookup (some field) with
      | some names => names
      | none => if orFirst then parts.head?.getD [] else []

end Pattern

mutual

/-- The identifiers that a pattern binds. -/
def Node.patternNames : Node → List Node
  | ⟨id, parent, place, label, children⟩ =>
    match label with
    | .identifier .. => [⟨id, parent, place, label, children⟩]
    | .other kind fields _ => Pattern.combine kind fields (patternNamesAll children)
    | _ => []

/-- What each of several patterns binds. -/
def patternNamesAll : List Node → List (List Node)
  | [] => []
  | n :: ns => n.patternNames :: patternNamesAll ns

end

/-! ### Declarations -/

namespace ScopeTable

/-- Kinds of syntax that open a block scope. -/
def blockKinds : List String :=
  ["for_statement", "for_in_statement", "catch_clause", "class_body", "switch_statement"]

/-- Declare every identifier of a list. -/
def declareAll (t : ScopeTable) (s : ScopeId) (kind : String) (identifiers : List Node) :
    ScopeTable :=
  identifiers.foldl (fun t n => (t.declare s n.id n.text kind).2) t

/-- The scope that owns names declared by a keyword: `var` reaches the enclosing function. -/
def owner (t : ScopeTable) (s : ScopeId) (keyword : String) : ScopeId :=
  if keyword = "var" then t.functionScope s else s

/-- Open the scope of a function and declare its parameters there, behind its own name if that is
given. -/
def enterFunction (t : ScopeTable) (s : ScopeId) (n : Node) (ownName : Option Node) :
    ScopeId × ScopeTable :=
  let (inner, t) := t.openScope .function n.id s
  let t := t.declareAll inner "function" ownName.toList
  let parameters := (n.function?.map (·.parameters.children)).getD []
  (inner, t.declareAll inner "param" (parameters.flatMap Node.patternNames))

/-- The class that other syntax declares in the scope around it. -/
def declareClass (t : ScopeTable) (s : ScopeId) (kind : String) (n : Node) : ScopeTable :=
  if kind = "class_declaration" || kind = "abstract_class_declaration" then
    t.declareAll s "class" ((n.part? "name").toList.filter (·.label.isIdentifier))
  else t

/-- What a block of other syntax declares at its head: the parameter of a `catch`, the variables
of a loop. -/
def declareHead (t : ScopeTable) (s : ScopeId) (kind : String) (keyword : Option String) (n : Node) :
    ScopeTable :=
  if kind = "catch_clause" then
    t.declareAll s "catch" ((n.part? "parameter").toList.flatMap Node.patternNames)
  else if kind = "for_in_statement" then
    match keyword with
    | some word =>
      if word = "" then t
      else t.declareAll (t.owner s word) word ((n.part? "left").toList.flatMap Node.patternNames)
    | none => t
  else t

/-- The scope for what is below a node, and the table with what the node itself declares. A block
that is the body of a function shares the scope of the function. -/
def enter (t : ScopeTable) (inFunction : Bool) (s : ScopeId) (n : Node) : ScopeId × ScopeTable :=
  match n.label with
  | .functionDeclaration _ =>
    let name := n.function?.bind (·.name)
    (t.declareAll s "function" name.toList).enterFunction s n none
  | .functionExpression _ => t.enterFunction s n (n.function?.bind (·.name))
  | .arrowFunction => t.enterFunction s n none
  | .block => if inFunction then (s, t) else t.openScope .block n.id s
  | .variableDeclaration keyword =>
    let patterns := n.children.filterMap fun d => d.declarator?.map (·.1)
    (s, t.declareAll (t.owner s keyword) keyword (patterns.flatMap Node.patternNames))
  | .importDeclaration => (s, t.declareAll s "import" n.children)
  | .other kind _ keyword =>
    let t := t.declareClass s kind n
    if blockKinds.contains kind then
      let (inner, t) := t.openScope .block n.id s
      (inner, t.declareHead inner kind keyword n)
    else (s, t)
  | _ => (s, t)

mutual

/-- Enter the declarations at and below a node. -/
def declareTree (t : ScopeTable) (inFunction : Bool) (s : ScopeId) : Node → ScopeTable
  | ⟨id, parent, place, label, children⟩ =>
    let (inner, t) := t.enter inFunction s ⟨id, parent, place, label, children⟩
    declareTrees t label.isFunction inner children

/-- `declareTree` on several trees. -/
def declareTrees (t : ScopeTable) (inFunction : Bool) (s : ScopeId) : List Node → ScopeTable
  | [] => t
  | n :: ns => declareTrees (declareTree t inFunction s n) inFunction s ns

end

/-! ### References -/

/-- Let an identifier that declares nothing refer to the nearest binding of its name. -/
def referNode (t : ScopeTable) (s : ScopeId) (id : NodeId) (label : Label) : ScopeTable :=
  match label with
  | .identifier name _ _ =>
    if t.isDeclaration id then t
    else match t.lookup? s name with
      | some b => t.refer b id s
      | none => t.addUnresolved id
  | _ => t

mutual

/-- Resolve the identifiers at and below a node that declare nothing. -/
def referTree (t : ScopeTable) (s : ScopeId) : Node → ScopeTable
  | ⟨id, _, _, label, children⟩ =>
    let inner := (t.scopeOpenedBy? id).getD s
    referTrees (t.referNode inner id label) inner children

/-- `referTree` on several trees. -/
def referTrees (t : ScopeTable) (s : ScopeId) : List Node → ScopeTable
  | [] => t
  | n :: ns => referTrees (referTree t s n) s ns

end

/-- The table of a tree. -/
def resolve (root : Node) : ScopeTable :=
  ((ofProgram root.id).declareTree false 0 root).referTree 0 root

end ScopeTable
end JsxLint
