import JsxLint.Scope.Resolution
import JsxLint.Syntax.Document

/-!
# Documents with their scopes

A document and the scope table that was made for it. The table refers to nodes by name, so it
stays usable while the document is edited.

* `Workspace.scopeOf`: the innermost scope around a node;
* `Workspace.renameConflict?`: why a binding must not get a name;
* `Workspace.rename`: another name for a binding, at its declaration and all references;
* `Workspace.referencesWithin`: the references of a binding inside a node.
-/

namespace JsxLint

/-- A document and the table of its scopes. -/
structure Workspace where
  document : Document
  scopes : ScopeTable
  deriving Inhabited

/-- Why a binding must not get a name. -/
inductive RenameConflict
  /-- The scope of the binding has the name already. -/
  | bound (name : String)
  /-- A reference to the binding would find another one. -/
  | shadowed (name old : String) (line : Nat)
  /-- A reference to a binding further out would find this one. -/
  | captured (name : String) (line : Nat)
  /-- A name that no declaration explains would find this binding. -/
  | capturedGlobal (name : String) (line : Nat)
  deriving DecidableEq, Repr

/-- The words for a conflict. -/
def RenameConflict.message : RenameConflict → String
  | .bound name => "'" ++ name ++ "' is already bound in the same scope"
  | .shadowed name old line =>
    "'" ++ name ++ "' is shadowed where '" ++ old ++ "' is used (line " ++ toString line ++ ")"
  | .captured name line =>
    "'" ++ name ++ "' from an outer scope is used at line " ++ toString line
  | .capturedGlobal name line => "global '" ++ name ++ "' is used at line " ++ toString line

namespace Workspace

/-- A document with its scopes resolved afresh. -/
def ofDocument (d : Document) : Workspace :=
  ⟨d, .resolve d.root⟩

/-- The innermost scope around a node; for a resolved identifier, the scope it was resolved in. -/
def scopeOf (w : Workspace) (id : NodeId) : ScopeId :=
  match w.scopes.usedIn.lookup id with
  | some s => s
  | none =>
    let above := ((w.document.node? id).map w.document.ancestors).getD []
    (above.findSome? fun n => w.scopes.scopeOpenedBy? n.id).getD 0

/-- The scopes around a node, the nearest first. -/
def scopesAround (w : Workspace) (id : NodeId) : List ScopeId :=
  w.scopes.chain (w.scopeOf id)

/-- The line of a node. -/
def lineOf (w : Workspace) (id : NodeId) : Nat :=
  ((w.document.node? id).map (·.line)).getD 0

/-! ### Renaming -/

/-- Whether a name used at an identifier, and bound in `owner`, would find the scope `s` first. -/
def isCaptured (w : Workspace) (identifier : NodeId) (s : ScopeId) (owner : Option ScopeId) : Bool :=
  match (w.scopesAround identifier).find? fun candidate =>
      some candidate == owner || candidate == s with
  | some candidate => some candidate != owner
  | none => false

/-- Whether a name is bound between an identifier and the scope `s` further out. -/
def isShadowed (w : Workspace) (identifier : NodeId) (s : ScopeId) (name : String) : Bool :=
  ((w.scopesAround identifier).takeWhile (· != s)).any fun inner =>
    (w.scopes.bound? inner name).isSome

/-- The first reference of a binding that would find another one under the name. -/
def shadowedReference? (w : Workspace) (binding : Binding) (name : String) :
    Option RenameConflict :=
  (binding.references.find? fun r => w.isShadowed r binding.scope name).map fun r =>
    .shadowed name binding.name (w.lineOf r)

/-- The first reference of another binding of that name that would find this one. -/
def capturedReference? (w : Workspace) (b : BindingId) (binding : Binding) (name : String) :
    Option RenameConflict :=
  w.scopes.listed.findSome? fun o =>
    match w.scopes.bindings[o]? with
    | none => none
    | some other =>
      if o = b || other.name != name then none
      else (other.references.find? fun r => w.isCaptured r binding.scope (some other.scope)).map
        fun r => .captured name (w.lineOf r)

/-- The first unexplained name that would find this binding. -/
def capturedGlobal? (w : Workspace) (binding : Binding) (name : String) : Option RenameConflict :=
  (w.scopes.unresolved.find? fun r =>
    ((w.document.node? r).map (·.text)) == some name && w.isCaptured r binding.scope none).map
      fun r => .capturedGlobal name (w.lineOf r)

/-- Why a binding must not get a name; none when that would change no reference. -/
def renameConflict? (w : Workspace) (b : BindingId) (name : String) : Option RenameConflict :=
  w.scopes.bindings[b]?.bind fun binding =>
    if (w.scopes.bound? binding.scope name).isSome then some (.bound name)
    else (w.shadowedReference? binding name).or <|
      (w.capturedReference? b binding name).or (w.capturedGlobal? binding name)

/-- Give a binding another name, at its declaration and at all references. -/
def rename (w : Workspace) (b : BindingId) (name : String) : Workspace :=
  match w.scopes.bindings[b]? with
  | none => w
  | some binding =>
    let relist : Scope → Scope := fun scope =>
      { scope with names := putName name b (dropName binding.name scope.names) }
    { document := (binding.declaration :: binding.references).foldl (·.rename · name) w.document
      scopes := { w.scopes with
        scopes := w.scopes.scopes.modify binding.scope relist
        bindings := w.scopes.bindings.modify b fun binding => { binding with name } } }

/-! ### References -/

/-- The references of a binding at or below a node. -/
def referencesWithin (binding : Binding) (n : Node) : List NodeId :=
  let ids := n.walk.map (·.id)
  binding.references.filter ids.contains

/-- The binding that an identifier declares or refers to. -/
def bindingOf? (w : Workspace) (identifier : NodeId) : Option (BindingId × Binding) :=
  (w.scopes.bindingOf? identifier).bind fun b => (w.scopes.bindings[b]?).map (b, ·)

end Workspace
end JsxLint
