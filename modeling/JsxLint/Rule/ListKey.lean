import JsxLint.Rule.Basic

/-!
# Keys in lists

Elements that the callback of `.map` gives back need a `key`. The repair keys an element on the
second parameter of the callback and adds that parameter, named `index`, when the callback takes
fewer than two; a callback without parameters first gets one named `_`.
-/

namespace JsxLint.Rule.ListKey

/-- What the rule says about itself. -/
def info : RuleInfo where
  id := "missing-key"
  name := "Key props in lists"
  form := "MissingKeyRule"
  category := .structures
  severity := .error
  message := "Missing key prop in list items"
  hint := some "Add unique key prop to list items"

/-! ### Detection -/

/-- The callback of a call of `.map`. -/
def mapCallback? (n : Node) : Option Node :=
  match n.call? with
  | some (callee, first :: _) =>
    if callee.label = .member "map" && first.unwrapped.label.isFunctionValue then
      some first.unwrapped
    else none
  | _ => none

/-- The elements that a function gives back. -/
def returnedElements (f : Node) : List Node :=
  f.returned.filter fun n => n.element?.isSome

/-- Whether the opening tag of an element has a `key`. -/
def hasKey (element : Node) : Bool :=
  (element.element?.bind fun parts => parts.opening.findAttribute? "key").isSome

/-- Reports the elements without a `key` that callbacks of `.map` give back. -/
def detect (w : Workspace) (nodes : List Node) : List Finding :=
  (nodes.filterMap mapCallback?).flatMap fun callback =>
    ((returnedElements callback).filter (!hasKey ·)).map fun n =>
      info.report w n (some n.tag |>.filter (· != ""))

/-! ### Repair -/

/-- The name of the parameter that counts the list. -/
def indexName : String := "index"

/-- The name of a parameter put in for the list's element. -/
def placeholderName : String := "_"

/-- The identifier that a parameter consists of, a type annotation aside. -/
def plainIdentifier? (parameter : Node) : Option Node :=
  if parameter.label.isIdentifier then some parameter
  else if parameter.isOther "required_parameter" || parameter.isOther "optional_parameter" then
    (parameter.part? "pattern").filter (·.label.isIdentifier)
  else none

/-- Why an identifier would change its meaning if the callback had a parameter of its name. -/
def shadowing? (w : Workspace) (callback : Node) (name : String) (identifier : Node) :
    Option Reason :=
  match w.bindingOf? identifier.id with
  | none => some (.shadowsGlobal name identifier.line)
  | some (_, binding) =>
    let owner := (w.scopes.scopes[binding.scope]?).bind fun s => w.document.node? s.node
    let isInside := owner.any fun n => n.id = callback.id || w.document.isBelow n callback.id
    if isInside then none else some (.shadowsOuter name identifier.line)

/-- Why a new parameter would change what the callback refers to. -/
def introductionConflict? (w : Workspace) (callback : Node) (s : ScopeId) (name : String) :
    Option Reason :=
  if (w.scopes.bound? s name).isSome then some (.boundInCallback name)
  else (callback.identifiersNamed name).findSome? (shadowing? w callback name)

/-- An identifier that an edit makes. -/
def madeIdentifier (name : String) : Node :=
  Node.made (.identifier name name none) []

/-- Add a parameter to a callback and declare it in the callback's scope. -/
def addParameter (parameters : Node) (s : ScopeId) (w : Workspace) (name : String) : Workspace :=
  let (added, document) := w.document.addParameter parameters (madeIdentifier name)
  { document, scopes := (w.scopes.declare s added.id name "param").2 }

/-- The attribute that keys an element on a name. -/
def keyAttribute (name : String) : Node :=
  Node.made .markupAttribute
    [Node.made (.markupName "key") [], Node.made (.container false) [madeIdentifier name]]

/-- The identifier that a `key` attribute made by `keyAttribute` refers to. -/
def keyReference? (added : Node) : Option NodeId :=
  ((added.children.getLast?).bind (·.children.head?)).map (·.id)

/-- Key an element on a name, and note that the key refers to the name's binding. -/
def insertKey (w : Workspace) (element opening : Node) (name : String) (b : Option BindingId) :
    Workspace :=
  let (added, document) := w.document.insertAttribute opening 0 (keyAttribute name)
  match b, keyReference? added with
  | some b, some reference =>
    { document, scopes := w.scopes.refer b reference (w.scopeOf element.id) }
  | _, _ => { w with document }

/-- The names of the parameters that a callback lacks. -/
def missingNames (parameters : List Node) : List String :=
  if parameters.isEmpty then [placeholderName, indexName] else [indexName]

/-- The workspace in which the callback has a second parameter, that parameter's name and its
binding. -/
def withIndex (w : Workspace) (callback parameters : Node) (s : ScopeId) :
    Except Reason (Workspace × String × Option BindingId) :=
  match parameters.children with
  | _ :: second :: _ =>
    match plainIdentifier? second with
    | none => .error .indexNotPlain
    | some index => .ok (w, index.text, w.scopes.bindingOf? index.id)
  | few =>
    match (missingNames few).findSome? (introductionConflict? w callback s) with
    | some reason => .error reason
    | none =>
      let w := (missingNames few).foldl (addParameter parameters s) w
      let document := w.document.modifyLabel parameters.id fun _ => .parameters true
      .ok ({ w with document }, indexName, w.scopes.bound? s indexName)

/-- Key the element on the second parameter of the callback around it. -/
def repair : Repair := fun w finding => do
  let some element := w.document.node? finding.node | throw .noCallback
  let some parts := element.element? | throw .noCallback
  if hasKey element then throw .hasKey
  let some callback := w.document.enclosingFunction? element | throw .noCallback
  let some s := w.scopes.scopeOpenedBy? callback.id | throw .noCallback
  let some functionParts := callback.function? | throw .noCallback
  let (w, name, b) ← withIndex w callback functionParts.parameters s
  let change := info.change finding .insertAttribute none
    (some ("key=\x7b" ++ name ++ "\x7d")) (some "added key prop")
  return (change, insertKey w element parts.opening name b)

end ListKey

/-- Reports elements of lists without a key and keys them on the list's index. -/
def missingKey : Rule :=
  { ListKey.info with
    detect := ListKey.detect
    repair? := some ListKey.repair }

end JsxLint.Rule
