import JsxLint.Rule.Basic

/-!
# Names of components

A function that gives back markup is a component, and the names of components start with a capital
letter. The repair renames the function's binding, unless other files know it by its name or the
new name would change what some identifier refers to.
-/

namespace JsxLint.Rule.ComponentName

/-- What the rule says about itself. -/
def info : RuleInfo where
  id := "component-naming"
  name := "Component naming"
  form := "ComponentNamingRule"
  category := .naming
  severity := .warning
  message := "Component names should be PascalCase"
  hint := some "Rename components to use PascalCase"

/-- The name of a function declaration, and the function. -/
def declaredFunction? (n : Node) : Option (Node × Node) :=
  match n.label with
  | .functionDeclaration _ => (n.function?.bind (·.name)).map (·, n)
  | _ => none

/-- The name of a variable whose initial value is a function, and the function. -/
def assignedFunction? (n : Node) : Option (Node × Node) :=
  match n.declarator? with
  | some (name, some value) =>
    if name.label.isIdentifier && value.unwrapped.label.isFunctionValue then
      some (name, value.unwrapped)
    else none
  | _ => none

/-- The functions that have a name: declared ones, then those that are values of variables. -/
def namedFunctions (nodes : List Node) : List (Node × Node) :=
  nodes.filterMap declaredFunction? ++ nodes.filterMap assignedFunction?

/-- Reports the names of components that start with a small letter. -/
def detect (w : Workspace) (nodes : List Node) : List Finding :=
  (namedFunctions nodes).filterMap fun (name, f) =>
    if Letter.startsLower name.text && f.returnsMarkup then
      some (info.report w name (some name.text))
    else none

/-- Whether the way up from a name ends at a node: at a function or a variable that is not the
name's own. -/
def endsExport (name n : Node) : Bool :=
  (n.label.isFunction || n.label = .variableDeclarator) && name.parent != some n.id

/-- The export statement that a name is declared in. -/
def exportAround? (d : Document) (name : Node) : Option Node :=
  ((d.ancestors name).find? fun n =>
    n.isOther "export_statement" || endsExport name n).filter (·.isOther "export_statement")

/-- Whether an export statement makes a name known to other files by that name. -/
def isNamedExport (d : Document) (statement : Node) : Bool :=
  !"export default".toList.isPrefixOf (d.textOf statement).toList

/-- Give the component a name that starts with a capital letter. -/
def repair : Repair := fun w finding => do
  let some identifier := w.document.node? finding.node | throw (.noDeclaration "")
  let some (b, binding) := w.bindingOf? identifier.id | throw (.noDeclaration identifier.text)
  if binding.declaration != identifier.id then throw (.noDeclaration identifier.text)
  if (exportAround? w.document identifier).any (isNamedExport w.document) then
    throw (.namedExport identifier.text)
  let newName := Letter.capitalise binding.name
  if let some reason := w.renameConflict? b newName then throw (.conflict reason)
  return (info.change finding .rename (some binding.name) (some newName) none, w.rename b newName)

end ComponentName

/-- Reports and renames components whose names start with a small letter. -/
def componentNaming : Rule :=
  { ComponentName.info with
    detect := ComponentName.detect
    repair? := some ComponentName.repair }

end JsxLint.Rule
