import JsxLint.Rule.Finding
import JsxLint.Text.Blank
import JsxLint.Text.Letter

/-!
# Rules

A rule looks at the nodes of a document and reports findings; some rules can also repair what they
found. A repair either gives a change and the edited workspace, or a reason and nothing else, so a
refused repair leaves no trace.

* `RuleInfo`: what a rule says about itself;
* `Rule`: a rule with its detection and, when it has one, its repair;
* `RuleInfo.report`, `RuleInfo.change`: findings and changes of a rule.
-/

namespace JsxLint

/-- What a rule says about itself. -/
structure RuleInfo where
  id : String
  name : String
  /-- The word for the rule in listings of values. -/
  form : String
  category : Category
  severity : Severity
  message : String
  hint : Option String
  deriving Repr, Inhabited

/-- A repair of one finding. -/
abbrev Repair := Workspace → Finding → Except Reason (Change × Workspace)

/-- A named check, with a repair for those that have one. -/
structure Rule extends RuleInfo where
  /-- The findings among the given nodes of a workspace. -/
  detect : Workspace → List Node → List Finding
  repair? : Option Repair

namespace RuleInfo

/-- A finding of the rule at a node. -/
def report (info : RuleInfo) (w : Workspace) (n : Node) (detail : Option String) : Finding where
  rule := info.id
  severity := info.severity
  category := info.category
  message := info.message
  file := w.document.source.path
  line := n.place.position.line
  column := n.place.position.column
  hint := info.hint
  detail := detail
  node := n.id

/-- A change that repairs a finding of the rule. -/
def change (info : RuleInfo) (finding : Finding) (kind : ChangeKind)
    (before after action : Option String) : Change where
  rule := info.id
  kind := kind
  file := finding.file
  line := finding.line
  before := before
  after := after
  action := action
  finding := finding

end RuleInfo

namespace Rule

/-- Whether the rule can repair what it finds. -/
def isFixable (r : Rule) : Bool :=
  r.repair?.isSome

/-- The record in which a rule describes itself. -/
def record (r : Rule) : Json :=
  .obj [("id", .str r.id), ("name", .str r.name), ("category", .str r.category.word),
    ("severity", .str r.severity.word), ("fixable", .bool r.isFixable),
    ("message", .str r.message), ("hint", Json.ofText? r.hint)]

/-- The rule in listings of values. -/
def shown (r : Rule) : String :=
  "<" ++ r.form ++ " " ++ r.id ++ ">"

end Rule

/-! ### Nodes by label -/

/-- The braces in markup among some nodes, each with its expression without parentheses. -/
def containers (nodes : List Node) : List (Node × Option Node) :=
  nodes.filterMap fun n =>
    match n.label with
    | .container _ => some (n, n.children.head?.map Node.unwrapped)
    | _ => none

/-- The attributes among some nodes, each with its name and value. -/
def attributes (nodes : List Node) : List (Node × String × Option Node) :=
  nodes.filterMap fun n => n.attribute?.map fun (name, value) => (n, name.text, value)

/-- The elements among some nodes, each with its parts. -/
def elements (nodes : List Node) : List (Node × ElementParts) :=
  nodes.filterMap fun n => n.element?.map (n, ·)

/-- The name in the opening tag of an element. -/
def ElementParts.name? (parts : ElementParts) : Option Node :=
  parts.opening.opening?.map (·.1)

/-- Text that markup drops: white space with a line break in it. -/
def Node.isBlankText (n : Node) : Bool :=
  match n.label with
  | .markupText text => text.toList.all Text.isBlank && text.toList.contains '\n'
  | _ => false

end JsxLint
