import JsxLint.Rule.AttributeSpelling
import JsxLint.Rule.ComponentName
import JsxLint.Rule.EmptyExpression
import JsxLint.Rule.ListKey
import JsxLint.Rule.Observation
import JsxLint.Rule.VoidElement

/-!
# The rules

* `Rule.all`: every rule, in the order in which they report;
* `Rule.find?`: a rule by its id;
* `Rule.enabled`: the rules that are left when some are switched off.
-/

namespace JsxLint.Rule

/-- Every rule, in the order in which they report. -/
def all : List Rule :=
  [emptyExpression, nestedTernary, conditionalRendering, quoteConsistency, reservedProp,
    camelCaseAttribute, dangerousHtml, safeInterpolation, selfClosingTag, fragmentUsage,
    missingKey, componentNaming, propsSpreading, inlineFunction]

/-- The rule with the given id. -/
def find? (id : String) : Option Rule :=
  all.find? (·.id == id)

/-- The ids of all rules in alphabetical order. -/
def sortedIds : List String :=
  (all.map (·.id)).mergeSort fun a b => decide (a ≤ b)

/-- Ids that no rule has, in alphabetical order and each once. -/
def unknownIds (ids : List String) : List String :=
  ((ids.filter fun id => (find? id).isNone).eraseDups).mergeSort fun a b => decide (a ≤ b)

/-- The rules without those that are switched off, or the ids that no rule has. -/
def enabled (disabled : List String) : Except (List String) (List Rule) :=
  match unknownIds disabled with
  | [] => .ok (all.filter fun rule => !disabled.contains rule.id)
  | unknown => .error unknown

/-- The words for ids that no rule has. -/
def unknownMessage (ids : List String) : String :=
  "Unknown rule id(s): " ++ Text.joined ", " ids

end JsxLint.Rule
