import JsxLint.Rule.Basic

/-!
# Rules that only observe

The rules without a repair: nested and conditional expressions, mixed quotes, raw markup, values
shown in markup, fragments, spread attributes and functions written inline.
-/

namespace JsxLint.Rule

/-! ### Expressions -/

/-- Reports braces with a choice whose second outcome is again a choice. -/
def nestedTernary : Rule :=
  let info : RuleInfo :=
    { id := "nested-ternary"
      name := "Complex expressions in JSX"
      form := "NestedTernaryRule"
      category := .expressions
      severity := .info
      message := "Complex expressions in JSX reduce readability"
      hint := some "Extract complex expressions to variables or functions" }
  { info with
    detect := fun w nodes => (containers nodes).filterMap fun (n, expression) =>
      match ((expression.bind Node.alternate?).map Node.unwrapped).map Node.label with
      | some .conditional => some (info.report w n (some "Nested ternary expression"))
      | _ => none
    repair? := none }

/-- Praises braces with a choice or with `&&`. -/
def conditionalRendering : Rule :=
  let info : RuleInfo :=
    { id := "conditional-rendering"
      name := "Conditional rendering"
      form := "ConditionalRenderingRule"
      category := .expressions
      severity := .good
      message := "Good use of conditional rendering"
      hint := none }
  { info with
    detect := fun w nodes => (containers nodes).filterMap fun (n, expression) =>
      match expression.map Node.label with
      | some .conditional => some (info.report w n (some "ternary"))
      | some (.logical "&&") => some (info.report w n (some "short-circuit"))
      | _ => none
    repair? := none }

/-! ### Attributes -/

/-- The quote of a string literal. -/
def quoteOf? (value : Option Node) : Option String :=
  match value.map Node.label with
  | some (.stringLiteral _ quote) => some quote
  | _ => none

/-- Reports, once a file, the first attribute in the quotes that are used less often. -/
def quoteConsistency : Rule :=
  let info : RuleInfo :=
    { id := "quote-consistency"
      name := "Quote consistency"
      form := "QuoteConsistencyRule"
      category := .attributes
      severity := .warning
      message := "Inconsistent quote usage in JSX attributes"
      hint := some "Use consistent quotes (prefer double quotes for JSX)" }
  { info with
    detect := fun w nodes =>
      let quotedBy : String → List Node := fun quote =>
        (attributes nodes).filterMap fun (n, _, value) =>
          if quoteOf? value == some quote then some n else none
      let single := quotedBy "'"
      let double := quotedBy "\""
      if single.isEmpty || double.isEmpty then []
      else
        let detail := "Mixed quotes: " ++ toString single.length ++ " single, " ++
          toString double.length ++ " double"
        let minority := if double.length < single.length then double else single
        (minority.take 1).map fun n => info.report w n (some detail)
    repair? := none }

/-! ### Security -/

/-- Reports raw markup, for nothing shows that it was made safe. -/
def dangerousHtml : Rule :=
  let info : RuleInfo :=
    { id := "dangerous-html"
      name := "dangerouslySetInnerHTML"
      form := "DangerousHtmlRule"
      category := .security
      severity := .warning
      message := "Using dangerouslySetInnerHTML - ensure content is sanitized"
      hint := some "Sanitize content or use text content instead" }
  { info with
    detect := fun w nodes => (attributes nodes).filterMap fun (n, name, _) =>
      if name = "dangerouslySetInnerHTML" then some (info.report w n none) else none
    repair? := none }

/-- Praises bound names that are shown in markup. -/
def safeInterpolation : Rule :=
  let info : RuleInfo :=
    { id := "safe-interpolation"
      name := "User input in JSX"
      form := "SafeInterpolationRule"
      category := .security
      severity := .good
      message := "User input is safely rendered in JSX"
      hint := none }
  let inMarkup : Workspace → Node → Bool := fun w n =>
    ((n.parent.bind w.document.node?).map (·.label.isMarkup)).getD false
  { info with
    detect := fun w nodes => nodes.filterMap fun n =>
      match n.label, n.children.head? with
      | .container _, some expression =>
        if expression.label.isIdentifier && inMarkup w n &&
            (w.scopes.bindingOf? expression.id).isSome then
          some (info.report w n (some expression.text))
        else none
      | _, _ => none
    repair? := none }

/-! ### Structure -/

/-- Whether a tag name spells `Fragment`, by itself or as a property. -/
def namesFragment (name : Node) : Bool :=
  match name.label with
  | .identifier name _ _ => name == "Fragment"
  | .member property => property == "Fragment"
  | _ => false

/-- Praises fragments. -/
def fragmentUsage : Rule :=
  let info : RuleInfo :=
    { id := "fragment-usage"
      name := "Fragment usage"
      form := "FragmentUsageRule"
      category := .structures
      severity := .good
      message := "Good use of React Fragments"
      hint := none }
  let isFragment : Node → Bool := fun n =>
    match n.label with
    | .fragment _ => true
    | _ => false
  { info with
    detect := fun w nodes =>
      let written := nodes.filter isFragment
      let named := (elements nodes).filter fun (_, parts) => parts.name?.any namesFragment
      (written ++ named.map (·.1)).map fun n => info.report w n (some "Using React Fragment")
    repair? := none }

/-! ### Naming and passing -/

/-- Reports spread attributes. -/
def propsSpreading : Rule :=
  let info : RuleInfo :=
    { id := "props-spreading"
      name := "Props spreading"
      form := "PropsSpreadingRule"
      category := .naming
      severity := .info
      message := "Avoid excessive props spreading"
      hint := some "Be explicit about which props to pass" }
  { info with
    detect := fun w nodes =>
      (nodes.filter (·.label == .spreadAttribute)).map fun n => info.report w n none
    repair? := none }

/-- Reports attributes whose value is a function written in place. -/
def inlineFunction : Rule :=
  let info : RuleInfo :=
    { id := "inline-function"
      name := "Inline functions"
      form := "InlineFunctionRule"
      category := .naming
      severity := .info
      message := "Inline function definitions in JSX can impact performance"
      hint := some "Extract functions outside render or use useCallback" }
  { info with
    detect := fun w nodes => (attributes nodes).filterMap fun (n, name, value) =>
      match containers value.toList with
      | [(_, some expression)] =>
        if expression.label.isFunctionValue then some (info.report w n (some name)) else none
      | _ => none
    repair? := none }

end JsxLint.Rule
