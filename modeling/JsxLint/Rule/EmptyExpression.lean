import JsxLint.Rule.Basic

/-!
# Empty braces

Braces in markup with neither an expression nor a comment say nothing. Among the children of an
element or a fragment they can go; in any other place they cannot simply be left out.
-/

namespace JsxLint.Rule.EmptyExpression

/-- What the rule says about itself. -/
def info : RuleInfo where
  id := "empty-expression"
  name := "Empty JSX expressions"
  form := "EmptyExpressionRule"
  category := .expressions
  severity := .warning
  message := "Avoid empty JSX expressions \x7b\x7d"
  hint := some "Remove empty expressions or add meaningful content"

/-- Reports every pair of empty braces. -/
def detect (w : Workspace) (nodes : List Node) : List Finding :=
  (nodes.filter (·.isEmptyContainer)).map fun n => info.report w n none

/-- The element or fragment that a node knows as its parent. -/
def markupParent? (w : Workspace) (n : Node) : Option Node :=
  (n.parent.bind w.document.node?).filter (·.label.isMarkup)

/-- Take the braces out of the content around them. -/
def repair : Repair := fun w finding =>
  let braces := w.document.node? finding.node
  match braces.bind (markupParent? w) with
  | none => .error .notAChild
  | some parent =>
    match w.document.removeChild? parent.id finding.node with
    | none => .error .notInTree
    | some document =>
      let written := (braces.map w.document.textOf).getD ""
      let before := if written = "" then "\x7b\x7d" else written
      .ok (info.change finding .removeExpression (some before) none (some "removed"),
        { w with document })

end EmptyExpression

/-- Reports and removes empty braces. -/
def emptyExpression : Rule :=
  { EmptyExpression.info with
    detect := EmptyExpression.detect
    repair? := some EmptyExpression.repair }

end JsxLint.Rule
