import JsxLint.Rule.Basic

/-!
# Void elements

Elements that never have content are written as one tag. The rule reports intrinsic ones that are
written with a closing tag and nothing, or blank text only, before it; the repair leaves one tag.
-/

namespace JsxLint.Rule.VoidElement

/-- The tags of elements without content. -/
def voidTags : List String :=
  ["img", "input", "br", "hr", "meta", "link", "area", "base", "col", "embed", "source", "track",
    "wbr"]

/-- What the rule says about itself. -/
def info : RuleInfo where
  id := "self-closing-tag"
  name := "Self-closing tags"
  form := "SelfClosingTagRule"
  category := .structures
  severity := .info
  message := "Empty tags should be self-closing"
  hint := some "Use self-closing syntax for empty tags (e.g., <img />)"

/-- Whether a tag name is that of an element without content, in any case. -/
def isVoidName (name : Node) : Bool :=
  match name.label with
  | .markupName tag => voidTags.contains (Letter.lower tag)
  | _ => false

/-- Reports void elements with a closing tag and blank content. -/
def detect (w : Workspace) (nodes : List Node) : List Finding :=
  (elements nodes).filterMap fun (n, parts) =>
    if parts.name?.any isVoidName && !n.isSelfClosing && parts.content.all (·.isBlankText) then
      some (info.report w n (some n.tag))
    else none

/-- Leave one tag of the element. -/
def repair : Repair := fun w finding =>
  match w.document.node? finding.node with
  | none => .error .alreadySelfClosing
  | some n =>
    match n.element? with
    | none => .error .alreadySelfClosing
    | some parts =>
      if n.isSelfClosing || parts.closing.isNone then .error .alreadySelfClosing
      else if !parts.content.all (·.isBlankText) then .error .hasChildren
      else
        .ok (info.change finding .collapseTag (some ("<" ++ n.tag ++ "></" ++ n.tag ++ ">"))
            (some ("<" ++ n.tag ++ " />")) (some "made self-closing"),
          { w with document := w.document.collapse n.id })

end VoidElement

/-- Reports and collapses void elements with a closing tag. -/
def selfClosingTag : Rule :=
  { VoidElement.info with
    detect := VoidElement.detect
    repair? := some VoidElement.repair }

end JsxLint.Rule
