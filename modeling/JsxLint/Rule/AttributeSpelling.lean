import JsxLint.Rule.Basic

/-!
# Spelling of attributes

Attributes that are spelled as in plain markup have another name in components. Two rules, for two
tables of spellings, report them and rename them unless the tag has the other name already.
-/

namespace JsxLint.Rule.AttributeSpelling

/-- Words of the host language, which cannot be used as property names. -/
def reservedNames : List (String × String) :=
  [("class", "className"), ("for", "htmlFor")]

/-- Lower-case spellings and the names that are expected. -/
def camelCaseNames : List (String × String) :=
  [("tabindex", "tabIndex"), ("readonly", "readOnly"), ("maxlength", "maxLength"),
    ("minlength", "minLength"), ("cellpadding", "cellPadding"), ("cellspacing", "cellSpacing"),
    ("rowspan", "rowSpan"), ("colspan", "colSpan"), ("usemap", "useMap"),
    ("frameborder", "frameBorder"), ("contenteditable", "contentEditable"),
    ("crossorigin", "crossOrigin"), ("datetime", "dateTime"), ("enctype", "encType"),
    ("formaction", "formAction"), ("formenctype", "formEncType"), ("formmethod", "formMethod"),
    ("formnovalidate", "formNoValidate"), ("formtarget", "formTarget"), ("hreflang", "hrefLang"),
    ("inputmode", "inputMode"), ("keyparams", "keyParams"), ("keytype", "keyType"),
    ("marginheight", "marginHeight"), ("marginwidth", "marginWidth"),
    ("mediagroup", "mediaGroup"), ("novalidate", "noValidate"), ("radiogroup", "radioGroup"),
    ("spellcheck", "spellCheck"), ("srcdoc", "srcDoc"), ("srclang", "srcLang"),
    ("srcset", "srcSet"), ("targetid", "targetId")]

/-- Reports every attribute whose name is in the table. -/
def detect (info : RuleInfo) (names : List (String × String)) (w : Workspace)
    (nodes : List Node) : List Finding :=
  (attributes nodes).filterMap fun (n, name, _) =>
    if (names.lookup name).isSome then some (info.report w n (some name)) else none

/-- The opening tag that an attribute knows as its parent. -/
def openingAround? (w : Workspace) (n : Node) : Option Node :=
  (n.parent.bind w.document.node?).filter fun parent => parent.opening?.isSome

/-- Rename the attribute unless its tag has the other name already. -/
def repair (info : RuleInfo) (names : List (String × String)) : Repair := fun w finding =>
  match w.document.node? finding.node with
  | none => .error .notInTree
  | some n =>
    match n.attribute? with
    | none => .error .notInTree
    | some (name, _) =>
      match names.lookup name.text with
      | none => .error (.alreadyRenamed name.text)
      | some newName =>
        if ((openingAround? w n).bind (·.findAttribute? newName)).isSome then
          .error (.hasAttribute newName)
        else
          .ok (info.change finding .renameAttribute (some name.text) (some newName) none,
            { w with document := w.document.rename name.id newName })

/-- What the rule on reserved words says about itself. -/
def reservedInfo : RuleInfo where
  id := "reserved-prop"
  name := "Reserved prop names"
  form := "ReservedPropRule"
  category := .attributes
  severity := .error
  message := "Using reserved prop names (class, for)"
  hint := some "Use className instead of class, htmlFor instead of for"

/-- What the rule on lower-case spellings says about itself. -/
def camelCaseInfo : RuleInfo where
  id := "camelCase-attribute"
  name := "CamelCase attributes"
  form := "CamelCaseAttributeRule"
  category := .attributes
  severity := .warning
  message := "HTML attributes should use camelCase in JSX"
  hint := some "Convert HTML attributes to camelCase (e.g., tabindex → tabIndex)"

/-- The rule for a table of spellings. -/
def rule (info : RuleInfo) (names : List (String × String)) : Rule :=
  { info with
    detect := detect info names
    repair? := some (repair info names) }

end AttributeSpelling

/-- Reports and renames attributes that are words of the host language. -/
def reservedProp : Rule :=
  AttributeSpelling.rule AttributeSpelling.reservedInfo AttributeSpelling.reservedNames

/-- Reports and renames attributes in lower-case spelling. -/
def camelCaseAttribute : Rule :=
  AttributeSpelling.rule AttributeSpelling.camelCaseInfo AttributeSpelling.camelCaseNames

end JsxLint.Rule
