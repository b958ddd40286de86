import Mathlib.Data.List.Forall2
import JsxLint.Proofs.Syntax.Tree
import JsxLint.Syntax.Reading

/-!
# The outline of reading

What reading makes of a concrete tree, as a table: a part of a concrete tree, together with the way
it is read, has a label and a list of parts below it. A reading fills the outline of its part.

* `Part`: a concrete node and the way it is read;
* `Part.outline`: its label and the parts below it;
* `ReadAs`: the syntax trees that fill the outline of a part;
* `tree_readAs`: whatever is read fills the outline.
-/

namespace JsxLint.Reading

/-- A concrete node and the way it is read. -/
inductive Part
  /-- A node by its kind. -/
  | node (c : Concrete)
  /-- An identifier, whatever the grammar calls it. -/
  | name (c : Concrete)
  /-- The name of an intrinsic tag or of an attribute. -/
  | markupName (c : Concrete)
  /-- What declares the name of a class, `named` being the first child that could. -/
  | className (named c : Concrete)
  | parameters (c : Concrete)
  /-- The empty parameter list of a function that has none. -/
  | noParameters
  | opening (selfClosing : Bool) (c : Concrete)
  | closing (c : Concrete)
  /-- Spread braces around what is spread. -/
  | spread (c inner : Concrete)
  /-- What is spread when that is missing. -/
  | nothing (c : Concrete)

/-- The kinds of names. -/
def nameKinds : List String :=
  ["identifier", "shorthand_property_identifier", "shorthand_property_identifier_pattern"]

/-- Whether a concrete node is read as an identifier: names are, and so are the specifiers of
exports that give no other name. -/
def isNamed (c : Concrete) : Bool :=
  nameKinds.contains c.kind || c.kind == "export_specifier" &&
    ((c.field? "name").filter (·.kind == "identifier")).isSome && (c.field? "alias").isNone

/-- The name of a tag as a part: names that start with a capital letter and dotted ones are read by
their kind. -/
def tagPart (s : Source) (c : Concrete) : Part :=
  if c.kind = "identifier" then
    if Letter.startsUpper (textOf s c) then .node c else .markupName c
  else if c.kind = "jsx_namespace_name" then .markupName c
  else .node c

/-- The parameter list of a function as a part. -/
def parametersPart : Option Concrete → Part
  | none => .noParameters
  | some c => .parameters c

/-- One child of an opening tag as a part, when it is an attribute. -/
def attributePart (c : Concrete) : Option Part :=
  if c.kind = "jsx_attribute" then some (.node c)
  else if c.kind = "jsx_expression" then
    some (match c.significant.head?.filter (·.kind == "spread_element") with
      | none => .node c
      | some inner => .spread c inner)
  else none

/-- One child of a class as a part. -/
def classPart (named : Option Concrete) (c : Concrete) : Part :=
  match named with
  | some name => if c.field == some "name" then .className name c else .node c
  | none => .node c

/-- A part of the parts that a node must have, as far as it has it. -/
def fieldPart (c : Concrete) (field : String) : List Part :=
  (c.field? field).toList.map .node

/-- The opening tag of an element. -/
def openTag? (c : Concrete) : Option Concrete :=
  ((c.field? "open_tag").or (c.firstNamed? "jsx_opening_element")).filter fun tag =>
    (tag.field? "name").isSome

/-- The closing tag of an element. -/
def closeTag? (c : Concrete) : Option Concrete :=
  (c.field? "close_tag").or (c.firstNamed? "jsx_closing_element")

/-- The content of an element. -/
def contentOf (c : Concrete) : List Concrete :=
  c.namedChildren.filter fun child =>
    child.kind != "jsx_opening_element" && child.kind != "jsx_closing_element"

/-- The arguments of a call. -/
def argumentsOf (c : Concrete) : List Concrete :=
  match c.field? "arguments" with
  | none => []
  | some list => if list.kind = "arguments" then list.significant else [list]

/-- The object of an access to a property. -/
def objectOf? (c : Concrete) : Option Concrete :=
  (c.field? "object").or c.significant.head?

/-- The property of an access to a property. -/
def propertyOf? (c : Concrete) : Option Concrete :=
  (c.field? "property").or (if c.significant.length > 1 then c.significant.getLast? else none)

/-- The names that an import binds. -/
def importedOf (c : Concrete) : List Concrete :=
  (c.namedChildren.filter (·.kind == "import_clause")).flatMap fun clause =>
    clause.namedChildren.flatMap importedNames

/-- The outline of other syntax: all that stands for rules. -/
def otherOutline (c : Concrete) (keyword : Option String) : Label × List Part :=
  (.other c.kind (c.namedChildren.map (·.field)) keyword, c.namedChildren.map .node)

/-- The outline of a function with a name, when it has one. -/
def functionOutline (label : Bool → Label) (c : Concrete) : Label × List Part :=
  (label (c.field? "name").isSome,
    fieldPart c "name" ++ parametersPart (c.field? "parameters") :: fieldPart c "body")

/-- The outline of an operation on two operands. -/
def binaryOutline (c : Concrete) : Label × List Part :=
  match (c.field? "operator").filter fun o => logicalOperators.contains o.kind with
  | none => otherOutline c none
  | some operator => (.logical operator.kind, fieldPart c "left" ++ fieldPart c "right")

/-- The outline of an expression in parentheses. -/
def parenthesizedOutline (c : Concrete) : Label × List Part :=
  match c.significant.head? with
  | some inner => (.parenthesized, [.node inner])
  | none => otherOutline c none

/-- The outline of an export. -/
def exportOutline (c : Concrete) : Label × List Part :=
  if (c.field? "source").isSome then (.other c.kind [] none, []) else otherOutline c none

/-- The outline of a name in an export list. -/
def specifierOutline (s : Source) (c : Concrete) : Label × List Part :=
  match (c.field? "name").filter (·.kind == "identifier") with
  | none => (.other c.kind [] none, [])
  | some name =>
    if (c.field? "alias").isNone then
      (.identifier (textOf s name) (textOf s name) (some .exported), [])
    else (.other c.kind [some "name"] none, [.name name])

/-- The outline of a class. -/
def classOutline (c : Concrete) : Label × List Part :=
  (.other c.kind (c.namedChildren.map (·.field)) none,
    c.namedChildren.map (classPart (c.field? "name")))

/-- The outline of an element or a fragment. -/
def elementOutline (c : Concrete) : Label × List Part :=
  match openTag? c with
  | none => (.fragment [], (contentOf c).map .node)
  | some tag =>
    (.element (closeTag? c).isSome [],
      .opening false tag :: (contentOf c).map .node ++ (closeTag? c).toList.map .closing)

/-- The outline of a node by its kind. -/
def nodeOutline (s : Source) (c : Concrete) : Label × List Part :=
  match c.kind with
  | "program" => (.program, c.namedChildren.map .node)
  | "statement_block" => (.block, c.namedChildren.map .node)
  | "function_declaration" | "generator_function_declaration" =>
    functionOutline .functionDeclaration c
  | "function_expression" | "function" | "generator_function" =>
    functionOutline .functionExpression c
  | "arrow_function" =>
    (.arrowFunction,
      parametersPart ((c.field? "parameters").or (c.field? "parameter")) :: fieldPart c "body")
  | "method_definition" =>
    (.functionExpression false, parametersPart (c.field? "parameters") :: fieldPart c "body")
  | "lexical_declaration" | "variable_declaration" =>
    (.variableDeclaration ((c.children.head?.map (·.kind)).getD "var"),
      (c.namedChildren.filter (·.kind == "variable_declarator")).map .node)
  | "variable_declarator" => (.variableDeclarator, fieldPart c "name" ++ fieldPart c "value")
  | "return_statement" => (.returnStatement, c.significant.head?.toList.map .node)
  | "call_expression" => (.call, fieldPart c "function" ++ (argumentsOf c).map .node)
  | "member_expression" =>
    (.member (((propertyOf? c).map (textOf s)).getD ""), (objectOf? c).toList.map .node)
  | "ternary_expression" =>
    (.conditional, fieldPart c "condition" ++ fieldPart c "consequence" ++ fieldPart c "alternative")
  | "binary_expression" => binaryOutline c
  | "parenthesized_expression" => parenthesizedOutline c
  | "identifier" => (.identifier (textOf s c) (textOf s c) none, [])
  | "shorthand_property_identifier" | "shorthand_property_identifier_pattern" =>
    (.identifier (textOf s c) (textOf s c) (some .property), [])
  | "string" => ((stringLiteral s c).label, [])
  | "import_statement" => (.importDeclaration, (importedOf c).map .node)
  | "export_statement" => exportOutline c
  | "export_specifier" => specifierOutline s c
  | "class_declaration" | "abstract_class_declaration" => classOutline c
  | "for_in_statement" => otherOutline c (loopKeyword? c)
  | "jsx_element" => elementOutline c
  | "jsx_self_closing_element" => (.element false [], [.opening true c])
  | "jsx_expression" =>
    (.container (c.namedChildren.any (·.kind == "comment")), c.significant.head?.toList.map .node)
  | "jsx_attribute" =>
    (.markupAttribute,
      c.significant.head?.toList.map .markupName ++ c.significant.tail.head?.toList.map .node)
  | "jsx_text" | "html_character_reference" => (.markupText (textOf s c), [])
  | _ => otherOutline c none

theorem nodeOutline_specifier {s : Source} {c : Concrete} (h : c.kind = "export_specifier") :
    nodeOutline s c = specifierOutline s c := by
  rw [nodeOutline]
  simp only [h]

namespace Part

/-- The label of a part and the parts below it. -/
def outline (s : Source) : Part → Label × List Part
  | .node c => nodeOutline s c
  | .name c => (.identifier (textOf s c) (textOf s c) none, [])
  | .markupName c => (.markupName (textOf s c), [])
  | .className named c =>
    if isNamed c then nodeOutline s c
    else (.identifier (textOf s named) (textOf s named) none, [])
  | .parameters c =>
    if c.kind = "formal_parameters" then (.parameters true, c.significant.map .node)
    else (.parameters false, [.node c])
  | .noParameters => (.parameters true, [])
  | .opening selfClosing c =>
    (.openingTag selfClosing,
      (c.field? "name").toList.map (tagPart s) ++ c.namedChildren.filterMap attributePart)
  | .closing c => (.closingTag, (c.field? "name").toList.map (tagPart s))
  | .spread _ inner =>
    (.spreadAttribute,
      [match inner.significant.head? with
        | some argument => .node argument
        | none => .nothing inner])
  | .nothing _ => (.other "empty" [] none, [])

/-- The concrete node that a part is placed at. -/
def concrete? : Part → Option Concrete
  | .node c | .name c | .markupName c | .parameters c | .opening _ c | .closing c | .spread c _
  | .nothing c => some c
  | .className named c => some (if isNamed c then c else named)
  | .noParameters => none

/-- The place of a part. -/
def place (s : Source) (p : Part) : Place :=
  (p.concrete?.map (placeOf s)).getD default

end Part

/-- Whether a part has the name that it must have: opening tags are not read without one. -/
def Part.hasName : Part → Bool
  | .opening _ c => (c.field? "name").isSome
  | _ => true

/-- The syntax trees that fill the outline of a part, whatever their nodes are called. -/
inductive ReadAs (s : Source) : Part → Node → Prop
  | fill {p : Part} {id : NodeId} {parent : Option NodeId} {kids : List Node} (hp : p.hasName)
      (h : List.Forall₂ (ReadAs s) (p.outline s).2 kids) :
      ReadAs s p ⟨id, parent, p.place s, (p.outline s).1, kids⟩

theorem ReadAs.label_eq {s : Source} {p : Part} {n : Node} (h : ReadAs s p n) :
    n.label = (p.outline s).1 := by
  cases h
  rfl

theorem ReadAs.place_eq {s : Source} {p : Part} {n : Node} (h : ReadAs s p n) :
    n.place = p.place s := by
  cases h
  rfl

/-! ### Reading in steps -/

theorem bind_eq_ok {ε α β : Type} {x : Except ε α} {f : α → Except ε β} {b : β} :
    x >>= f = .ok b ↔ ∃ a, x = .ok a ∧ f a = .ok b := by
  cases x with
  | error e => exact ⟨fun h => (by cases h), fun ⟨_, h, _⟩ => (by cases h)⟩
  | ok a => exact ⟨fun h => ⟨a, rfl, h⟩, fun ⟨_, h, h'⟩ => (by cases h; exact h')⟩

theorem map_eq_ok {ε α β : Type} {x : Except ε α} {f : α → β} {b : β} :
    f <$> x = .ok b ↔ ∃ a, x = .ok a ∧ f a = b := by
  cases x with
  | error e => exact ⟨fun h => (by cases h), fun ⟨_, h, _⟩ => (by cases h)⟩
  | ok a =>
    exact ⟨fun h => ⟨a, rfl, by cases h; rfl⟩, fun ⟨_, h, h'⟩ => (by cases h; cases h'; rfl)⟩

/-- What has a result has it. Computed results are looked at so where errors cannot be compared. -/
theorem eq_ok_of_toOption {ε α : Type} {x : Except ε α} {a : α} (h : x.toOption = some a) :
    x = .ok a := by
  cases x with
  | error error => cases h
  | ok b =>
    cases h
    rfl

theorem pure_eq_ok {ε α : Type} {a b : α} : (pure a : Except ε α) = .ok b ↔ a = b :=
  ⟨fun h => by cases h; rfl, fun h => by cases h; rfl⟩

theorem mapM_eq_ok {ε α β : Type} {f : α → Except ε β} {l : List α} {r : List β}
    (h : l.mapM f = .ok r) : List.Forall₂ (fun a b => f a = .ok b) l r := by
  induction l generalizing r with
  | nil =>
    rw [List.mapM_nil, pure_eq_ok] at h
    subst h
    exact .nil
  | cons a l ih =>
    rw [List.mapM_cons] at h
    obtain ⟨b, hb, h⟩ := bind_eq_ok.1 h
    obtain ⟨bs, hbs, h⟩ := bind_eq_ok.1 h
    rw [pure_eq_ok] at h
    subst h
    exact .cons hb (ih hbs)

section Steps

variable {s : Source} {read : Reader}

/-- A reader whose readings fill the outlines of what they read. -/
def Follows (s : Source) (read : Reader) : Prop :=
  ∀ c n, read c = .ok n → ReadAs s (.node c) n

/-- A node built from a part's label and from what fills its parts. -/
theorem ReadAs.of_eq {p : Part} {label : Label} {parts : List Part} {kids : List Node} {n : Node}
    (hp : p.hasName) (ho : p.outline s = (label, parts)) (hk : List.Forall₂ (ReadAs s) parts kids)
    (hn : n = ⟨0, none, p.place s, label, kids⟩) : ReadAs s p n := by
  have h1 : (p.outline s).1 = label := by rw [ho]
  have h2 : (p.outline s).2 = parts := by rw [ho]
  subst hn h1 h2
  exact .fill hp hk

theorem Follows.mapM (hr : Follows s read) {cs : List Concrete} {ns : List Node}
    (h : cs.mapM read = .ok ns) : List.Forall₂ (ReadAs s) (cs.map .node) ns := by
  rw [List.forall₂_map_left_iff]
  exact (mapM_eq_ok h).imp fun c n hn => hr c n hn

theorem Follows.optional (hr : Follows s read) {c : Option Concrete} {n : Option Node}
    (h : readOptional read c = .ok n) :
    List.Forall₂ (ReadAs s) (c.toList.map .node) n.toList ∧ n.isSome = c.isSome := by
  cases c with
  | none =>
    cases h
    exact ⟨.nil, rfl⟩
  | some c =>
    obtain ⟨m, hm, rfl⟩ := map_eq_ok.1 h
    exact ⟨.cons (hr c m hm) .nil, rfl⟩

theorem required_eq_ok {c : Option Concrete} {d : Concrete} (h : required c = .ok d) :
    c = some d := by
  cases c with
  | none => cases h
  | some c => cases h; rfl

theorem Follows.field (hr : Follows s read) {c : Concrete} {field : String} {n : Node}
    (h : readField read c field = .ok n) : List.Forall₂ (ReadAs s) (fieldPart c field) [n] := by
  obtain ⟨d, hd, hn⟩ := bind_eq_ok.1 h
  rw [fieldPart, required_eq_ok hd]
  exact .cons (hr d n hn) .nil

theorem Follows.parameters (hr : Follows s read) {c : Option Concrete} {n : Node}
    (h : parameters s read c = .ok n) : ReadAs s (parametersPart c) n := by
  cases c with
  | none =>
    cases h
    exact .of_eq rfl rfl .nil rfl
  | some c =>
    rw [Reading.parameters] at h
    split at h
    · next hk =>
      obtain ⟨ns, hns, h⟩ := bind_eq_ok.1 h
      exact .of_eq rfl (by simp [parametersPart, Part.outline, hk]) (hr.mapM hns)
        (pure_eq_ok.1 h).symm
    · next hk =>
      obtain ⟨m, hm, h⟩ := bind_eq_ok.1 h
      exact .of_eq rfl (by simp [parametersPart, Part.outline, hk]) (.cons (hr c m hm) .nil)
        (pure_eq_ok.1 h).symm

theorem Follows.tagName (hr : Follows s read) {c : Concrete} {n : Node}
    (h : tagName s read c = .ok n) : ReadAs s (tagPart s c) n := by
  rw [Reading.tagName] at h
  rw [tagPart]
  split_ifs at h ⊢
  · exact hr c n h
  · cases h
    exact .of_eq rfl rfl .nil rfl
  · cases h
    exact .of_eq rfl rfl .nil rfl
  · exact hr c n h

theorem Follows.tagField (hr : Follows s read) {c : Concrete} {n : Node}
    (h : required (c.field? "name") >>= Reading.tagName s read = .ok n) :
    List.Forall₂ (ReadAs s) ((c.field? "name").toList.map (tagPart s)) [n] := by
  obtain ⟨d, hd, hn⟩ := bind_eq_ok.1 h
  rw [required_eq_ok hd]
  exact .cons (hr.tagName hn) .nil

theorem Follows.attribute (hr : Follows s read) {c : Concrete} {r : Except ReadError Node}
    (h : openingPart s read c = some r) :
    ∃ p, attributePart c = some p ∧ ∀ n, r = .ok n → ReadAs s p n := by
  rw [openingPart] at h
  rw [attributePart]
  split_ifs at h ⊢ with h1 h2
  · cases h
    exact ⟨_, rfl, hr c⟩
  · cases h
    refine ⟨_, rfl, fun n hn => ?_⟩
    rw [spreadAttribute] at hn
    cases hs : c.significant.head?.filter (·.kind == "spread_element") with
    | none =>
      rw [hs] at hn
      exact hr c n hn
    | some inner =>
      rw [hs] at hn
      cases ha : inner.significant.head? with
      | none =>
        simp only [ha] at hn
        cases hn
        exact .of_eq rfl rfl (.cons (by rw [ha]; exact .of_eq rfl rfl .nil rfl) .nil) rfl
      | some argument =>
        simp only [ha] at hn
        obtain ⟨m, hm, hn⟩ := bind_eq_ok.1 hn
        exact .of_eq rfl rfl (.cons (by rw [ha]; exact hr argument m hm) .nil) (pure_eq_ok.1 hn).symm

theorem attributePart_eq_none {c : Concrete} (h : openingPart s read c = none) :
    attributePart c = none := by
  rw [openingPart] at h
  rw [attributePart]
  split_ifs at h ⊢
  rfl

theorem Follows.attributes (hr : Follows s read) {cs : List Concrete} {ns : List Node}
    (h : (cs.filterMap (openingPart s read)).mapM id = .ok ns) :
    List.Forall₂ (ReadAs s) (cs.filterMap attributePart) ns := by
  replace h := mapM_eq_ok h
  induction cs generalizing ns with
  | nil =>
    cases h
    exact .nil
  | cons c cs ih =>
    cases hc : openingPart s read c with
    | none =>
      rw [List.filterMap_cons_none hc] at h
      rw [List.filterMap_cons_none (attributePart_eq_none hc)]
      exact ih h
    | some r =>
      obtain ⟨p, hp, hn⟩ := hr.attribute hc
      rw [List.filterMap_cons_some hc] at h
      rw [List.filterMap_cons_some hp]
      cases h with
      | cons h1 h2 => exact .cons (hn _ h1) (ih h2)

theorem Follows.openingTag (hr : Follows s read) {selfClosing : Bool} {c : Concrete} {n : Node}
    (h : openingTag s read selfClosing c = .ok n) : ReadAs s (.opening selfClosing c) n := by
  obtain ⟨attributes, ha, h⟩ := bind_eq_ok.1 h
  obtain ⟨name, hn, h⟩ := bind_eq_ok.1 h
  obtain ⟨tag, htag, -⟩ := bind_eq_ok.1 hn
  have hname : (Part.opening selfClosing c).hasName :=
    Option.isSome_iff_exists.2 ⟨tag, required_eq_ok htag⟩
  exact .of_eq hname rfl (List.rel_append (hr.tagField hn) (hr.attributes ha))
    (pure_eq_ok.1 h).symm

theorem Follows.closingTag (hr : Follows s read) {c : Concrete} {n : Node}
    (h : closingTag s read c = .ok n) : ReadAs s (.closing c) n := by
  obtain ⟨name, hn, h⟩ := bind_eq_ok.1 h
  exact .of_eq rfl rfl (hr.tagField hn) (pure_eq_ok.1 h).symm

/-! ### Reading by kind -/

theorem Follows.otherSyntax (hr : Follows s read) {c : Concrete} {n : Node}
    (ho : nodeOutline s c = otherOutline c none) (h : otherSyntax s read c = .ok n) :
    ReadAs s (.node c) n := by
  obtain ⟨parts, hp, h⟩ := bind_eq_ok.1 h
  exact .of_eq rfl ho (hr.mapM hp) (pure_eq_ok.1 h).symm

theorem Follows.statements (hr : Follows s read) {c : Concrete} {label : Label} {n : Node}
    (ho : nodeOutline s c = (label, c.namedChildren.map .node))
    (h : statements s read label c = .ok n) : ReadAs s (.node c) n := by
  obtain ⟨parts, hp, h⟩ := bind_eq_ok.1 h
  exact .of_eq rfl ho (hr.mapM hp) (pure_eq_ok.1 h).symm

theorem Follows.namedFunction (hr : Follows s read) {c : Concrete} {label : Bool → Label} {n : Node}
    (ho : nodeOutline s c = functionOutline label c) (h : namedFunction s read label c = .ok n) :
    ReadAs s (.node c) n := by
  obtain ⟨name, hn, h⟩ := bind_eq_ok.1 h
  obtain ⟨params, hp, h⟩ := bind_eq_ok.1 h
  obtain ⟨body, hb, h⟩ := bind_eq_ok.1 h
  obtain ⟨hn, hs⟩ := hr.optional hn
  refine .of_eq rfl ho (List.rel_append hn (.cons (hr.parameters hp) (hr.field hb))) ?_
  rw [← hs]
  exact (pure_eq_ok.1 h).symm

theorem Follows.arrowFunction (hr : Follows s read) {c : Concrete} {n : Node}
    (ho : nodeOutline s c = (.arrowFunction,
      parametersPart ((c.field? "parameters").or (c.field? "parameter")) :: fieldPart c "body"))
    (h : arrowFunction s read c = .ok n) : ReadAs s (.node c) n := by
  obtain ⟨params, hp, h⟩ := bind_eq_ok.1 h
  obtain ⟨body, hb, h⟩ := bind_eq_ok.1 h
  exact .of_eq rfl ho (.cons (hr.parameters hp) (hr.field hb)) (pure_eq_ok.1 h).symm

theorem Follows.methodDefinition (hr : Follows s read) {c : Concrete} {n : Node}
    (ho : nodeOutline s c =
      (.functionExpression false, parametersPart (c.field? "parameters") :: fieldPart c "body"))
    (h : methodDefinition s read c = .ok n) : ReadAs s (.node c) n := by
  obtain ⟨params, hp, h⟩ := bind_eq_ok.1 h
  obtain ⟨body, hb, h⟩ := bind_eq_ok.1 h
  exact .of_eq rfl ho (.cons (hr.parameters hp) (hr.field hb)) (pure_eq_ok.1 h).symm

theorem Follows.variableDeclaration (hr : Follows s read) {c : Concrete} {n : Node}
    (ho : nodeOutline s c = (.variableDeclaration ((c.children.head?.map (·.kind)).getD "var"),
      (c.namedChildren.filter (·.kind == "variable_declarator")).map .node))
    (h : variableDeclaration s read c = .ok n) : ReadAs s (.node c) n := by
  obtain ⟨parts, hp, h⟩ := bind_eq_ok.1 h
  exact .of_eq rfl ho (hr.mapM hp) (pure_eq_ok.1 h).symm

theorem Follows.variableDeclarator (hr : Follows s read) {c : Concrete} {n : Node}
    (ho : nodeOutline s c = (.variableDeclarator, fieldPart c "name" ++ fieldPart c "value"))
    (h : variableDeclarator s read c = .ok n) : ReadAs s (.node c) n := by
  obtain ⟨pattern, hp, h⟩ := bind_eq_ok.1 h
  obtain ⟨value, hv, h⟩ := bind_eq_ok.1 h
  exact .of_eq rfl ho (List.rel_append (hr.field hp) (hr.optional hv).1) (pure_eq_ok.1 h).symm

theorem Follows.importStatement (hr : Follows s read) {c : Concrete} {n : Node}
    (ho : nodeOutline s c = (.importDeclaration, (importedOf c).map .node))
    (h : importStatement s read c = .ok n) : ReadAs s (.node c) n := by
  obtain ⟨parts, hp, h⟩ := bind_eq_ok.1 h
  exact .of_eq rfl ho (hr.mapM hp) (pure_eq_ok.1 h).symm

theorem Follows.exportStatement (hr : Follows s read) {c : Concrete} {n : Node}
    (ho : nodeOutline s c = exportOutline c) (h : exportStatement s read c = .ok n) :
    ReadAs s (.node c) n := by
  rw [Reading.exportStatement] at h
  rw [exportOutline] at ho
  split_ifs at h ho
  · cases h
    exact .of_eq rfl ho .nil rfl
  · exact hr.otherSyntax ho h

theorem exportSpecifier_readAs {c : Concrete} (ho : nodeOutline s c = specifierOutline s c) :
    ReadAs s (.node c) (exportSpecifier s c) := by
  rw [specifierOutline] at ho
  rw [exportSpecifier]
  cases hn : (c.field? "name").filter (·.kind == "identifier") with
  | none =>
    rw [hn] at ho
    exact .of_eq rfl ho .nil rfl
  | some name =>
    rw [hn] at ho
    dsimp only at ho ⊢
    split_ifs at ho ⊢
    · exact .of_eq rfl ho .nil rfl
    · exact .of_eq rfl ho (.cons (.of_eq rfl rfl .nil rfl) .nil) rfl

theorem isIdentifier_specifierOutline (c : Concrete) :
    (specifierOutline s c).1.isIdentifier =
      (((c.field? "name").filter (·.kind == "identifier")).isSome && (c.field? "alias").isNone) := by
  rw [specifierOutline]
  cases (c.field? "name").filter (·.kind == "identifier") with
  | none => rfl
  | some name => cases c.field? "alias" <;> rfl

/-- Of all kinds of nodes only names have the label of an identifier. -/
theorem isIdentifier_nodeOutline (c : Concrete) :
    (nodeOutline s c).1.isIdentifier = isNamed c := by
  have hb : (binaryOutline c).1.isIdentifier = false := by rw [binaryOutline]; split <;> rfl
  have hp : (parenthesizedOutline c).1.isIdentifier = false := by
    rw [parenthesizedOutline]; split <;> rfl
  have he : (exportOutline c).1.isIdentifier = false := by rw [exportOutline]; split <;> rfl
  have hj : (elementOutline c).1.isIdentifier = false := by rw [elementOutline]; split <;> rfl
  rw [nodeOutline]
  split
  case h_25 hk => simp [isNamed, nameKinds, hk, isIdentifier_specifierOutline]
  case h_35 =>
    have hn : isNamed c = false := by
      simp only [isNamed, nameKinds]
      simp
      exact ⟨⟨‹_›, ‹_›, ‹_›⟩, fun h => absurd h ‹_›⟩
    rw [hn]
    rfl
  all_goals
    simp only [isNamed, *]
    rfl

theorem className_readAs {name c : Concrete} {n : Node} (h : ReadAs s (.node c) n) :
    ReadAs s (classPart (some name) c) (className s name c.field n) := by
  rw [classPart, className]
  by_cases hf : c.field == some "name"
  · have hl : n.label.isIdentifier = isNamed c := by
      cases h with
      | fill _ hk => exact isIdentifier_nodeOutline c
    rw [if_pos hf, hf, hl]
    cases hn : isNamed c with
    | true =>
      cases h with
      | fill _ hk =>
        have ho : (Part.className name c).outline s = (Part.node c).outline s := by
          simp only [Part.outline, hn, if_true]
        have hp : (Part.className name c).place s = (Part.node c).place s := by
          simp only [Part.place, Part.concrete?, hn, if_true]
        show ReadAs s (.className name c) ⟨_, _, (Part.node c).place s, _, _⟩
        rw [← hp]
        rw [← ho] at hk ⊢
        exact .fill rfl hk
    | false =>
      have ho : (Part.className name c).outline s = (Part.name name).outline s := by
        simp only [Part.outline, hn, if_false, Bool.false_eq_true]
      have hp : (Part.className name c).place s = (Part.name name).place s := by
        simp only [Part.place, Part.concrete?, hn, if_false, Bool.false_eq_true]
      exact .of_eq rfl ho .nil (by rw [hp]; rfl)
  · rw [if_neg hf]
    simpa [hf] using h

theorem classParts_readAs {name : Concrete} {cs : List Concrete} {ns : List Node}
    (h : List.Forall₂ (ReadAs s) (cs.map .node) ns) :
    List.Forall₂ (ReadAs s) (cs.map (classPart (some name)))
      (List.zipWith (className s name) (cs.map (·.field)) ns) := by
  induction cs generalizing ns with
  | nil => exact .nil
  | cons c cs ih =>
    cases h with
    | cons h1 h2 => exact .cons (className_readAs h1) (ih h2)

theorem Follows.classDeclaration (hr : Follows s read) {c : Concrete} {n : Node}
    (ho : nodeOutline s c = classOutline c) (h : classDeclaration s read c = .ok n) :
    ReadAs s (.node c) n := by
  obtain ⟨other, h1, h⟩ := bind_eq_ok.1 h
  obtain ⟨parts, hp, h1⟩ := bind_eq_ok.1 h1
  rw [pure_eq_ok] at h1
  subst h1
  rw [classOutline] at ho
  cases hn : c.field? "name" with
  | none =>
    rw [hn] at h ho
    exact .of_eq rfl ho (hr.mapM hp) (pure_eq_ok.1 h).symm
  | some name =>
    rw [hn] at h ho
    exact .of_eq rfl ho (classParts_readAs (hr.mapM hp)) (pure_eq_ok.1 h).symm

theorem Follows.forInStatement (hr : Follows s read) {c : Concrete} {n : Node}
    (ho : nodeOutline s c = otherOutline c (loopKeyword? c)) (h : forInStatement s read c = .ok n) :
    ReadAs s (.node c) n := by
  obtain ⟨parts, hp, h⟩ := bind_eq_ok.1 h
  exact .of_eq rfl ho (hr.mapM hp) (pure_eq_ok.1 h).symm

theorem Follows.callExpression (hr : Follows s read) {c : Concrete} {n : Node}
    (ho : nodeOutline s c = (.call, fieldPart c "function" ++ (argumentsOf c).map .node))
    (h : callExpression s read c = .ok n) : ReadAs s (.node c) n := by
  rw [Reading.callExpression] at h
  rw [argumentsOf] at ho
  cases hl : c.field? "arguments" with
  | none =>
    rw [hl] at h ho
    obtain ⟨arguments, ha, h⟩ := bind_eq_ok.1 h
    cases pure_eq_ok.1 ha
    obtain ⟨callee, hc, h⟩ := bind_eq_ok.1 h
    exact .of_eq rfl ho (List.rel_append (hr.field hc) .nil) (pure_eq_ok.1 h).symm
  | some list =>
    rw [hl] at h ho
    dsimp only at h ho
    split_ifs at h ho
    · obtain ⟨arguments, ha, h⟩ := bind_eq_ok.1 h
      obtain ⟨callee, hc, h⟩ := bind_eq_ok.1 h
      exact .of_eq rfl ho (List.rel_append (hr.field hc) (hr.mapM ha)) (pure_eq_ok.1 h).symm
    · obtain ⟨arguments, ha, h⟩ := bind_eq_ok.1 h
      obtain ⟨m, hm, rfl⟩ := map_eq_ok.1 ha
      obtain ⟨callee, hc, h⟩ := bind_eq_ok.1 h
      exact .of_eq rfl ho (List.rel_append (hr.field hc) (.cons (hr list m hm) .nil))
        (pure_eq_ok.1 h).symm

theorem Follows.memberExpression (hr : Follows s read) {c : Concrete} {n : Node}
    (ho : nodeOutline s c =
      (.member (((propertyOf? c).map (textOf s)).getD ""), (objectOf? c).toList.map .node))
    (h : memberExpression s read c = .ok n) : ReadAs s (.node c) n := by
  obtain ⟨object, h1, h⟩ := bind_eq_ok.1 h
  obtain ⟨m, hm, h⟩ := bind_eq_ok.1 h
  rw [show objectOf? c = some object from required_eq_ok h1] at ho
  exact .of_eq rfl ho (.cons (hr object m hm) .nil) (pure_eq_ok.1 h).symm

theorem Follows.conditionalExpression (hr : Follows s read) {c : Concrete} {n : Node}
    (ho : nodeOutline s c = (.conditional,
      fieldPart c "condition" ++ fieldPart c "consequence" ++ fieldPart c "alternative"))
    (h : conditionalExpression s read c = .ok n) : ReadAs s (.node c) n := by
  obtain ⟨test, h1, h⟩ := bind_eq_ok.1 h
  obtain ⟨consequent, h2, h⟩ := bind_eq_ok.1 h
  obtain ⟨alternate, h3, h⟩ := bind_eq_ok.1 h
  exact .of_eq rfl ho (List.rel_append (List.rel_append (hr.field h1) (hr.field h2)) (hr.field h3))
    (pure_eq_ok.1 h).symm

theorem Follows.binaryExpression (hr : Follows s read) {c : Concrete} {n : Node}
    (ho : nodeOutline s c = binaryOutline c) (h : binaryExpression s read c = .ok n) :
    ReadAs s (.node c) n := by
  rw [Reading.binaryExpression] at h
  rw [binaryOutline] at ho
  split at h
  · next hn =>
    rw [hn] at ho
    exact hr.otherSyntax ho h
  · next operator hs =>
    rw [hs] at ho
    obtain ⟨left, h1, h⟩ := bind_eq_ok.1 h
    obtain ⟨right, h2, h⟩ := bind_eq_ok.1 h
    exact .of_eq rfl ho (List.rel_append (hr.field h1) (hr.field h2)) (pure_eq_ok.1 h).symm

theorem Follows.parenthesizedExpression (hr : Follows s read) {c : Concrete} {n : Node}
    (ho : nodeOutline s c = parenthesizedOutline c)
    (h : parenthesizedExpression s read c = .ok n) : ReadAs s (.node c) n := by
  obtain ⟨inner, h1, h⟩ := bind_eq_ok.1 h
  rw [parenthesizedOutline] at ho
  cases hc : c.significant.head? with
  | none =>
    rw [firstExpression, hc] at h1
    rw [hc] at ho
    cases h1
    exact hr.otherSyntax ho h
  | some d =>
    rw [firstExpression, hc] at h1
    rw [hc] at ho
    obtain ⟨m, hm, rfl⟩ := map_eq_ok.1 h1
    exact .of_eq rfl ho (.cons (hr d m hm) .nil) (pure_eq_ok.1 h).symm

theorem Follows.element (hr : Follows s read) {c : Concrete} {n : Node}
    (ho : nodeOutline s c = elementOutline c) (h : element s read c = .ok n) :
    ReadAs s (.node c) n := by
  obtain ⟨content, hc, h⟩ := bind_eq_ok.1 h
  replace hc := hr.mapM hc
  rw [elementOutline] at ho
  split at h
  · next hn =>
    rw [show openTag? c = none from hn] at ho
    exact .of_eq rfl ho hc (pure_eq_ok.1 h).symm
  · next tag ht =>
    rw [show openTag? c = some tag from ht] at ho
    split at h
    · next close hk =>
      rw [show closeTag? c = some close from hk] at ho
      obtain ⟨closing, h1, h⟩ := bind_eq_ok.1 h
      obtain ⟨m, hm, rfl⟩ := map_eq_ok.1 h1
      obtain ⟨opening, h2, h⟩ := bind_eq_ok.1 h
      exact .of_eq rfl ho
        (.cons (hr.openingTag h2) (List.rel_append hc (.cons (hr.closingTag hm) .nil)))
        (pure_eq_ok.1 h).symm
    · next hk =>
      rw [show closeTag? c = none from hk] at ho
      obtain ⟨closing, h1, h⟩ := bind_eq_ok.1 h
      cases pure_eq_ok.1 h1
      obtain ⟨opening, h2, h⟩ := bind_eq_ok.1 h
      exact .of_eq rfl ho (.cons (hr.openingTag h2) (List.rel_append hc .nil)) (pure_eq_ok.1 h).symm

theorem Follows.selfClosingElement (hr : Follows s read) {c : Concrete} {n : Node}
    (ho : nodeOutline s c = (.element false [], [.opening true c]))
    (h : selfClosingElement s read c = .ok n) : ReadAs s (.node c) n := by
  obtain ⟨opening, h1, h⟩ := bind_eq_ok.1 h
  exact .of_eq rfl ho (.cons (hr.openingTag h1) .nil) (pure_eq_ok.1 h).symm

theorem Follows.container (hr : Follows s read) {c : Concrete} {n : Node}
    (ho : nodeOutline s c = (.container (c.namedChildren.any (·.kind == "comment")),
      c.significant.head?.toList.map .node))
    (h : container s read c = .ok n) : ReadAs s (.node c) n := by
  obtain ⟨expression, h1, h⟩ := bind_eq_ok.1 h
  exact .of_eq rfl ho (hr.optional h1).1 (pure_eq_ok.1 h).symm

theorem Follows.markupAttribute (hr : Follows s read) {c : Concrete} {n : Node}
    (ho : nodeOutline s c = (.markupAttribute,
      c.significant.head?.toList.map .markupName ++ c.significant.tail.head?.toList.map .node))
    (h : markupAttribute s read c = .ok n) : ReadAs s (.node c) n := by
  obtain ⟨name, h1, h⟩ := bind_eq_ok.1 h
  obtain ⟨value, h2, h⟩ := bind_eq_ok.1 h
  rw [required_eq_ok h1] at ho
  exact .of_eq rfl ho (.cons (.of_eq rfl rfl .nil rfl) (hr.optional h2).1) (pure_eq_ok.1 h).symm

theorem Follows.returnStatement (hr : Follows s read) {c : Concrete} {n : Node}
    (ho : nodeOutline s c = (.returnStatement, c.significant.head?.toList.map .node))
    (h : (do return build s c .returnStatement (← firstExpression read c).toList) = .ok n) :
    ReadAs s (.node c) n := by
  obtain ⟨argument, h1, h⟩ := bind_eq_ok.1 h
  exact .of_eq rfl ho (hr.optional h1).1 (pure_eq_ok.1 h).symm

/-- One level of reading fills the outline of a node when the levels below do. -/
theorem Follows.node (hr : Follows s read) : Follows s (Reading.node s read) := by
  intro c n h
  have ho : nodeOutline s c = nodeOutline s c := rfl
  rw [Reading.node] at h
  conv at ho => rhs; rw [nodeOutline]
  split at h <;> simp only [*] at ho
  case h_1 | h_2 => exact hr.statements ho h
  case h_3 | h_4 | h_5 | h_6 | h_7 => exact hr.namedFunction ho h
  case h_8 => exact hr.arrowFunction ho h
  case h_9 => exact hr.methodDefinition ho h
  case h_10 | h_11 => exact hr.variableDeclaration ho h
  case h_12 => exact hr.variableDeclarator ho h
  case h_13 => exact hr.returnStatement ho h
  case h_14 => exact hr.callExpression ho h
  case h_15 => exact hr.memberExpression ho h
  case h_16 => exact hr.conditionalExpression ho h
  case h_17 => exact hr.binaryExpression ho h
  case h_18 => exact hr.parenthesizedExpression ho h
  case h_19 | h_20 | h_21 | h_22 =>
    cases h
    exact .of_eq rfl ho .nil rfl
  case h_23 => exact hr.importStatement ho h
  case h_24 => exact hr.exportStatement ho h
  case h_25 =>
    cases h
    exact exportSpecifier_readAs ho
  case h_26 | h_27 => exact hr.classDeclaration ho h
  case h_28 => exact hr.forInStatement ho h
  case h_29 => exact hr.element ho h
  case h_30 => exact hr.selfClosingElement ho h
  case h_31 => exact hr.container ho h
  case h_32 => exact hr.markupAttribute ho h
  case h_33 | h_34 =>
    cases h
    exact .of_eq rfl ho .nil rfl
  case h_35 => exact hr.otherSyntax ho h

end Steps

/-- Whatever is read, with any number of levels, fills the outline of its node. -/
theorem tree_readAs (s : Source) : ∀ levels, Follows s (tree s levels)
  | 0 => fun _ _ h => by cases h
  | levels + 1 => (tree_readAs s levels).node

/-- Induction over what fills an outline. -/
theorem ReadAs.induct {s : Source} {P : Part → Node → Prop}
    (step : ∀ p id parent kids, p.hasName →
      List.Forall₂ (fun q m => ReadAs s q m ∧ P q m) (p.outline s).2 kids →
        P p ⟨id, parent, p.place s, (p.outline s).1, kids⟩) {p : Part} {n : Node} (h : ReadAs s p n) :
    P p n := by
  induction n using Node.induct generalizing p with
  | step n ih =>
    cases h with
    | fill hp hk =>
      refine step p _ _ _ hp ?_
      have hm := (List.forall₂_and_left _ _).2 ⟨fun m hm q (hq : ReadAs s q m) => ih m hm hq, hk.flip⟩
      exact hm.flip.imp fun q m h => ⟨h.2, h.1 q h.2⟩

/-! ### Documents -/

/-- Names do not matter to what is read. -/
theorem ReadAs.number {s : Source} {p : Part} {n : Node} (h : ReadAs s p n) (next : NodeId) :
    ReadAs s p (n.number next).1 := by
  refine h.induct (P := fun p n => ∀ next, ReadAs s p (n.number next).1) ?_ next
  intro p id parent kids hp ih next
  rw [Node.number_fst]
  exact .fill hp (Node.numberAll_fst_forall₂ (ih.imp fun q m h => h.2) _)

/-- Parents do not matter to what is read. -/
theorem ReadAs.link {s : Source} {p : Part} {n : Node} (h : ReadAs s p n)
    (parent : Option NodeId) : ReadAs s p (n.link parent) := by
  refine h.induct (P := fun p n => ∀ parent, ReadAs s p (n.link parent)) ?_ parent
  intro p id _ kids hp ih parent
  rw [Node.link_eq]
  exact .fill hp (List.forall₂_map_right_iff.2 (ih.imp fun q m h => h.2 _))

@[simp] theorem language_ofString (path text : String) :
    (Source.ofString path text).language = .ofPath path := by
  rw [Source.ofString]

@[simp] theorem bytes_ofString (path text : String) :
    (Source.ofString path text).bytes = Utf8.encode text := by
  rw [Source.ofString]

/-- What it takes to read a document: a tree without fault, of a program. -/
theorem read_eq_ok {grammar : Grammar} {path text : String} {d : Document}
    (h : Document.read grammar path text = .ok d) :
    (grammar (.ofPath path) text).faulty = false ∧ ∃ root,
      tree (.ofString path text) levelLimit (grammar (.ofPath path) text) = .ok root ∧
        root.label = .program ∧ d = .ofRoot (.ofString path text) root := by
  rw [Document.read, Document.ofConcrete] at h
  split at h
  · cases h
  · next hf =>
    rw [language_ofString] at hf h
    obtain ⟨root, hr, h⟩ := bind_eq_ok.1 h
    refine ⟨Bool.eq_false_iff.2 hf, root, hr, ?_⟩
    split at h
    · next hl => exact ⟨hl, (pure_eq_ok.1 h).symm⟩
    · cases h

/-- The tree of a document fills the outline of what the grammar makes of its text. -/
theorem read_readAs {grammar : Grammar} {path text : String} {d : Document}
    (h : Document.read grammar path text = .ok d) :
    d.source = .ofString path text ∧
      ReadAs d.source (.node (grammar (.ofPath path) text)) d.root := by
  obtain ⟨-, root, hr, -, rfl⟩ := read_eq_ok h
  exact ⟨rfl, ((tree_readAs _ _ _ _ hr).number 0).link none⟩

/-- A document that was just read is a program, and nothing has been taken out of it. -/
theorem read_program {grammar : Grammar} {path text : String} {d : Document}
    (h : Document.read grammar path text = .ok d) : d.root.label = .program ∧ d.detached = [] := by
  obtain ⟨-, root, -, hl, rfl⟩ := read_eq_ok h
  refine ⟨?_, rfl⟩
  show ((root.number 0).1.link none).label = .program
  rw [Node.link_eq, Node.number_fst]
  exact hl

/-! ### Forms -/

/-- The kinds that are read as nodes of other forms than other syntax. -/
def kindForms : List (String × String) :=
  [("program", "Program"), ("statement_block", "Block"),
    ("function_declaration", "FunctionDeclaration"),
    ("generator_function_declaration", "FunctionDeclaration"),
    ("function_expression", "FunctionExpression"), ("function", "FunctionExpression"),
    ("generator_function", "FunctionExpression"), ("arrow_function", "ArrowFunction"),
    ("method_definition", "FunctionExpression"), ("lexical_declaration", "VariableDeclaration"),
    ("variable_declaration", "VariableDeclaration"), ("variable_declarator", "VariableDeclarator"),
    ("return_statement", "ReturnStatement"), ("call_expression", "CallExpression"),
    ("member_expression", "MemberExpression"), ("ternary_expression", "ConditionalExpression"),
    ("binary_expression", "LogicalExpression"),
    ("parenthesized_expression", "ParenthesizedExpression"), ("identifier", "Identifier"),
    ("shorthand_property_identifier", "Identifier"),
    ("shorthand_property_identifier_pattern", "Identifier"), ("string", "StringLiteral"),
    ("import_statement", "ImportDeclaration"), ("export_specifier", "Identifier"),
    ("jsx_element", "JSXElement"), ("jsx_element", "JSXFragment"),
    ("jsx_self_closing_element", "JSXElement"), ("jsx_expression", "JSXExpressionContainer"),
    ("jsx_attribute", "JSXAttribute"), ("jsx_text", "JSXText"),
    ("html_character_reference", "JSXText")]

/-- The form of a node goes with the kind that it is read from. -/
theorem form_nodeOutline (s : Source) (c : Concrete) : (nodeOutline s c).1.form = "Opaque" ∨
    (c.kind, (nodeOutline s c).1.form) ∈ kindForms := by
  rw [nodeOutline]
  split
  case h_17 hk =>
    rw [binaryOutline]
    split <;> simp [hk, otherOutline, Label.form, kindForms]
  case h_18 hk =>
    rw [parenthesizedOutline]
    split <;> simp [hk, otherOutline, Label.form, kindForms]
  case h_24 =>
    rw [exportOutline]
    split <;> simp [otherOutline, Label.form]
  case h_25 hk =>
    rw [specifierOutline.eq_def]
    split
    · simp [Label.form]
    · split_ifs <;> simp [hk, Label.form, kindForms]
  case h_29 hk =>
    rw [elementOutline]
    split <;> simp [hk, Label.form, kindForms]
  case h_26 | h_27 | h_28 | h_35 => simp [otherOutline, classOutline, Label.form]
  all_goals
    simp [*, functionOutline, stringLiteral, build, Label.form, kindForms]

/-- The kind of a node with a form that only some kinds have. -/
theorem kind_of_form {s : Source} {c : Concrete} {forms kinds : List String}
    (h : (nodeOutline s c).1.form ∈ forms) (hother : "Opaque" ∉ forms)
    (hk : ∀ x ∈ kindForms, x.2 ∈ forms → x.1 ∈ kinds) : c.kind ∈ kinds :=
  (form_nodeOutline s c).elim (fun he => absurd (he ▸ h) hother) fun hx => hk _ hx h

theorem kind_of_program {s : Source} {c : Concrete} (h : (nodeOutline s c).1 = .program) :
    c.kind = "program" :=
  List.mem_singleton.1 (kind_of_form (List.mem_singleton.2 (congrArg Label.form h)) (by decide)
    (by decide))

/-- Only opening tags are read as opening tags. -/
theorem opening_of_form {s : Source} {p : Part} (h : (p.outline s).1.form = "JSXOpeningElement") :
    ∃ selfClosing c, p = .opening selfClosing c := by
  have hnode : ∀ c, (nodeOutline s c).1.form ≠ "JSXOpeningElement" := fun c hc =>
    absurd (@kind_of_form s c _ [] (List.mem_singleton.2 hc) (by decide) (by decide))
      List.not_mem_nil
  cases p with
  | opening selfClosing c => exact ⟨selfClosing, c, rfl⟩
  | node c => exact absurd h (hnode c)
  | className m c =>
    rw [Part.outline] at h
    split_ifs at h
    · exact absurd h (hnode c)
    · simp [Label.form] at h
  | parameters c =>
    rw [Part.outline] at h
    split_ifs at h <;> simp [Label.form] at h
  | _ => simp [Part.outline, Label.form] at h

/-- Opening tags are read with a name. -/
theorem ReadAs.opening_children {s : Source} {p : Part} {n : Node} (h : ReadAs s p n)
    (hform : n.label.form = "JSXOpeningElement") : n.children ≠ [] := by
  rw [h.label_eq] at hform
  obtain ⟨selfClosing, tag, rfl⟩ := opening_of_form hform
  cases h with
  | fill hname hks =>
    rintro rfl
    have hnil := List.forall₂_nil_right_iff.1 hks
    rw [Part.outline, List.append_eq_nil_iff, List.map_eq_nil_iff, Option.toList_eq_nil_iff] at hnil
    rw [Part.hasName, hnil.1] at hname
    cases hname

end JsxLint.Reading
