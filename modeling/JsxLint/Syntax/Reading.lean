import JsxLint.Concrete.Tree
import JsxLint.Syntax.Document
import JsxLint.Text.Quoted

/-!
# Reading syntax trees

A concrete tree becomes a syntax tree: the kinds that a rule looks into get labels of their own,
all else is kept under its grammar kind. A text with syntax errors is refused at the first place
that could not be read, a text that is nested too deeply as a whole.

* `Reading.node`: one level, given a way to read what is below;
* `Reading.tree`: all levels, as many as allowed;
* `Concrete.syntaxFault`: the first place that could not be read;
* `Document.read`: the document of a text, or a `ReadError`.
-/

namespace JsxLint

/-- Why a text has no syntax tree. -/
inductive SyntaxFault
  /-- A token is missing at a position. -/
  | missing (kind : String) (position : Position)
  /-- Something at a position could not be read; its first characters. -/
  | unexpected (snippet : List Char) (position : Position)
  /-- There is an error, but no place for it. -/
  | unplaced
  | nestedTooDeeply
  /-- The tree is not that of a program. -/
  | unexpectedRoot (kind : String)
  deriving DecidableEq, Repr

namespace SyntaxFault

/-- Where the fault is. -/
def position? : SyntaxFault → Option Position
  | .missing _ position | .unexpected _ position => some position
  | _ => none

/-- The words for a fault. -/
def message : SyntaxFault → String
  | .missing kind _ => "missing '" ++ kind ++ "'"
  | .unexpected snippet _ => "unexpected syntax near " ++ Text.quote snippet
  | .unplaced => "source contains syntax errors"
  | .nestedTooDeeply => "source is nested too deeply to analyse"
  | .unexpectedRoot kind => "unexpected root node " ++ kind

end SyntaxFault

/-- A message about a file, with line and column when the line is known. -/
def located (file : String) (line column : Option Int) (message : String) : String :=
  match line with
  | some line =>
    file ++ ":" ++ toString line ++ ":" ++ (column.map toString).getD "None" ++ ": " ++ message
  | none => file ++ ": " ++ message

/-- The message about a fault in a file. -/
def SyntaxFault.located (fault : SyntaxFault) (file : String) : String :=
  JsxLint.located file (fault.position?.map (·.line)) (fault.position?.map (·.column)) fault.message

/-- Why a text cannot be read. -/
inductive ReadError
  /-- The text has no syntax tree. -/
  | fault (fault : SyntaxFault)
  /-- A node lacks a part that its kind must have. -/
  | missingPart
  deriving DecidableEq, Repr

namespace Reading

/-- Reads one concrete node. -/
abbrev Reader := Concrete → Except ReadError Node

/-- The place of a concrete node. -/
def placeOf (s : Source) (c : Concrete) : Place :=
  ⟨some c.span, s.position c.span.start⟩

/-- A node read from a concrete node. -/
def build (s : Source) (c : Concrete) (label : Label) (children : List Node) : Node :=
  ⟨0, none, placeOf s c, label, children⟩

/-- The text of a concrete node. -/
def textOf (s : Source) (c : Concrete) : String :=
  s.text c.span

/-- A part that a node must have. -/
def required (c : Option Concrete) : Except ReadError Concrete :=
  match c with
  | some c => .ok c
  | none => .error .missingPart

/-- Read a part that a node must have. -/
def readField (read : Reader) (c : Concrete) (field : String) : Except ReadError Node :=
  required (c.field? field) >>= read

/-- Read a part that a node may have. -/
def readOptional (read : Reader) : Option Concrete → Except ReadError (Option Node)
  | some c => some <$> read c
  | none => .ok none

/-- An identifier spelled by a concrete node. -/
def identifier (s : Source) (c : Concrete) (shorthand : Option Shorthand) : Node :=
  build s c (.identifier (textOf s c) (textOf s c) shorthand) []

/-! ### Other syntax -/

/-- Syntax that no rule looks into. -/
def otherSyntax (s : Source) (read : Reader) (c : Concrete) : Except ReadError Node := do
  let parts ← c.namedChildren.mapM read
  return build s c (.other c.kind (c.namedChildren.map (·.field)) none) parts

/-- Syntax whose inside is left alone. -/
def leaf (s : Source) (c : Concrete) : Node :=
  build s c (.other c.kind [] none) []

/-! ### Statements -/

/-- The parameter list of a function; a bare name stands for a list of one. -/
def parameters (s : Source) (read : Reader) : Option Concrete → Except ReadError Node
  | none => .ok (Node.made (.parameters true) [])
  | some c =>
    if c.kind = "formal_parameters" then do
      return build s c (.parameters true) (← c.significant.mapM read)
    else do
      return build s c (.parameters false) [← read c]

/-- A function with a name, when it has one. -/
def namedFunction (s : Source) (read : Reader) (label : Bool → Label) (c : Concrete) :
    Except ReadError Node := do
  let name ← readOptional read (c.field? "name")
  let params ← parameters s read (c.field? "parameters")
  let body ← readField read c "body"
  return build s c (label name.isSome) (name.toList ++ [params, body])

/-- A method; its name is a property key and no binding. -/
def methodDefinition (s : Source) (read : Reader) (c : Concrete) : Except ReadError Node := do
  let params ← parameters s read (c.field? "parameters")
  let body ← readField read c "body"
  return build s c (.functionExpression false) [params, body]

/-- An arrow function. -/
def arrowFunction (s : Source) (read : Reader) (c : Concrete) : Except ReadError Node := do
  let params ← parameters s read ((c.field? "parameters").or (c.field? "parameter"))
  let body ← readField read c "body"
  return build s c .arrowFunction [params, body]

/-- A declaration of variables; its first token is the keyword. -/
def variableDeclaration (s : Source) (read : Reader) (c : Concrete) : Except ReadError Node := do
  let keyword := (c.children.head?.map (·.kind)).getD "var"
  let declarators := c.namedChildren.filter (·.kind == "variable_declarator")
  return build s c (.variableDeclaration keyword) (← declarators.mapM read)

/-- A variable and its initial value. -/
def variableDeclarator (s : Source) (read : Reader) (c : Concrete) : Except ReadError Node := do
  let pattern ← readField read c "name"
  let value ← readOptional read (c.field? "value")
  return build s c .variableDeclarator (pattern :: value.toList)

/-- The first part that is not a comment. -/
def firstExpression (read : Reader) (c : Concrete) : Except ReadError (Option Node) :=
  readOptional read c.significant.head?

/-- The local name that an import specifier binds. -/
def importedName? (c : Concrete) : Option Concrete :=
  if c.kind = "import_specifier" then
    ((c.field? "alias").or (c.field? "name")).filter (·.kind == "identifier")
  else none

/-- The names that one item of an import clause binds. -/
def importedNames (item : Concrete) : List Concrete :=
  if item.kind = "identifier" then [item]
  else if item.kind = "namespace_import" then
    item.namedChildren.filter (·.kind == "identifier")
  else if item.kind = "named_imports" then item.namedChildren.filterMap importedName?
  else []

/-- An import; only the names that it binds are looked at. -/
def importStatement (s : Source) (read : Reader) (c : Concrete) : Except ReadError Node := do
  let clauses := c.namedChildren.filter (·.kind == "import_clause")
  let names := clauses.flatMap fun clause => clause.namedChildren.flatMap importedNames
  return build s c .importDeclaration (← names.mapM read)

/-- An export; one that names another module is left alone, for it names nothing of this file. -/
def exportStatement (s : Source) (read : Reader) (c : Concrete) : Except ReadError Node :=
  if (c.field? "source").isSome then .ok (leaf s c) else otherSyntax s read c

/-- A name in an export list. Without an alias it doubles as the exported name; the alias itself
is no reference. -/
def exportSpecifier (s : Source) (c : Concrete) : Node :=
  match (c.field? "name").filter (·.kind == "identifier") with
  | none => leaf s c
  | some name =>
    if (c.field? "alias").isNone then
      build s c (.identifier (textOf s name) (textOf s name) (some .exported)) []
    else build s c (.other c.kind [some "name"] none) [identifier s name none]

/-- The part that declares the name of a class, as an identifier. -/
def className (s : Source) (name : Concrete) (field : Option String) (part : Node) : Node :=
  if field == some "name" && !part.label.isIdentifier then identifier s name none else part

/-- A class; its name is an identifier whatever the grammar calls it. -/
def classDeclaration (s : Source) (read : Reader) (c : Concrete) : Except ReadError Node := do
  let other ← otherSyntax s read c
  match c.field? "name" with
  | none => return other
  | some name =>
    let fields := c.namedChildren.map (·.field)
    return { other with children := List.zipWith (className s name) fields other.children }

/-- The keyword of the declaration in a `for … in` or `for … of` loop. -/
def loopKeyword? (c : Concrete) : Option String :=
  match c.field? "kind" with
  | some keyword => some keyword.kind
  | none => (c.children.map (·.kind)).find? fun kind =>
      kind == "const" || kind == "let" || kind == "var"

/-- A `for … in` or `for … of` loop. -/
def forInStatement (s : Source) (read : Reader) (c : Concrete) : Except ReadError Node := do
  let parts ← c.namedChildren.mapM read
  return build s c (.other c.kind (c.namedChildren.map (·.field)) (loopKeyword? c)) parts

/-! ### Expressions -/

/-- A call; a template behind a callee is its only argument. -/
def callExpression (s : Source) (read : Reader) (c : Concrete) : Except ReadError Node := do
  let arguments ← match c.field? "arguments" with
    | none => pure []
    | some list =>
      if list.kind = "arguments" then list.significant.mapM read else List.singleton <$> read list
  let callee ← readField read c "function"
  return build s c .call (callee :: arguments)

/-- An access to a property; dotted tag names have no fields for its parts. -/
def memberExpression (s : Source) (read : Reader) (c : Concrete) : Except ReadError Node := do
  let parts := c.significant
  let object ← required ((c.field? "object").or parts.head?)
  let property := (c.field? "property").or (if parts.length > 1 then parts.getLast? else none)
  return build s c (.member ((property.map (textOf s)).getD "")) [← read object]

/-- A choice between two expressions. -/
def conditionalExpression (s : Source) (read : Reader) (c : Concrete) : Except ReadError Node := do
  let test ← readField read c "condition"
  let consequent ← readField read c "consequence"
  let alternate ← readField read c "alternative"
  return build s c .conditional [test, consequent, alternate]

/-- The operators that choose one of their operands. -/
def logicalOperators : List String :=
  ["&&", "||", "??"]

/-- An operation on two operands; only the logical ones are looked into. -/
def binaryExpression (s : Source) (read : Reader) (c : Concrete) : Except ReadError Node :=
  match (c.field? "operator").filter fun o => logicalOperators.contains o.kind with
  | none => otherSyntax s read c
  | some operator => do
    let left ← readField read c "left"
    let right ← readField read c "right"
    return build s c (.logical operator.kind) [left, right]

/-- An expression in parentheses. -/
def parenthesizedExpression (s : Source) (read : Reader) (c : Concrete) :
    Except ReadError Node := do
  match ← firstExpression read c with
  | some inner => return build s c .parenthesized [inner]
  | none => otherSyntax s read c

/-- The quote that a text starts with, a double quote when it starts with none. -/
def quoteOf : List Char → String
  | '\'' :: _ => "'"
  | _ => "\""

/-- A string with its quotes taken off. -/
def stringLiteral (s : Source) (c : Concrete) : Node :=
  let cs := s.characters c.span
  build s c (.stringLiteral (String.ofList (cs.drop 1).dropLast) (quoteOf cs)) []

/-! ### Markup -/

/-- The name of a tag: capitalised names refer to components, other plain and namespaced names are
intrinsic. -/
def tagName (s : Source) (read : Reader) (c : Concrete) : Except ReadError Node :=
  if c.kind = "identifier" then
    if Letter.startsUpper (textOf s c) then read c
    else .ok (build s c (.markupName (textOf s c)) [])
  else if c.kind = "jsx_namespace_name" then .ok (build s c (.markupName (textOf s c)) [])
  else read c

/-- Braces among the attributes: a spread argument. -/
def spreadAttribute (s : Source) (read : Reader) (c : Concrete) : Except ReadError Node :=
  match c.significant.head?.filter (·.kind == "spread_element") with
  | none => read c
  | some spread =>
    match spread.significant.head? with
    | some argument => do return build s c .spreadAttribute [← read argument]
    | none => .ok (build s c .spreadAttribute [build s spread (.other "empty" [] none) []])

/-- One child of an opening tag, when it is an attribute. -/
def openingPart (s : Source) (read : Reader) (c : Concrete) : Option (Except ReadError Node) :=
  if c.kind = "jsx_attribute" then some (read c)
  else if c.kind = "jsx_expression" then some (spreadAttribute s read c)
  else none

/-- An opening tag. -/
def openingTag (s : Source) (read : Reader) (selfClosing : Bool) (c : Concrete) :
    Except ReadError Node := do
  let attributes ← (c.namedChildren.filterMap (openingPart s read)).mapM id
  let name ← required (c.field? "name") >>= tagName s read
  return build s c (.openingTag selfClosing) (name :: attributes)

/-- A closing tag. -/
def closingTag (s : Source) (read : Reader) (c : Concrete) : Except ReadError Node := do
  let name ← required (c.field? "name") >>= tagName s read
  return build s c .closingTag [name]

/-- An element with content, or a fragment when its opening tag has no name. -/
def element (s : Source) (read : Reader) (c : Concrete) : Except ReadError Node := do
  let openTag := (c.field? "open_tag").or (c.firstNamed? "jsx_opening_element")
  let closeTag := (c.field? "close_tag").or (c.firstNamed? "jsx_closing_element")
  let inner := c.namedChildren.filter fun child =>
    child.kind != "jsx_opening_element" && child.kind != "jsx_closing_element"
  let content ← inner.mapM read
  match openTag.filter fun tag => (tag.field? "name").isSome with
  | none => return build s c (.fragment []) content
  | some tag => do
    let closing ← match closeTag with
      | some tag => some <$> closingTag s read tag
      | none => pure none
    let opening ← openingTag s read false tag
    return build s c (.element closing.isSome []) (opening :: content ++ closing.toList)

/-- An element that consists of one tag. -/
def selfClosingElement (s : Source) (read : Reader) (c : Concrete) : Except ReadError Node := do
  return build s c (.element false []) [← openingTag s read true c]

/-- Braces in markup. -/
def container (s : Source) (read : Reader) (c : Concrete) : Except ReadError Node := do
  let expression ← firstExpression read c
  let hasComment := c.namedChildren.any (·.kind == "comment")
  return build s c (.container hasComment) expression.toList

/-- An attribute with a name and, when it has one, a value. -/
def markupAttribute (s : Source) (read : Reader) (c : Concrete) : Except ReadError Node := do
  let name ← required c.significant.head?
  let value ← readOptional read c.significant.tail.head?
  return build s c .markupAttribute (build s name (.markupName (textOf s name)) [] :: value.toList)

/-! ### All kinds -/

/-- A list of nodes that are read one by one. -/
def statements (s : Source) (read : Reader) (label : Label) (c : Concrete) :
    Except ReadError Node := do
  return build s c label (← c.namedChildren.mapM read)

/-- Read a node, given a way to read what is below it. -/
def node (s : Source) (read : Reader) (c : Concrete) : Except ReadError Node :=
  match c.kind with
  | "program" => statements s read .program c
  | "statement_block" => statements s read .block c
  | "function_declaration" | "generator_function_declaration" =>
    namedFunction s read .functionDeclaration c
  | "function_expression" | "function" | "generator_function" =>
    namedFunction s read .functionExpression c
  | "arrow_function" => arrowFunction s read c
  | "method_definition" => methodDefinition s read c
  | "lexical_declaration" | "variable_declaration" => variableDeclaration s read c
  | "variable_declarator" => variableDeclarator s read c
  | "return_statement" => do
    return build s c .returnStatement (← firstExpression read c).toList
  | "call_expression" => callExpression s read c
  | "member_expression" => memberExpression s read c
  | "ternary_expression" => conditionalExpression s read c
  | "binary_expression" => binaryExpression s read c
  | "parenthesized_expression" => parenthesizedExpression s read c
  | "identifier" => .ok (identifier s c none)
  | "shorthand_property_identifier" | "shorthand_property_identifier_pattern" =>
    .ok (identifier s c (some .property))
  | "string" => .ok (stringLiteral s c)
  | "import_statement" => importStatement s read c
  | "export_statement" => exportStatement s read c
  | "export_specifier" => .ok (exportSpecifier s c)
  | "class_declaration" | "abstract_class_declaration" => classDeclaration s read c
  | "for_in_statement" => forInStatement s read c
  | "jsx_element" => element s read c
  | "jsx_self_closing_element" => selfClosingElement s read c
  | "jsx_expression" => container s read c
  | "jsx_attribute" => markupAttribute s read c
  | "jsx_text" | "html_character_reference" => .ok (build s c (.markupText (textOf s c)) [])
  | _ => otherSyntax s read c

/-- Read a tree of at most the given number of levels. -/
def tree (s : Source) : Nat → Reader
  | 0 => fun _ => .error (.fault .nestedTooDeeply)
  | levels + 1 => node s (tree s levels)

/-- How many levels of syntax are read. -/
def levelLimit : Nat := 120

end Reading

/-! ### Faults -/

namespace Concrete

/-- The fault at a node itself: a missing token, or something that could not be read. -/
def ownFault? (s : Source) (c : Concrete) : Option SyntaxFault :=
  if c.missing then some (.missing c.kind (s.position c.span.start))
  else if c.kind = "ERROR" then
    some (.unexpected ((s.characters c.span).take 40) (s.position c.span.start))
  else none

mutual

/-- The first fault at or below a node, parents first; only faulty nodes are entered. -/
def firstFault? (s : Source) : Concrete → Option SyntaxFault
  | ⟨kind, span, field, named, missing, faulty, children⟩ =>
    match ownFault? s ⟨kind, span, field, named, missing, faulty, children⟩ with
    | some fault => some fault
    | none => if faulty then firstFaultAll? s children else none

/-- The first fault in several trees. -/
def firstFaultAll? (s : Source) : List Concrete → Option SyntaxFault
  | [] => none
  | c :: cs => (c.firstFault? s).or (firstFaultAll? s cs)

end

/-- Why a tree with an error is refused. -/
def syntaxFault (s : Source) (c : Concrete) : SyntaxFault :=
  (c.firstFault? s).getD .unplaced

end Concrete

namespace Document

/-- Read the concrete tree of a source. -/
def ofConcrete (s : Source) (c : Concrete) : Except ReadError Document := do
  if c.faulty then throw (.fault (c.syntaxFault s))
  let root ← Reading.tree s Reading.levelLimit c
  if root.label = .program then return ofRoot s root
  else throw (.fault (.unexpectedRoot c.kind))

/-- Read a text. -/
def read (grammar : Grammar) (path text : String) : Except ReadError Document :=
  let source := Source.ofString path text
  ofConcrete source (grammar source.language text)

end Document
end JsxLint
