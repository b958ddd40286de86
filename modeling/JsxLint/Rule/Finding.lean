import JsxLint.Json
import JsxLint.Scope.Workspace

/-!
# Findings and repairs

What a rule says about a file: a finding for every place it looks at, then for a finding either
the change that repairs it or a refusal, and a failure when the rule itself breaks down.

* `Severity`, `Category`, `ChangeKind` with their words;
* `Finding`, `Change`, `Refusal`, `DetectionFailure` with their JSON records;
* `Reason`: why a finding is not repaired.
-/

namespace JsxLint

/-- How much a finding matters; `good` praises. -/
inductive Severity
  | error
  | warning
  | info
  | good
  deriving DecidableEq, Repr, Inhabited

namespace Severity

/-- All severities in their order of reporting. -/
def all : List Severity := [.error, .warning, .info, .good]

/-- The word for a severity. -/
def word : Severity → String
  | .error => "error"
  | .warning => "warning"
  | .info => "info"
  | .good => "good"

/-- The severity with the given word. -/
def ofWord? (w : String) : Option Severity :=
  all.find? (·.word == w)

end Severity

/-- What a finding is about. -/
inductive Category
  | expressions
  | attributes
  | security
  | structures
  | naming
  deriving DecidableEq, Repr, Inhabited

namespace Category

/-- All categories in their order of reporting. -/
def all : List Category := [.expressions, .attributes, .security, .structures, .naming]

/-- The word for a category. -/
def word : Category → String
  | .expressions => "expression"
  | .attributes => "attribute"
  | .security => "security"
  | .structures => "structure"
  | .naming => "naming"

/-- The category with the given word. -/
def ofWord? (w : String) : Option Category :=
  all.find? (·.word == w)

end Category

/-- What a repair does. -/
inductive ChangeKind
  | rename
  | insertAttribute
  | renameAttribute
  | collapseTag
  | removeExpression
  deriving DecidableEq, Repr, Inhabited

namespace ChangeKind

/-- All kinds of change. -/
def all : List ChangeKind :=
  [.rename, .insertAttribute, .renameAttribute, .collapseTag, .removeExpression]

/-- The word for a kind of change. -/
def word : ChangeKind → String
  | .rename => "rename"
  | .insertAttribute => "attribute-insert"
  | .renameAttribute => "attribute-rename"
  | .collapseTag => "tag-collapse"
  | .removeExpression => "expression-removal"

/-- The kind of change with the given word. -/
def ofWord? (w : String) : Option ChangeKind :=
  all.find? (·.word == w)

end ChangeKind

/-- The words for a text that names no member of an enumeration. -/
def notAMember (text enumeration : String) : String :=
  Text.quote text.toList ++ " is not a valid " ++ enumeration

/-- One issue, or one recognised good practice, at a place of a file. -/
structure Finding where
  rule : String
  severity : Severity
  category : Category
  message : String
  file : String
  line : Int
  column : Int
  hint : Option String
  detail : Option String
  /-- The node that the finding is about. -/
  node : NodeId
  deriving DecidableEq, Repr, Inhabited

namespace Finding

/-- What tells findings of a file apart: the rule and the place. -/
def key (f : Finding) : String × Int × Int :=
  (f.rule, f.line, f.column)

/-- Whether a finding asks for a repair. -/
def isIssue (f : Finding) : Bool :=
  f.severity != .good

/-- A text as a value, unless it is missing or empty. -/
def nonEmpty (text : Option String) : Option Json :=
  (text.filter (· != "")).map .str

/-- The record of a finding; empty texts are left out. -/
def record (f : Finding) : Json :=
  .obj <| Json.present [
    ("rule", some (.str f.rule)),
    ("severity", some (.str f.severity.word)),
    ("category", some (.str f.category.word)),
    ("message", some (.str f.message)),
    ("line", some (.int f.line)),
    ("column", some (.int f.column)),
    ("hint", nonEmpty f.hint),
    ("detail", nonEmpty f.detail)]

end Finding

/-- One repair that was made. -/
structure Change where
  rule : String
  kind : ChangeKind
  file : String
  line : Int
  before : Option String
  after : Option String
  action : Option String
  /-- The finding that was repaired. -/
  finding : Finding
  deriving DecidableEq, Repr, Inhabited

/-- The record of a change; missing texts are left out. -/
def Change.record (c : Change) : Json :=
  .obj <| Json.present [
    ("type", some (.str c.rule)),
    ("kind", some (.str c.kind.word)),
    ("line", some (.int c.line)),
    ("from", c.before.map .str),
    ("to", c.after.map .str),
    ("action", c.action.map .str)]

/-- Why a finding is not repaired. -/
inductive Reason
  | notAChild
  | notInTree
  | alreadyRenamed (name : String)
  | hasAttribute (name : String)
  | alreadySelfClosing
  | hasChildren
  | hasKey
  | noCallback
  | indexNotPlain
  | boundInCallback (name : String)
  | shadowsGlobal (name : String) (line : Nat)
  | shadowsOuter (name : String) (line : Nat)
  | noDeclaration (name : String)
  | namedExport (name : String)
  | conflict (reason : RenameConflict)
  /-- The repair itself broke down. -/
  | brokeDown (message : String)
  /-- The repaired tree could not be printed. -/
  | notPrinted (message : String)
  /-- The repaired text could not be written. -/
  | notWritten (message : String)
  deriving DecidableEq, Repr

/-- The words for a reason. -/
def Reason.message : Reason → String
  | .notAChild => "expression is not a child of an element or fragment"
  | .notInTree => "expression is no longer in the tree"
  | .alreadyRenamed name => "'" ++ name ++ "' was already renamed"
  | .hasAttribute name => "element already has a '" ++ name ++ "' attribute"
  | .alreadySelfClosing => "element is already self-closing"
  | .hasChildren => "element has children"
  | .hasKey => "element already has a key"
  | .noCallback => "list callback not found"
  | .indexNotPlain => "index parameter is not a plain identifier"
  | .boundInCallback name => "'" ++ name ++ "' is already bound in the callback"
  | .shadowsGlobal name line =>
    "parameter '" ++ name ++ "' would shadow a global used at line " ++ toString line
  | .shadowsOuter name line =>
    "parameter '" ++ name ++ "' would shadow an outer binding used at line " ++ toString line
  | .noDeclaration name => "no declaration recorded for '" ++ name ++ "'"
  | .namedExport name =>
    "'" ++ name ++ "' is a named export; renaming would change the module API"
  | .conflict reason => reason.message
  | .brokeDown message => message
  | .notPrinted message => "could not regenerate source: " ++ message
  | .notWritten message => "write failed: " ++ message

/-- A finding that was not repaired, and why. -/
structure Refusal where
  rule : String
  finding : Finding
  reason : Reason
  deriving DecidableEq, Repr

/-- The record of a refusal. -/
def Refusal.record (r : Refusal) : Json :=
  .obj [("rule", .str r.rule), ("stage", .str "fix"), ("line", .int r.finding.line),
    ("message", .str r.reason.message)]

/-- A rule that broke down while it looked at a file. -/
structure DetectionFailure where
  rule : String
  message : String
  deriving DecidableEq, Repr

/-- The record of a detection failure. -/
def DetectionFailure.record (f : DetectionFailure) : Json :=
  .obj [("rule", .str f.rule), ("stage", .str "detect"), ("message", .str f.message)]

end JsxLint
