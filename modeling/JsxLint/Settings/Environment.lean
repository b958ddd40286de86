import JsxLint.Settings.Validation
import JsxLint.Text.Blank
import JsxLint.Text.Letter
import JsxLint.Text.Numeral

/-!
# Settings from the environment

Variables of the environment give settings, and nothing in them is wrong: a numeral that cannot be
read counts as not given, and a number below its bound as the bound.

* `Environment`: the variables;
* `Settings.ofEnvironment`: the settings they give;
* `Settings.override`: settings that other values come on top of.
-/

namespace JsxLint

/-- The values of variables. -/
abbrev Environment := String → Option String

namespace Settings

/-- What the names of all variables begin with. -/
def variableStart : String := "JSX_DOCTOR_"

/-- The rest of the names of the variables that count. -/
def variableNames : List String :=
  ["ROOT", "OUTPUT", "EXTENSIONS", "IGNORED_DIRS", "RESPECT_GITIGNORE", "MAX_FILE_SIZE",
    "MAX_FIX_PASSES", "DISABLED_RULES", "JOBS"]

/-- The entries of a text between commas, without white space at their ends and without empty
ones. -/
def entriesOf (text : Option String) : List String :=
  ((Text.splitOn ',' (text.getD "")).map Text.strip).filter (· != "")

/-- The integer of a numeral that may be missing or none. -/
def integerOr (text : Option String) (otherwise : Int) : Int :=
  (text.bind Numeral.integer?).getD otherwise

/-- The positive number nearest to an integer. -/
def nearestPositive (n : Int) : Positive :=
  ⟨max 1 n.toNat, by omega⟩

/-- A list, unless it is empty. -/
def orElse (l otherwise : List String) : List String :=
  if l.isEmpty then otherwise else l

/-- The words that switch something off. -/
def offWords : List String := ["0", "false", "no"]

/-- The settings that the variables of an environment give. -/
def ofEnvironment (env : Environment) : Settings where
  root := .ofString ((env "ROOT").getD ".")
  fix := false
  output := ((env "OUTPUT").filter (· != "")).map .ofString
  extensions := orElse (entriesOf (env "EXTENSIONS")) usualExtensions
  ignoredNames := usualIgnoredNames ++ entriesOf (env "IGNORED_DIRS")
  respectIgnoreFile := !offWords.contains (Letter.lower ((env "RESPECT_GITIGNORE").getD "true"))
  maxFileSize := integerOr (env "MAX_FILE_SIZE") usual.maxFileSize
  maxPasses := nearestPositive (integerOr (env "MAX_FIX_PASSES") 4)
  disabledRules := entriesOf (env "DISABLED_RULES")
  jobs := nearestPositive (integerOr (env "JOBS") 1)

/-! ### Values on top -/

/-- Why values cannot come on top of settings. -/
inductive OverrideError
  /-- The rules to disable are not several values. -/
  | notSeveral
  | invalid (problems : List Problem)
  deriving DecidableEq, Repr

/-- The values that one value stands for: the items of a list, the characters of a text, the keys
of a record. -/
def Value.parts? : Value → Option (List Value)
  | .list items => some items
  | .text s => some (s.toList.map fun c => .text (String.singleton c))
  | .record keys => some (keys.map .text)
  | _ => none

/-- Whether a value is one of the given texts. -/
def Value.isAmong (texts : List String) : Value → Bool
  | .text s => texts.contains s
  | _ => false

/-- The values without those that are null. -/
def present (values : Values) : Values :=
  values.filter fun
    | (_, .null) => false
    | _ => true

/-- Disabled rules that others are added to, unless they are there already. -/
def withDisabled (old : List String) (more : List Value) : Value :=
  .list (old.map .text ++ more.filter (!·.isAmong old))

/-- Settings that other values come on top of. Null stands for no value, and rules to disable are
added to those that were. -/
def override (s : Settings) (values : Values) : Except OverrideError Settings :=
  let values := present values
  match values.lookup "disabled_rules" with
  | none => (s.update values).mapError .invalid
  | some v =>
    match v.parts? with
    | none => .error .notSeveral
    | some more =>
      (s.update (("disabled_rules", withDisabled s.disabledRules more) :: values)).mapError .invalid

end Settings
end JsxLint
