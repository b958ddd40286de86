import JsxLint.Command.Options
import JsxLint.Files.Lookup
import JsxLint.Rule.Registry
import JsxLint.Settings.Basic
import JsxLint.Text.ControlSequence
import JsxLint.Text.Numeral

/-!
# Requests

What a command line asks for: to check or to fix a project, or to list the rules.

* `Subcommand`, `RunOptions`, `Request`;
* `UsageError`: what can be wrong with a command line; `UsageError.text` is what is written about
  it;
* `Request.ofArguments`: reading a command line.
-/

namespace JsxLint.Command

/-- The commands. -/
inductive Subcommand
  | check
  | fix
  | listRules
  deriving DecidableEq, Repr

namespace Subcommand

/-- Every command. -/
def all : List Subcommand := [check, fix, listRules]

/-- The word for a command. -/
def word : Subcommand → String
  | check => "check"
  | fix => "fix"
  | listRules => "list-rules"

/-- The command with the given word. -/
def ofWord? (w : String) : Option Subcommand :=
  all.find? (·.word == w)

end Subcommand

/-- The name of the program. -/
def program : String := "jsx-doctor"

/-- What is used wrongly: the program, or one of its commands. -/
abbrev Page := Option Subcommand

namespace Page

/-- The words that start a page's command. -/
def words : Page → String
  | none => program
  | some c => program ++ " " ++ c.word

/-- The form of a page's arguments. -/
def form : Page → String
  | none => "[OPTIONS] COMMAND [ARGS]..."
  | some .listRules => "[OPTIONS]"
  | some _ => "[OPTIONS] [ROOT]"

/-- The line on how a page is used. -/
def usage (p : Page) : String :=
  "Usage: " ++ words p ++ " " ++ form p ++ "\n"

/-- The option that asks for help. -/
def helpOption : OptionSpec := ⟨.help, "--help", none, false⟩

/-- The options of a page. -/
def options : Page → List OptionSpec
  | none => [helpOption]
  | some .listRules => [helpOption]
  | some _ =>
    [⟨.output, "--output", some 'o', true⟩, ⟨.disable, "--disable", none, true⟩,
      ⟨.jobs, "--jobs", some 'j', true⟩, ⟨.debug, "--debug", none, false⟩, helpOption]

end Page

/-! ### What can be wrong -/

/-- What can be wrong with a command line. -/
inductive UsageError
  | options (page : Page) (e : OptionError)
  | missingCommand
  | unknownCommand (name : String) (meant : List String)
  | unknownRule (page : Page) (value : String)
  | notANumber (page : Page) (value : String)
  | tooSmall (page : Page) (n : Int)
  /-- There are more operands than the page takes. -/
  | extraOperands (page : Page) (operands : List String)
  /-- A path has a null character, which is found out when it is looked up. -/
  | nullCharacter
  deriving DecidableEq, Repr

namespace UsageError

/-- The words for what is wrong. -/
def message : UsageError → String
  | options _ e => e.message
  | missingCommand => "Missing command."
  | unknownCommand name meant => "No such command " ++ Text.quote name.toList ++ "." ++ didYouMean meant
  | unknownRule _ value =>
    "Invalid value for '--disable': " ++ Text.quote value.toList ++ " is not one of " ++
      Text.joined ", " (Rule.sortedIds.map fun id => Text.quote id.toList) ++ "."
  | notANumber _ value =>
    "Invalid value for '--jobs' / '-j': " ++ Text.quote value.toList ++
      " is not a valid integer range."
  | tooSmall _ n =>
    "Invalid value for '--jobs' / '-j': " ++ toString n ++ " is not in the range x>=1."
  | extraOperands _ operands =>
    (if operands.length = 1 then "Got unexpected extra argument (" else
      "Got unexpected extra arguments (") ++ Text.joined " " operands ++ ")"
  | nullCharacter => FileError.nullCharacter.words

/-- The page whose usage is shown; none for options that come without their value or with one too
many, and for what is no matter of usage. -/
def page? : UsageError → Option Page
  | options _ (.needsValue _) => none
  | options _ (.takesNoValue _) => none
  | options page (.unknown _ _) => some page
  | missingCommand => some none
  | unknownCommand _ _ => some none
  | unknownRule page _ => some page
  | notANumber page _ => some page
  | tooSmall page _ => some page
  | extraOperands page _ => some page
  | nullCharacter => none

/-- The lines on the usage of a page. -/
def usageLines (page : Page) : String :=
  Page.usage page ++ "Try '" ++ Page.words page ++ " --help' for help.\n\n"

/-- What is written about a command line that is wrong. -/
def text (e : UsageError) : String :=
  Text.plain (((e.page?.map usageLines).getD "") ++ "Error: " ++ e.message ++ "\n")

/-- The status with which a command line that is wrong ends. -/
def status : Nat := 2

end UsageError

/-! ### Reading -/

/-- How a project is to be worked on. -/
structure RunOptions where
  root : String
  output : Option String
  disabled : List String
  jobs : Option Positive
  deriving DecidableEq, Repr

/-- What a command line asks for. -/
inductive Request
  | run (fix : Bool) (options : RunOptions)
  | listRules
  /-- How a page is used. -/
  | help (page : Page)
  deriving DecidableEq, Repr

namespace Given

/-- The values of an option. -/
def values (g : Given) (name : OptionName) : List String :=
  (g.options.filter (·.1 == name)).map (·.2)

/-- Whether help is asked for. -/
def wantsHelp (g : Given) : Bool :=
  g.options.any (·.1 == .help)

/-- The rules to disable. -/
def disabled (g : Given) (page : Page) : Except UsageError (List String) :=
  match (g.values .disable).find? fun id => (Rule.find? id).isNone with
  | some id => .error (.unknownRule page id)
  | none => .ok (g.values .disable)

/-- The number of jobs that a text denotes. -/
def jobsOf (page : Page) (value : String) : Except UsageError Positive :=
  match Numeral.integer? value with
  | none => .error (.notANumber page value)
  | some n => if h : 0 < n.toNat then .ok ⟨n.toNat, h⟩ else .error (.tooSmall page n)

/-- The number of jobs; the last one that is given counts. -/
def jobs (g : Given) (page : Page) : Except UsageError (Option Positive) :=
  match (g.values .jobs).getLast? with
  | none => .ok none
  | some value => (jobsOf page value).map some

/-- A path, which may have no null character. -/
def path (value : String) : Except UsageError String :=
  if value.toList.contains '\x00' then .error .nullCharacter else .ok value

/-- The path of the report; the last one that is given counts. -/
def output (g : Given) : Except UsageError (Option String) :=
  match (g.values .output).getLast? with
  | none => .ok none
  | some value => (path value).map some

/-- What is wrong with the values of an option. -/
def checkOption (g : Given) (page : Page) : OptionName → Except UsageError Unit
  | .output => discard g.output
  | .disable => discard (g.disabled page)
  | .jobs => discard (g.jobs page)
  | .debug => .ok ()
  | .help => .ok ()

/-- What no page takes: operands behind the first ones. -/
def excess (g : Given) (page : Page) (taken : Nat) : Except UsageError Unit :=
  if g.operands.length ≤ taken then .ok ()
  else .error (.extraOperands page (g.operands.drop taken))

/-- How a project is to be worked on. Of wrong values the one whose option is given first is told,
and the values of options come before operands. -/
def runOptions (g : Given) (page : Page) : Except UsageError RunOptions := do
  g.options.forM fun (name, _) => g.checkOption page name
  let root ← path (g.operands.head?.getD ".")
  g.excess page 1
  return { root, output := ← g.output, disabled := ← g.disabled page, jobs := ← g.jobs page }

end Given

namespace Request

/-- Read the options and operands of a page. -/
def given (page : Page) (mixed : Bool) (arguments : List String) : Except UsageError Given :=
  (Given.ofArguments (Page.options page) mixed arguments).mapError (.options page)

/-- Read the arguments of a command. -/
def ofCommand (c : Subcommand) (arguments : List String) : Except UsageError Request := do
  let g ← given (some c) true arguments
  if g.wantsHelp then return .help (some c)
  match c with
  | .listRules =>
    g.excess (some c) 0
    return .listRules
  | .check => return .run false (← g.runOptions (some c))
  | .fix => return .run true (← g.runOptions (some c))

/-- Read a command line. What stands in the place of the command and is none is read as an option
first. -/
def ofArguments (arguments : List String) : Except UsageError Request := do
  if arguments.isEmpty then return .help none
  let g ← given none false arguments
  if g.wantsHelp then return .help none
  match g.operands with
  | [] => .error .missingCommand
  | name :: rest =>
    match Subcommand.ofWord? name with
    | some c => ofCommand c rest
    | none =>
      let g ← given none false (name :: rest)
      if g.wantsHelp then return .help none
      .error (.unknownCommand name (Text.similar name (Subcommand.all.map (·.word))))

end Request
end JsxLint.Command
