import JsxLint.Text.Lines
import JsxLint.Text.Quoted
import JsxLint.Text.Similarity

/-!
# Options of a command line

An argument that begins with a dash gives options: a long one with two dashes, to which a value is
added with an equals sign, or short ones with one dash, the last of which may be followed by its
value. Two dashes alone end the options. All other arguments are operands.

* `OptionName`, `OptionSpec`: the options there are;
* `OptionError`: what can be wrong with options;
* `Given`: the options and operands that are given;
* `Given.ofArguments`: reading them.
-/

namespace JsxLint.Command

/-- The options. -/
inductive OptionName
  | output
  | disable
  | jobs
  | debug
  | help
  deriving DecidableEq, Repr

/-- How an option is written. -/
structure OptionSpec where
  name : OptionName
  long : String
  short : Option Char
  takesValue : Bool
  deriving DecidableEq, Repr

/-- What can be wrong with options. -/
inductive OptionError
  /-- There is no such option; some that there are may be meant. -/
  | unknown (option : String) (meant : List String)
  | needsValue (option : String)
  | takesNoValue (option : String)
  deriving DecidableEq, Repr

/-- The question whether one of some words was meant. -/
def didYouMean : List String → String
  | [] => ""
  | [word] => " Did you mean " ++ Text.quote word.toList ++ "?"
  | words =>
    " (Did you mean one of: " ++ Text.joined ", " (words.map fun w => Text.quote w.toList) ++ "?)"

/-- The words for what is wrong. -/
def OptionError.message : OptionError → String
  | .unknown option meant => "No such option " ++ Text.quote option.toList ++ "." ++ didYouMean meant
  | .needsValue option => "Option " ++ Text.quote option.toList ++ " requires an argument."
  | .takesNoValue option => "Option " ++ Text.quote option.toList ++ " does not take a value."

/-- Options with their values, in order, and operands. -/
structure Given where
  options : List (OptionName × String)
  operands : List String
  deriving DecidableEq, Repr

/-- What one argument stands for. -/
inductive Argument
  | operand
  | endOfOptions
  | options (given : List (OptionName × String))
  /-- Options, and one whose value is the next argument. -/
  | openOption (given : List (OptionName × String)) (name : OptionName) (written : String)

namespace Argument

/-- Short options written together. -/
def ofShort (specs : List OptionSpec) (given : List (OptionName × String)) :
    List Char → Except OptionError Argument
  | [] => .ok (.options given)
  | c :: cs =>
    let written := String.ofList ['-', c]
    match specs.find? (·.short == some c) with
    | none => .error (.unknown written [])
    | some spec =>
      if !spec.takesValue then ofShort specs (given ++ [(spec.name, "")]) cs
      else if cs.isEmpty then .ok (.openOption given spec.name written)
      else .ok (.options (given ++ [(spec.name, String.ofList cs)]))

/-- A long option with the value that is added to it, if one is. -/
def ofLong (spec : OptionSpec) (value : Option String) : Except OptionError Argument :=
  match spec.takesValue, value with
  | true, none => .ok (.openOption [] spec.name spec.long)
  | true, some value => .ok (.options [(spec.name, value)])
  | false, none => .ok (.options [(spec.name, "")])
  | false, some _ => .error (.takesNoValue spec.long)

/-- The name of a long option and the value behind the first equals sign. -/
def splitLong (argument : String) : String × Option String :=
  let cs := argument.toList
  let name := String.ofList (cs.takeWhile (· != '='))
  match cs.dropWhile (· != '=') with
  | [] => (name, none)
  | _ :: value => (name, some (String.ofList value))

/-- Read one argument. -/
def read (specs : List OptionSpec) (argument : String) : Except OptionError Argument :=
  match argument.toList with
  | ['-', '-'] => .ok .endOfOptions
  | '-' :: c :: cs =>
    let (name, value) := splitLong argument
    match specs.find? (·.long == name) with
    | some spec => ofLong spec value
    | none =>
      if c = '-' then .error (.unknown name (Text.similar name (specs.map (·.long))))
      else ofShort specs [] (c :: cs)
  | _ => .ok .operand

end Argument

/-- Read arguments. Options may come behind operands, or else the first operand ends them. -/
def Given.ofArguments (specs : List OptionSpec) (mixed : Bool) :
    List String → Except OptionError Given
  | [] => .ok ⟨[], []⟩
  | argument :: rest =>
    match Argument.read specs argument with
    | .error e => .error e
    | .ok .operand =>
      if mixed then
        (ofArguments specs mixed rest).map fun g => { g with operands := argument :: g.operands }
      else .ok ⟨[], argument :: rest⟩
    | .ok .endOfOptions => .ok ⟨[], rest⟩
    | .ok (.options given) =>
      (ofArguments specs mixed rest).map fun g => { g with options := given ++ g.options }
    | .ok (.openOption given name written) =>
      match rest with
      | [] => .error (.needsValue written)
      | value :: rest =>
        (ofArguments specs mixed rest).map fun g =>
          { g with options := given ++ (name, value) :: g.options }

end JsxLint.Command
