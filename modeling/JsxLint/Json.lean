import JsxLint.Text.Quoted
import JsxLint.Text.Lines

/-!
# JSON

Values whose objects keep the order of their entries, and their written form.

* `Json`: values;
* `Json.quote`: a text as a JSON string;
* `Json.pretty`: the form with one entry a line, two spaces a level;
* `Json.compact`: the form without white space.
-/

namespace JsxLint

/-- A JSON value without fractional numbers. -/
inductive Json
  | null
  | bool (b : Bool)
  | int (n : Int)
  | str (s : String)
  | arr (items : List Json)
  | obj (entries : List (String × Json))
  deriving Repr, Inhabited

namespace Json

/-- The value of a text that may be missing. -/
def ofText? : Option String → Json
  | some s => .str s
  | none => .null

/-- The natural number as a value. -/
def nat (n : Nat) : Json :=
  .int n

/-- The entries whose value is there. -/
def present (entries : List (String × Option Json)) : List (String × Json) :=
  entries.filterMap fun (key, value) => value.map (key, ·)

/-- A character inside of a JSON string. -/
def escape (c : Char) : String :=
  if c == '"' then "\\\""
  else if c == '\\' then "\\\\"
  else if c == '\n' then "\\n"
  else if c == '\r' then "\\r"
  else if c == '\t' then "\\t"
  else if c.toNat == 0x8 then "\\b"
  else if c.toNat == 0xC then "\\f"
  else if c.toNat < 0x20 then "\\u" ++ Text.hex 4 c.toNat
  else String.singleton c

/-- A text as a JSON string. -/
def quote (s : String) : String :=
  "\"" ++ String.join (s.toList.map escape) ++ "\""

/-- A line break and the indentation of a level. -/
def newline (level : Nat) : String :=
  String.ofList ('\n' :: List.replicate (2 * level) ' ')

/-- A bracketed list of written items at a level, one a line. -/
def bracketed (opening closing : String) (level : Nat) (items : List String) : String :=
  if items.isEmpty then opening ++ closing
  else opening ++ newline (level + 1) ++ Text.joined ("," ++ newline (level + 1)) items ++
    newline level ++ closing

mutual

/-- The written form at a level of indentation. -/
def prettyAt (level : Nat) : Json → String
  | null => "null"
  | bool b => if b then "true" else "false"
  | int n => toString n
  | str s => quote s
  | arr items => bracketed "[" "]" level (prettyItems (level + 1) items)
  | obj entries => bracketed "\x7b" "\x7d" level (prettyEntries (level + 1) entries)

/-- The written items of a list. -/
def prettyItems (level : Nat) : List Json → List String
  | [] => []
  | j :: js => j.prettyAt level :: prettyItems level js

/-- The written entries of an object. -/
def prettyEntries (level : Nat) : List (String × Json) → List String
  | [] => []
  | (key, j) :: rest => (quote key ++ ": " ++ j.prettyAt level) :: prettyEntries level rest

end

/-- The written form with one entry a line. -/
def pretty (j : Json) : String :=
  j.prettyAt 0

mutual

/-- The written form without white space. -/
def compact : Json → String
  | null => "null"
  | bool b => if b then "true" else "false"
  | int n => toString n
  | str s => quote s
  | arr items => "[" ++ Text.joined "," (compactItems items) ++ "]"
  | obj entries => "\x7b" ++ Text.joined "," (compactEntries entries) ++ "\x7d"

/-- The written items of a list. -/
def compactItems : List Json → List String
  | [] => []
  | j :: js => j.compact :: compactItems js

/-- The written entries of an object. -/
def compactEntries : List (String × Json) → List String
  | [] => []
  | (key, j) :: rest => (quote key ++ ":" ++ j.compact) :: compactEntries rest

end

end Json
end JsxLint
