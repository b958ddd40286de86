import JsxLint.Path
import JsxLint.Source.Position
import JsxLint.Text.Letter

/-!
# Source texts

* `Language`: the grammars that a file may be read with, chosen by the suffix of its name;
* `Source`: the bytes of one file together with its path, language and line starts.
-/

namespace JsxLint

/-- The grammar that a text is read with. -/
inductive Language
  | javascript
  | typescript
  | tsx
  deriving DecidableEq, Repr, Inhabited

namespace Language

/-- The name of a language. -/
def name : Language → String
  | .javascript => "javascript"
  | .typescript => "typescript"
  | .tsx => "tsx"

/-- The language of a file by its suffix, in any case; the default is JavaScript. -/
def ofPath (path : String) : Language :=
  match Letter.lower (Path.ofString path).suffix with
  | ".ts" => .typescript
  | ".tsx" => .tsx
  | _ => .javascript

end Language

/-- A text to be analysed. -/
structure Source where
  path : String
  language : Language
  bytes : Bytes
  lineStarts : List Nat
  deriving Repr, Inhabited

namespace Source

/-- The source that consists of a text. -/
def ofString (path text : String) : Source :=
  let bytes := Utf8.encode text
  ⟨path, .ofPath path, bytes, JsxLint.lineStarts bytes⟩

/-- Line and column of an offset. -/
def position (s : Source) (offset : Nat) : Position :=
  positionOf s.bytes s.lineStarts offset

/-- The characters of a span. -/
def characters (s : Source) (span : Span) : List Char :=
  Utf8.decodeLossy (slice s.bytes span.start span.stop)

/-- The text of a span. -/
def text (s : Source) (span : Span) : String :=
  String.ofList (s.characters span)

end Source
end JsxLint
