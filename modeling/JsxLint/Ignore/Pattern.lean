import JsxLint.Ignore.Glob
import JsxLint.Text.Blank
import JsxLint.Text.Lines

/-!
# Ignored paths

A list of ignored paths has a pattern a line. A pattern with a slash at its beginning or inside is
meant from the root on, any other one at every depth; a slash at its end restricts it to
directories; two stars stand for any names between slashes. The last pattern that a path matches
decides, and one that begins with an exclamation mark takes the path back.

Paths are texts below the root with slashes between names and, for a directory, at the end.

* `Pattern`: one line of the list; `Pattern.ofLine` reads it;
* `patternsOf`: the patterns of a text;
* `ignores`: whether a path is ignored.
-/

namespace JsxLint.Ignore

/-- What paths a pattern is about. -/
inductive Shape
  /-- All. -/
  | everything
  /-- The directories, and what is inside of one. -/
  | nested
  /-- The paths that the pieces lead to. -/
  | path (pieces : List Piece)
  /-- What is inside of the directories that the pieces lead to. -/
  | inside (pieces : List Piece)
  deriving DecidableEq, Repr

/-- A line of a list of ignored paths. -/
structure Pattern where
  /-- Whether the paths are ignored or taken back. -/
  ignored : Bool
  shape : Shape
  deriving DecidableEq, Repr

/-- What is wrong with a line. -/
inductive PatternError
  /-- The line has no name, or a backslash that nothing follows. -/
  | invalid
  /-- A range of characters has its ends the wrong way round. -/
  | reversedRange
  deriving DecidableEq, Repr

/-! ### Segments -/

/-- A part of a pattern between slashes. -/
abbrev Segment := List Char

/-- The segment for any names. -/
def anyNames : Segment := ['*', '*']

/-- The segment for any name. -/
def anyName : Segment := ['*']

/-- Whether the segments of a pattern mean every depth: there is one, or one and a slash. -/
def isUnanchored : List Segment → Bool
  | [_] => true
  | [_, []] => true
  | _ => false

/-- The segments from the root on. -/
def anchored : List Segment → List Segment
  | [] :: rest => rest
  | segments =>
    if isUnanchored segments && segments.head? != some anyNames then anyNames :: segments
    else segments

/-- Whether a pattern ends in a slash. -/
def endsInSlash (segments : List Segment) : Bool :=
  segments.getLast? == some []

/-- A slash at the end stands for all that is inside. -/
def opened (segments : List Segment) : List Segment :=
  if endsInSlash segments then segments.dropLast ++ [anyNames] else segments

/-- Neighbouring segments for any names are one. -/
def collapsed : List Segment → List Segment
  | a :: b :: rest =>
    if a = anyNames && b = anyNames then collapsed (b :: rest) else a :: collapsed (b :: rest)
  | segments => segments

/-! ### Pieces -/

/-- The pieces of a segment for one name. -/
def segmentPieces (segment : Segment) : Except GlobError (List Piece) :=
  if segment = anyName then .ok [.some] else glob .plain segment

/-- The slash between two segments. -/
def slash (isNeeded : Bool) : List Piece :=
  if isNeeded then [.char '/'] else []

/-- The pieces of the segments behind the first one, and whether they end inside of a directory. A
slash is needed behind a name. -/
def piecesFrom (isNeeded : Bool) : List Segment → Except GlobError (List Piece × Bool)
  | [] => .ok ([], false)
  | [segment] =>
    if segment = anyNames then .ok ([.char '/'], true)
    else (segmentPieces segment).map fun pieces => (slash isNeeded ++ pieces, false)
  | segment :: rest =>
    if segment = anyNames then
      (piecesFrom true rest).map fun (pieces, isOpen) => (.between :: pieces, isOpen)
    else do
      let own ← segmentPieces segment
      let (pieces, isOpen) ← piecesFrom true rest
      return (slash isNeeded ++ own ++ pieces, isOpen)

/-- The pieces of all segments, and whether they end inside of a directory. -/
def piecesOf : List Segment → Except GlobError (List Piece × Bool)
  | segment :: rest =>
    if segment = anyNames then
      (piecesFrom false rest).map fun (pieces, isOpen) => (.above :: pieces, isOpen)
    else piecesFrom false (segment :: rest)
  | [] => .ok ([], false)

/-! ### Lines -/

/-- The shape for segments that end in a slash or not; none when brackets are not closed. -/
def shapeOf (isDirectory : Bool) (segments : List Segment) : Except PatternError (Option Shape) :=
  if segments = [anyNames] then .ok (some (if isDirectory then .nested else .everything))
  else if segments = [anyNames, anyName] then .ok (some .everything)
  else if segments = [anyNames, anyName, anyNames] then .ok (some .nested)
  else match piecesOf segments with
    | .error .unclosed => .ok none
    | .error .loneEscape => .error .invalid
    | .ok (pieces, isOpen) =>
      if !rangesInOrder pieces then .error .reversedRange
      else .ok (some (if isOpen then .inside pieces else .path pieces))

/-- A line without the white space at its end, unless a backslash keeps a last space. -/
def trimmed (line : String) : List Char :=
  match line.toList.reverse with
  | ' ' :: '\\' :: _ => line.toList
  | _ => (Text.stripEnd line).toList

/-- The pattern of the text of a line. -/
def patternOf (ignored : Bool) (text : List Char) : Except PatternError (Option Pattern) :=
  let segments := anchored (Text.splitAt (· == '/') text)
  if segments.isEmpty then .error .invalid
  else (shapeOf (endsInSlash segments) (collapsed (opened segments))).map
    (·.map fun shape => ⟨ignored, shape⟩)

/-- The pattern of a line, if it has one: empty lines, comments and single slashes have none. -/
def Pattern.ofLine (line : String) : Except PatternError (Option Pattern) :=
  match trimmed line with
  | [] => .ok none
  | '#' :: _ => .ok none
  | ['/'] => .ok none
  | '!' :: text => patternOf false text
  | text => patternOf true text

/-- The patterns of a text. -/
def patternsOf (text : String) : Except PatternError (List Pattern) :=
  ((Text.lines text).mapM Pattern.ofLine).map fun patterns => patterns.filterMap id

/-! ### Deciding -/

/-- Whether a path is one that a shape is about. -/
def Shape.holds (s : Shape) (path : List Char) : Bool :=
  match s with
  | .everything => true
  | .nested => path.contains '/'
  | .path pieces => leads nameEnds pieces path
  | .inside pieces => leads (fun _ => true) pieces path

/-- Whether a path is ignored: the last pattern about it decides. -/
def ignores (patterns : List Pattern) (path : String) : Bool :=
  match patterns.reverse.find? fun p => p.shape.holds path.toList with
  | some p => p.ignored
  | none => false

end JsxLint.Ignore
