import JsxLint.Command.Execution
import JsxLint.Concrete.Listing
import Std.Time.Format

/-!
# The program

The command line on the files of this computer: the part of the file tree that a command line
speaks of is read, the command line is executed on it, and the differences are written back.
-/

namespace JsxLint.Program

/-- The text of a real path. -/
def text (p : RealPath) : String :=
  (Files.absolute p).toString

/-- The mode of files that are read; it is not written back. -/
def readMode : Nat := Files.newMode

/-- What stands below a directory. -/
partial def load (directory : RealPath) : IO (List (RealPath × Entry)) := do
  let here ← IO.FS.realPath (text directory)
  let mut found := []
  for e in (← here.readDir) do
    let p := directory ++ [e.fileName]
    match (← e.path.symlinkMetadata).type with
    | .dir => found := found ++ (p, .directory) :: (← load p)
    | .file => found := found ++ [(p, .file (← IO.FS.readBinFile e.path).toList readMode)]
    | .symlink => found := found ++ [(p, .link (← IO.FS.realPath e.path).toString)]
    | .other => pure ()
  return found

/-- The directories above a real path. -/
def above (p : RealPath) : List (RealPath × Entry) :=
  (List.range (p.length - 1)).map fun i => (p.take (i + 1), .directory)

/-- What stands at a real path and below it. -/
def loadAt (p : RealPath) : IO (List (RealPath × Entry)) := do
  let here ← IO.FS.realPath (text p)
  if ← here.isDir then return above p ++ (p, .directory) :: (← load p)
  if ← here.pathExists then
    return above p ++ [(p, .file (← IO.FS.readBinFile here).toList readMode)]
  return []

/-- The real path of a written one. -/
def realPath (p : String) : IO RealPath := do
  return (Path.ofString (← IO.FS.realPath p).toString).names

/-- The files that a command line speaks of. -/
def loadFor (arguments : List String) : IO Files := do
  let working ← realPath "."
  let root := match Command.Request.ofArguments arguments with
    | .ok (.run _ options) => some options.root
    | _ => none
  let entries ← match root with
    | some root => loadAt (← realPath (if root = "" then "." else root))
    | none => pure []
  return ⟨above (working ++ [""]) ++ entries, working, []⟩

/-- Write an entry that is new or different. -/
def save (before : Files) (p : RealPath) : Entry → IO Unit
  | .directory => IO.FS.createDirAll (text p)
  | .link _ => pure ()
  | .file content _ => do
    if let some (.link _) := before.get? p then IO.FS.removeFile (text p)
    IO.FS.writeBinFile (text p) ⟨content.toArray⟩

/-- Write the entries that are new or different. -/
def saveAll (before after : Files) : IO Unit :=
  after.entries.forM fun (p, e) => do
    if before.get? p ≠ some e then save before p e

/-- The time as the report shows it. -/
def timestamp : IO String := do
  let now := Std.Time.DateTime.ofTimestamp (← Std.Time.Timestamp.now) Std.Time.TimeZone.ZoneRules.UTC
  return now.format "uuuu-MM-dd'T'HH:mm:ss.SSSSSS'Z'"

/-- The variables of the environment that count. -/
def environment : IO Environment := do
  let found ← Settings.variableNames.filterMapM fun name => do
    return (← IO.getEnv (Settings.variableStart ++ name)).map (name, ·)
  return fun name => found.lookup name

end JsxLint.Program

open JsxLint

/-- Execute a command line. -/
def main (arguments : List String) : IO UInt32 := do
  let before ← Program.loadFor arguments
  let world : Command.World :=
    { environment := ← Program.environment
      grammar := before.grammar
      faults := .none
      runFaults := .none
      timestamp := ← Program.timestamp }
  let ending := Command.execute world before arguments
  Program.saveAll before ending.files
  IO.print ending.output
  IO.eprint (ending.errors ++ String.join (ending.failure.toList.map (·.message ++ "\n")))
  return ending.status.toUInt32
