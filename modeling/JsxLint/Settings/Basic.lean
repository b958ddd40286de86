import JsxLint.Path

/-!
# Settings

What a run is asked to do: where to look, what to leave out, whether to fix, and where the report
goes.

* `Settings`: the settings; numbers that have to be positive are so by their type;
* `Settings.reportPath`: where the report goes.
-/

namespace JsxLint

/-- A number that is at least one. -/
abbrev Positive := { n : Nat // 0 < n }

/-- The settings of a run. -/
structure Settings where
  /-- The directory to look into. -/
  root : Path
  /-- Whether files are repaired. -/
  fix : Bool
  /-- Where the report goes; missing for the usual place. -/
  output : Option Path
  /-- The suffixes of the files to look at. -/
  extensions : List String
  /-- The names that are left out wherever they occur. -/
  ignoredNames : List String
  /-- Whether the root's list of ignored paths counts. -/
  respectIgnoreFile : Bool
  /-- The size in bytes above which a file is left out. -/
  maxFileSize : Int
  /-- The greatest number of rounds of repairs. -/
  maxPasses : Positive
  /-- The ids of the rules that are switched off. -/
  disabledRules : List String
  /-- How many files may be worked on at the same time; the report does not depend on it. -/
  jobs : Positive
  deriving DecidableEq, Repr

namespace Settings

/-- The suffixes that are looked at unless others are given. -/
def usualExtensions : List String :=
  [".jsx", ".tsx"]

/-- The names that are left out unless others are given. -/
def usualIgnoredNames : List String :=
  [".git", "node_modules", "build", "dist", "coverage", ".next", "out", "__pycache__", ".venv",
    "venv"]

/-- The settings when nothing is given. -/
def usual : Settings where
  root := .ofString "."
  fix := false
  output := none
  extensions := usualExtensions
  ignoredNames := usualIgnoredNames
  respectIgnoreFile := true
  maxFileSize := 1000000
  maxPasses := ⟨4, by decide⟩
  disabledRules := []
  jobs := ⟨1, by decide⟩

instance : Inhabited Settings := ⟨usual⟩

/-- The name of the report in its usual place, the root. -/
def reportName : String := "jsx-doctor-report.json"

/-- Where the report goes. -/
def reportPath (s : Settings) : Path :=
  s.output.getD (s.root.child reportName)

end Settings
end JsxLint
