import JsxLint.Settings.Value

/-!
# Settings from loose values

Values under the names of settings replace what the settings were. Every value that cannot be read
is a problem; unknown names do not matter.

* `Problem`: a value that cannot be read, by the name of its setting;
* `Settings.update`: settings with other values;
* `Settings.ofValues`: the usual settings with other values.
-/

namespace JsxLint.Settings

/-- A value that cannot be read. -/
structure Problem where
  setting : String
  /-- The place of the item, for lists. -/
  item : Option Nat
  defect : Defect
  deriving DecidableEq, Repr

/-- Where a problem is: the setting and, behind a dot, the place of the item. -/
def Problem.place (p : Problem) : String :=
  match p.item with
  | some i => p.setting ++ "." ++ toString i
  | none => p.setting

/-- Values under the names of settings. -/
abbrev Values := List (String × Value)

/-- A setting whose value may be given, and what is wrong with the value. -/
def readList {α : Type} (values : Values) (name : String) (old : α)
    (read : Value → Except (List Misfit) α) : α × List Problem :=
  match (values.lookup name).map read with
  | none => (old, [])
  | some (.ok new) => (new, [])
  | some (.error misfits) => (old, misfits.map fun m => ⟨name, m.item, m.defect⟩)

/-- A setting that is not a list, whose value may be given. -/
def readOne {α : Type} (values : Values) (name : String) (old : α)
    (read : Value → Except Defect α) : α × List Problem :=
  readList values name old fun v => (read v).mapError fun defect => [⟨none, defect⟩]

/-- Settings with other values. -/
def update (s : Settings) (values : Values) : Except (List Problem) Settings :=
  let (root, p₁) := readOne values "root" s.root Value.toPath
  let (fix, p₂) := readOne values "fix" s.fix Value.toBool
  let (output, p₃) := readOne values "output_path" s.output Value.toPath?
  let (extensions, p₄) := readList values "extensions" s.extensions Value.toTexts
  let (ignoredNames, p₅) := readList values "ignored_dirs" s.ignoredNames Value.toTexts
  let (respectIgnoreFile, p₆) :=
    readOne values "respect_gitignore" s.respectIgnoreFile Value.toBool
  let (maxFileSize, p₇) := readOne values "max_file_size" s.maxFileSize Value.toInt
  let (maxPasses, p₈) := readOne values "max_fix_passes" s.maxPasses Value.toPositive
  let (disabledRules, p₉) := readList values "disabled_rules" s.disabledRules Value.toTexts
  let (jobs, p₁₀) := readOne values "jobs" s.jobs Value.toPositive
  match p₁ ++ p₂ ++ p₃ ++ p₄ ++ p₅ ++ p₆ ++ p₇ ++ p₈ ++ p₉ ++ p₁₀ with
  | [] => .ok { root, fix, output, extensions, ignoredNames, respectIgnoreFile, maxFileSize,
                maxPasses, disabledRules, jobs }
  | problems => .error problems

/-- The usual settings with other values. -/
def ofValues (values : Values) : Except (List Problem) Settings :=
  usual.update values

end JsxLint.Settings
