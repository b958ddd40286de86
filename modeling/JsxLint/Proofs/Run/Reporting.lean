import JsxLint.Proofs.Files.Making
import JsxLint.Proofs.Run.ExitStatus
import JsxLint.Proofs.Run.Interruption

/-!
# What a run tells

The report on a run is written to its file before it is shown. When that cannot be done, the run is
broken off: what was found and repaired is not told, and the status is that of a failure, whatever
the outcomes are. When it can, the run is shown and its status tells how it came out.

* `Command.progress`: the work on the files of a scan;
* `Progressed.status`: what its outcomes come to;
* `Command.told_iff_written`: a run is told when its report can be written.
-/

namespace JsxLint

/-- The report on the work on files. -/
def Progressed.report (p : Progressed) : Report :=
  .ofOutcomes p.outcomes p.isInterrupted

/-- The status that work on files comes to: that of an interruption, or whether an error is left. -/
def Progressed.status (p : Progressed) : Nat :=
  if p.isInterrupted then 130
  else if p.outcomes.all fun o => o.unresolvedErrors.isEmpty then 0
  else 1

/-- The status of the report tells how the work came out. -/
theorem Progressed.statusOf_report (p : Progressed) : Command.statusOf p.report = p.status := by
  unfold Command.statusOf status report Command.interruptedStatus
  rw [Report.interrupted_ofOutcomes]
  by_cases hinterrupted : p.isInterrupted
  · rw [if_pos hinterrupted, if_pos hinterrupted]
  · rw [if_neg hinterrupted, if_neg hinterrupted]
    by_cases hclean : ∀ o ∈ p.outcomes, o.unresolvedErrors = []
    · rw [Report.exitStatus_eq_zero.2 hclean, if_pos (by simpa using hclean)]
    · rw [if_neg (by simpa using hclean)]
      have hstatus : (Report.ofOutcomes p.outcomes p.isInterrupted).exitStatus ≠ 0 :=
        fun h => hclean (Report.exitStatus_eq_zero.1 h)
      unfold Report.exitStatus at hstatus ⊢
      split_ifs at hstatus ⊢ with hnone
      · exact absurd rfl hstatus
      · rfl

namespace Command

variable {w : World} {f : Files} {s : Settings} {rules : List Rule} {scan : Settings.Scan}

/-- The work of a run on the files of a scan. -/
def progress (w : World) (f : Files) (s : Settings) (rules : List Rule) (scan : Settings.Scan) :
    Progressed :=
  (Engine.ofSettings s rules w.grammar w.faults).workAll w.runFaults 1 ⟨f, .none⟩ scan.jobs

theorem runSettings_of_scan (hrules : Rule.enabled s.disabledRules = .ok rules)
    (hscan : s.scan f s.root = .ok scan) : runSettings w f s =
      reported s (progress w f s rules scan).state.files (heading s.fix scan.root)
        (progress w f s rules scan).report w.timestamp := by
  refine runSettings_eq hrules hscan ?_
  unfold Settings.run
  rw [hscan]
  rfl

/-- The file tree after that work with the report in it, or what keeps the report from being
written. -/
def written (w : World) (f : Files) (s : Settings) (rules : List Rule) (scan : Settings.Scan) :
    Files.Attempt :=
  (progress w f s rules scan).state.files.writeReport (progress w f s rules scan).report
    s.reportPath w.timestamp

/-- A run that came to a report is told, and ends with the status that its outcomes come to, when the
report can be written. Otherwise it ends with the heading alone and a failure, be the outcomes what
they may. A report can be written when the directories above it can be made and its path leads to
nothing or to a file that may be written; so it cannot when the path leads to a directory or goes on
behind a file. -/
theorem told_iff_written (hrules : Rule.enabled s.disabledRules = .ok rules)
    (hscan : s.scan f s.root = .ok scan) :
    (runSettings w f s).files = (written w f s rules scan).files ∧
    ((written w f s rules scan).error = none →
      (runSettings w f s).failure = none ∧
      (runSettings w f s).output = heading s.fix scan.root ++
        (progress w f s rules scan).report.console s.fix (some s.reportPath.toString) ∧
      (runSettings w f s).status = (progress w f s rules scan).status) ∧
    (∀ e, (written w f s rules scan).error = some e →
      (runSettings w f s).failure = some (.report e) ∧
      (runSettings w f s).output = heading s.fix scan.root ∧ (runSettings w f s).status = 1) ∧
    ((written w f s rules scan).error = none ↔
      ((progress w f s rules scan).state.files.makeDirectories s.reportPath.parent).error = none ∧
      ((progress w f s rules scan).state.files.makeDirectories
        s.reportPath.parent).files.TakesFile s.reportPath) ∧
    ((progress w f s rules scan).state.files.isDirectory s.reportPath →
      (written w f s rules scan).error = some .isDirectory) ∧
    ∀ names place old mode, names <+: s.reportPath.parent.names →
      (progress w f s rules scan).state.files.find ⟨s.reportPath.anchor, names⟩ =
        .ok (place, .file old mode) →
      (written w f s rules scan).error ≠ none := by
  have hends := runSettings_of_scan (w := w) hrules hscan
  refine ⟨?_, fun hnone => ?_, fun e he => ?_, Files.writeReport_error_eq_none, fun hd => ?_,
    fun names place old mode habove hfile => Files.writeReport_of_file habove hfile⟩
  · rw [hends, reported_files]
    rfl
  · rw [hends, ← Progressed.statusOf_report]
    unfold written at hnone
    unfold reported
    simp only [hnone, and_self]
  · rw [hends]
    unfold written at he
    unfold reported
    simp only [he, Ending.broken, and_self]
  · unfold written
    rw [Files.writeReport_of_directory hd]

/-- Settings for repairs by which the report would take the place of the top directory. -/
def astray : Settings :=
  { mending with output := some ⟨"/", []⟩ }

/-- Of two files, the first one is repaired before a run is interrupted. With the report in its usual
place the status says so; when the report would take the place of a directory, the run is broken off
with nothing but its heading. -/
theorem pair_told_iff_written :
    (runSettings hasty pairFiles mending).failure = none ∧
    (runSettings hasty pairFiles mending).status = 130 ∧
    (runSettings hasty pairFiles astray).output = heading true pairScan.root ∧
    (runSettings hasty pairFiles astray).status = 1 ∧
    (runSettings hasty pairFiles astray).files.get? ["A.jsx"] ≠ pairFiles.get? ["A.jsx"] := by
  have hrules : Rule.enabled [] = .ok Rule.all := by
    simp [Rule.enabled, Rule.unknownIds]
  have hscan : mending.scan pairFiles mending.root = .ok pairScan := scan_pairFiles
  have hscan' : astray.scan pairFiles astray.root = .ok pairScan := scan_pairFiles
  have hwritten : (written hasty pairFiles mending Rule.all pairScan).error = none := by
    decide +kernel
  have hdirectory : (progress hasty pairFiles astray Rule.all pairScan).state.files.isDirectory
      astray.reportPath := by decide +kernel
  have hrepaired : (written hasty pairFiles astray Rule.all pairScan).files.get? ["A.jsx"] ≠
      pairFiles.get? ["A.jsx"] := by decide +kernel
  obtain ⟨-, htold, -⟩ := told_iff_written (w := hasty) hrules hscan
  obtain ⟨hfiles, -, hbroken, -, hastray, -⟩ := told_iff_written (w := hasty) hrules hscan'
  obtain ⟨hfailure, -, hstatus⟩ := htold hwritten
  obtain ⟨-, houtput, hone⟩ := hbroken _ (hastray hdirectory)
  have hinterrupted : (progress hasty pairFiles mending Rule.all pairScan).isInterrupted := by
    decide +kernel
  refine ⟨hfailure, ?_, houtput, hone, ?_⟩
  · rw [hstatus]
    exact if_pos hinterrupted
  · rw [hfiles]
    exact hrepaired

end Command
end JsxLint
