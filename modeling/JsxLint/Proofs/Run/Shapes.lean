import JsxLint.Proofs.Analysis.Rounds
import JsxLint.Run.File

/-!
# Shapes of outcomes

An outcome is one of four things: a file that was left out, one that nothing was changed in, a
repaired text, or a file that was written. The state tells which, and the other fields agree with
it on every way that an analysis or the work on a file can end.

* `Outcome.Shaped`: what holds of every outcome;
* `Outcome.Analysed`, `Outcome.Processed`: what holds after an analysis, and after the work on a
  file;
* `Outcome.Watching`: outcomes of an analysis that only looks;
* `Engine.analyse_analysed`, `Engine.work_processed`: analyses and work on files end so;
* `Engine.outcome_shapes`: both, and which paths cannot be worked on.
-/

namespace JsxLint

/-! ### Shapes -/

/-- What holds of every outcome: a file is left out when its text could not be read or when the
analysis broke down, and then nothing is told of it but that. -/
structure Outcome.Shaped (o : Outcome) : Prop where
  skipped : o.state = .skipped ↔ o.parseError.isSome ∨ o.error.isSome
  nothing : o.state = .skipped → o.findings = [] ∧ o.changes = [] ∧ o.refusals = [] ∧
    o.output = none ∧ o.written = false
  unread : o.parseError.isSome → o.failures = []

/-- What holds of the outcome of an analysis: there is a repaired text when there are changes. -/
structure Outcome.Analysed (o : Outcome) : Prop extends o.Shaped where
  output : o.state = .regenerated ↔ o.output.isSome
  changes : o.output.isSome ↔ o.changes ≠ []
  otherwise : o.state = .skipped ∨ o.state = .regenerated ∨ o.state = .unchanged
  unwritten : o.written = false ∧ o.writeError = none

/-- What holds of the outcome of work on a file: a file that was written has changes, and a
repaired text is left only when it could not be written, and then the changes are taken back. -/
structure Outcome.Processed (o : Outcome) : Prop extends o.Shaped where
  written : o.written ↔ o.state = .written
  changes : o.state = .written ↔ o.changes ≠ []
  failed : o.state = .regenerated ↔ o.writeError.isSome
  taken : o.state = .regenerated → o.changes = [] ∧ o.output = none

/-- Whether an outcome tells of findings only. -/
structure Outcome.Watching (o : Outcome) : Prop where
  changes : o.changes = []
  refusals : o.refusals = []
  output : o.output = none

/-- Without a repaired text there is nothing to write. -/
theorem Outcome.Analysed.processed {o : Outcome} (h : o.Analysed) (hn : o.output = none) :
    o.Processed := by
  have hchanges : o.changes = [] := by
    by_contra hc
    have := h.changes.2 hc
    simp [hn] at this
  have hregenerated : o.state ≠ .regenerated := by
    intro hr
    have := h.output.1 hr
    simp [hn] at this
  have hstate : o.state ≠ .written := by
    intro hw
    have := h.otherwise
    simp [hw] at this
  constructor
  · exact h.toShaped
  all_goals simp [h.unwritten, hstate, hchanges, hregenerated]

namespace Engine

variable {e : Engine} {p p' : Progress} {path text : String} {o : Outcome}

/-! ### Analyses -/

theorem unread_analysed (path message : String) : (Outcome.unread path message).Analysed := by
  constructor
  · constructor <;> simp [Outcome.unread]
  all_goals simp [Outcome.unread]

theorem broken_analysed (path : String) (p : Progress) (error : AnalysisError) :
    (broken path p error).Analysed := by
  constructor
  · constructor <;> simp [broken]
  all_goals simp [broken]

theorem finished_analysed (path : String) (h : p.changes = []) :
    (finished path p).Analysed := by
  constructor
  · constructor <;> simp [finished]
  all_goals simp [finished, h]

/-- Changes that could not be printed are taken back. -/
theorem abandon_analysed (path : String) (p : Progress) (reason : Reason) :
    ((finished path p).abandon reason).Analysed := by
  constructor
  · constructor <;> simp [finished, Outcome.abandon]
  all_goals simp [finished, Outcome.abandon]

theorem regenerated_analysed (path text : String) (h : p.changes ≠ []) :
    { finished path p with state := .regenerated, output := some text : Outcome }.Analysed := by
  constructor
  · constructor <;> simp [finished]
  all_goals simp [finished, h]

theorem conclude_analysed (e : Engine) (path : String) (p : Progress) :
    (e.conclude path p).Analysed := by
  unfold conclude
  by_cases hc : p.changes.isEmpty
  · rw [if_pos hc]
    exact finished_analysed path (List.isEmpty_iff.1 hc)
  · rw [if_neg hc]
    split
    · exact abandon_analysed path p _
    · exact regenerated_analysed path _ fun h => hc (List.isEmpty_iff.2 h)
    · exact broken_analysed path p _
    · exact abandon_analysed path p _

/-- Every analysis ends in one of the shapes. -/
theorem analyse_analysed (e : Engine) (path text : String) (fix : Option Bool) (calls : Calls) :
    (e.analyse path text fix calls).1.Analysed := by
  unfold analyse
  split
  · exact unread_analysed path _
  · exact broken_analysed path _ _
  · split
    · exact broken_analysed path _ _
    · exact conclude_analysed e path _

/-- Rounds without repairs change nothing and refuse nothing. -/
theorem rounds_watching (e : Engine) (n : Nat) (p : Progress) :
    (e.rounds false n p).1.changes = p.changes ∧ (e.rounds false n p).1.refusals = p.refusals := by
  cases hr : e.faults.resolve (p.calls.resolve + 1) with
  | some message =>
    rw [rounds_of_fault hr]
    exact ⟨rfl, rfl⟩
  | none =>
    rw [rounds_false hr]
    exact ⟨(found_detected e p).changes, (found_detected e p).refusals⟩

theorem broken_watching (path : String) (p : Progress) (error : AnalysisError) :
    (broken path p error).Watching :=
  ⟨rfl, rfl, rfl⟩

/-- An analysis without repairs tells of findings only. -/
theorem analyse_watching {fix : Option Bool} (h : fix.getD e.fix = false) (path text : String)
    (calls : Calls) : (e.analyse path text fix calls).1.Watching := by
  unfold analyse
  split
  · exact ⟨rfl, rfl, rfl⟩
  · exact broken_watching path _ _
  · next d _ =>
    obtain ⟨hc, hrefusals⟩ := rounds_watching e e.maxPasses (.start d calls)
    rw [h]
    generalize e.rounds false e.maxPasses (.start d calls) = result at hc hrefusals
    obtain ⟨p, _ | error⟩ := result
    · have hnone : p.changes.isEmpty := by
        rw [hc]
        rfl
      simp only [conclude, hnone, if_true]
      exact ⟨hc, hrefusals, rfl⟩
    · exact broken_watching path p error

/-! ### Work on files -/

variable {fault : Files.WriteStep → Option String}

/-- Saving a repaired text leaves one of the shapes: the file is written, or the changes are taken
back. -/
theorem save_processed (h : o.Analysed) (f : Files) (p : Path)
    (fault : Files.WriteStep → Option String) : (save f p o fault).1.Processed := by
  unfold save
  cases ho : o.output with
  | none => exact h.processed ho
  | some text =>
    have hsome : o.output.isSome := by simp [ho]
    have hstate : o.state = .regenerated := h.output.2 hsome
    have hchanges : o.changes ≠ [] := h.changes.1 hsome
    have hread : o.parseError = none ∧ o.error = none := by
      have := h.skipped
      simpa [hstate, not_or] using this
    dsimp only
    split
    · constructor
      · constructor <;> simp [Outcome.abandon, hstate, hread]
      all_goals simp [Outcome.abandon, hstate, h.unwritten]
    · constructor
      · constructor <;> simp [hread]
      all_goals simp [hchanges, h.unwritten]

theorem work_processed (e : Engine) (fault : Files.WriteStep → Option String) (s : State)
    (job : Job) : (e.work fault s job).1.Processed := by
  unfold work
  split
  · exact (unread_analysed _ _).processed rfl
  · exact save_processed (analyse_analysed e _ _ none s.calls) _ _ fault

/-- Work that only looks tells of findings only. -/
theorem work_watching (hfix : e.fix = false) (fault : Files.WriteStep → Option String) (s : State)
    (job : Job) : (e.work fault s job).1.Watching := by
  unfold work
  split
  · exact ⟨rfl, rfl, rfl⟩
  · next text _ =>
    have hnone : (none : Option Bool).getD e.fix = false := hfix
    have hw := analyse_watching hnone job.shown text s.calls
    simp only [save, hw.output]
    exact hw

/-! ### Both -/

/-- Every analysis comes to an outcome of one of the shapes, whatever breaks down on its way, and so
does the work on every file, wherever writing fails. Without repairs, outcomes tell of findings
only. The paths that cannot be worked on are those that no file can have. -/
theorem outcome_shapes (e : Engine) :
    (∀ path text fix calls, (e.analyse path text fix calls).1.Analysed ∧
      (fix.getD e.fix = false → (e.analyse path text fix calls).1.Watching)) ∧
    ∀ fault s root path, (path.hasNull ↔ e.workAt fault s root path = .error .nullCharacter) ∧
      (¬path.hasNull → ∃ o s', e.workAt fault s root path = .ok (o, s') ∧ o.Processed ∧
        (e.fix = false → o.Watching)) := by
  refine ⟨fun path text fix calls => ⟨analyse_analysed e path text fix calls, fun hfix =>
    analyse_watching hfix path text calls⟩, fun fault s root path => ?_⟩
  unfold workAt
  by_cases hn : path.hasNull
  · simp [hn]
  · refine ⟨by simp [hn], fun _ => ⟨_, _, by rw [if_neg hn], ?_, fun hfix => ?_⟩⟩
    · exact work_processed e fault s _
    · exact work_watching hfix fault s _

/-- A path with a null character cannot be worked on. -/
theorem workAt_nullCharacter : ¬∀ (e : Engine) (fault : Files.WriteStep → Option String) (s : State)
    (root : Option Path) (path : Path), ∃ result, e.workAt fault s root path = .ok result := by
  intro h
  obtain ⟨result, hresult⟩ := h ⟨[], fun _ _ => default, .none, true, 4⟩ (fun _ => none)
    ⟨⟨[], [], []⟩, .none⟩ none (.ofString "a\x00.jsx")
  have hnull : (Path.ofString "a\x00.jsx").hasNull := by decide +kernel
  simp [workAt, hnull] at hresult

end Engine
end JsxLint
