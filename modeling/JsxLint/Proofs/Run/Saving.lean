import JsxLint.Proofs.Analysis.Printing
import JsxLint.Proofs.Files.Replacing
import JsxLint.Proofs.Run.Shapes

/-!
# Saving repaired texts

The work on a regular file either puts the repaired text in its place, with the mode that it had,
or leaves the file tree as it is and takes all changes back, so that every issue is open again.

* `Outcome.unresolved_of_changes`: without changes every issue is open;
* `Engine.save_cases`: the two ways in which saving ends;
* `Engine.work_all_or_nothing`: the same for the work on a file.
-/

namespace JsxLint

/-- Without changes every issue is open. -/
theorem Outcome.unresolved_of_changes {o : Outcome} (h : o.changes = []) :
    o.unresolved = o.issues := by
  unfold Outcome.unresolved
  simp [h]

namespace Engine

variable {e : Engine} {f : Files} {p : Path} {q : RealPath} {bytes : Bytes} {mode : Nat}
  {fault : Files.WriteStep → Option String} {s s' : State} {job : Job} {o : Outcome}

/-- What a failure leaves of an outcome and of the file tree. -/
structure TakenBack (f : Files) (o : Outcome) (g : Files) : Prop where
  written : o.written = false
  files : g = f
  changes : o.changes = []
  unresolved : o.unresolved = o.issues

theorem takenBack_of_changes (hwritten : o.written = false) (h : o.changes = []) :
    TakenBack f o f :=
  ⟨hwritten, rfl, h, Outcome.unresolved_of_changes h⟩

theorem changes_of_output (h : o.Analysed) (hn : o.output = none) : o.changes = [] := by
  by_contra hc
  have hsome := h.changes.2 hc
  simp [hn] at hsome

/-- Saving puts a repaired text in place of a regular file, or takes all back. -/
theorem save_cases (h : f.Regular p q bytes mode) (ho : o.Analysed) :
    ((save f p o fault).1.written ∧ ∃ text, o.output = some text ∧
      f.Replaced (save f p o fault).2 q (.file (Utf8.encode text) mode)) ∨
    TakenBack f (save f p o fault).1 (save f p o fault).2 := by
  unfold save
  cases hout : o.output with
  | none =>
    right
    exact takenBack_of_changes ho.unwritten.1 (changes_of_output ho hout)
  | some text =>
    dsimp only
    rw [Files.replace_eq h]
    cases f.replaceFault p q.dropLast fault with
    | none =>
      left
      exact ⟨rfl, text, rfl, Files.replaced_put h.ne_nil h.get? _⟩
    | some message =>
      right
      exact takenBack_of_changes ho.unwritten.1 rfl

/-- What the work on a file whose text can be read comes to. -/
theorem work_of_text {text : String} (h : readText s.files job.path = .ok text) :
    e.work fault s job =
      ((save s.files job.path (e.analyse job.shown text none s.calls).1 fault).1,
        ⟨(save s.files job.path (e.analyse job.shown text none s.calls).1 fault).2,
          (e.analyse job.shown text none s.calls).2⟩) := by
  unfold work
  rw [h]

/-- The text of a regular file. -/
theorem readText_eq_ok {text : String} (h : f.Regular p q bytes mode)
    (ht : readText f p = .ok text) : Utf8.decode? bytes = .ok text := by
  unfold readText at ht
  rw [h.content] at ht
  by_cases hr : Files.isReadable mode
  · rw [if_pos hr] at ht
    cases hd : Utf8.decode? bytes with
    | error defect => simp [hd, Except.mapError] at ht
    | ok source => simpa [hd, Except.mapError] using ht
  · rw [if_neg hr] at ht
    cases ht

/-- The work on a regular file is all or nothing. Either the file has the bytes of the repaired text
and its old mode, or nothing was changed and every issue is open; other files, temporary ones among
them, are as they were. A file that cannot be read, has no tree, or that nothing is changed in, is
left alone. -/
theorem work_all_or_nothing (h : s.files.Regular job.path q bytes mode)
    (hwork : e.work fault s job = (o, s')) :
    (o.written ∧ (∃ source text, Utf8.decode? bytes = .ok source ∧
        (e.analyse job.shown source none s.calls).1.output = some text ∧
        s.files.Replaced s'.files q (.file (Utf8.encode text) mode)) ∨
      TakenBack s.files o s'.files) ∧
    ((∃ defect, Utf8.decode? bytes = .error defect) ∨
      (∃ source error, Utf8.decode? bytes = .ok source ∧
        Document.read e.grammar job.shown source = .error error) ∨
      o.error.isSome ∨ o.changes = [] → TakenBack s.files o s'.files) := by
  have hprocessed : o.Processed := by
    have := work_processed e fault s job
    rwa [hwork] at this
  cases hread : readText s.files job.path with
  | error message =>
    have hback : TakenBack s.files o s'.files := by
      unfold work at hwork
      rw [hread] at hwork
      cases hwork
      exact takenBack_of_changes rfl rfl
    exact ⟨.inr hback, fun _ => hback⟩
  | ok source =>
    have hsource := readText_eq_ok h hread
    rw [work_of_text hread] at hwork
    cases hwork
    have hanalysed := analyse_analysed e job.shown source none s.calls
    rcases save_cases h hanalysed with ⟨hwritten, text, hout, hreplaced⟩ | hback
    · refine ⟨.inl ⟨hwritten, source, text, hsource, hout, hreplaced⟩, fun hnone => ?_⟩
      -- a file that was written has changes, and it was analysed
      have hstate := hprocessed.written.1 hwritten
      have hchanges := hprocessed.changes.1 hstate
      have hskipped := hprocessed.skipped.not.1 (by simp [hstate])
      rcases hnone with ⟨defect, hdefect⟩ | ⟨other, error, hother, hunread⟩ | herror | hnil
      · rw [hsource] at hdefect
        cases hdefect
      · rw [hsource] at hother
        cases hother
        have hnone : (e.analyse job.shown source none s.calls).1.output = none := by
          unfold analyse
          rw [hunread]
          cases error <;> rfl
        rw [hnone] at hout
        cases hout
      · exact absurd (.inr herror) hskipped
      · exact absurd hnil hchanges
    · exact ⟨.inr hback, fun _ => hback⟩

/-- A file tree with one file, which has `Concrete.hollowList` in it. -/
def hollowFiles : Files :=
  ⟨[(["A.jsx"], .file (Utf8.encode hollowText) 0o640)], [], []⟩

/-- The file of `hollowFiles`. -/
def hollowJob : Job :=
  ⟨⟨"", ["A.jsx"]⟩, "A.jsx"⟩

/-- No new file can take the place of an old one. -/
def busy (step : Files.WriteStep) : Option String :=
  if step = .rename then some "busy" else none

/-- The file of `hollowFiles` is written, and it is left alone when the new file cannot take its
place. -/
theorem hollow_all_or_nothing :
    (∃ source text, Utf8.decode? (Utf8.encode hollowText) = .ok source ∧
      (hollow.analyse "A.jsx" source none .none).1.output = some text ∧
      hollowFiles.Replaced (hollow.work (fun _ => none) ⟨hollowFiles, .none⟩ hollowJob).2.files
        ["A.jsx"] (.file (Utf8.encode text) 0o640)) ∧
    TakenBack hollowFiles (hollow.work busy ⟨hollowFiles, .none⟩ hollowJob).1
      (hollow.work busy ⟨hollowFiles, .none⟩ hollowJob).2.files := by
  have hregular : hollowFiles.Regular hollowJob.path ["A.jsx"] (Utf8.encode hollowText) 0o640 :=
    ⟨by decide +kernel, by decide +kernel⟩
  have hwritten : (hollow.work (fun _ => none) ⟨hollowFiles, .none⟩ hollowJob).1.written = true := by
    decide +kernel
  have hkept : (hollow.work busy ⟨hollowFiles, .none⟩ hollowJob).1.written = false := by
    decide +kernel
  constructor
  · generalize hwork : hollow.work (fun _ => none) ⟨hollowFiles, .none⟩ hollowJob = result
      at hwritten ⊢
    rcases (work_all_or_nothing (s := ⟨hollowFiles, .none⟩) hregular hwork).1 with h | h
    · simpa only [hollowJob] using h.2
    · cases hwritten.symm.trans h.written
  · generalize hwork : hollow.work busy ⟨hollowFiles, .none⟩ hollowJob = result at hkept ⊢
    rcases (work_all_or_nothing (s := ⟨hollowFiles, .none⟩) hregular hwork).1 with h | h
    · cases hkept.symm.trans h.1
    · exact h

end Engine
end JsxLint
