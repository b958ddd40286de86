import JsxLint.Analysis.Rounds
import Mathlib.Data.List.Basic

/-!
# Numbers of calls

An analysis counts its calls only for the faults that strike some of them. When what goes wrong does
not depend on the number of a call, the outcome does not depend on the calls before it.

* `Faults.Steady`: faults that strike every call of a kind or none;
* `Progress.withCalls`: the same progress after other calls;
* `Engine.analyse_steady`: the outcome of an analysis after other calls.
-/

namespace JsxLint

/-- Whether what goes wrong is the same at every call of a kind. -/
structure Faults.Steady (faults : Faults) : Prop where
  detect : ∀ rule k n, faults.detect rule k = faults.detect rule n
  repair : ∀ rule k n, faults.repair rule k = faults.repair rule n
  resolve : ∀ k n, faults.resolve k = faults.resolve n

theorem Faults.steady_none : Faults.none.Steady :=
  ⟨fun _ _ _ => rfl, fun _ _ _ => rfl, fun _ _ => rfl⟩

/-- The same progress after other calls. -/
def Progress.withCalls (p : Progress) (calls : Calls) : Progress :=
  { p with calls }

/-- When a step does with other calls what it does without them, many steps do so. -/
theorem foldl_withCalls {α β : Type} {step : β × Progress → α → β × Progress}
    (h : ∀ b p calls a, ∃ calls', step (b, p.withCalls calls) a =
      ((step (b, p) a).1, (step (b, p) a).2.withCalls calls')) (l : List α) (b : β) (p : Progress)
    (calls : Calls) : ∃ calls', l.foldl step (b, p.withCalls calls) =
      ((l.foldl step (b, p)).1, (l.foldl step (b, p)).2.withCalls calls') := by
  induction l generalizing b p calls with
  | nil => exact ⟨calls, rfl⟩
  | cons a l ih =>
    obtain ⟨calls', hstep⟩ := h b p calls a
    rw [List.foldl_cons, List.foldl_cons, hstep]
    exact ih (step (b, p) a).1 (step (b, p) a).2 calls'

namespace Engine

variable {e : Engine} (w : Workspace) (nodes : List Node) (rule : Rule) (p : Progress)
  (calls : Calls)

theorem note_withCalls (new : List (Rule × Finding)) (f : Finding) :
    note rule (new, p.withCalls calls) f =
      ((note rule (new, p) f).1, (note rule (new, p) f).2.withCalls calls) := by
  have hknows : (p.withCalls calls).knows f = p.knows f := rfl
  unfold note
  dsimp only
  rw [hknows]
  split <;> rfl

section Steady

variable (h : e.faults.Steady)

include h

theorem detectOne_withCalls : ∃ calls', e.detectOne w nodes rule (p.withCalls calls) =
    ((e.detectOne w nodes rule p).1, (e.detectOne w nodes rule p).2.withCalls calls') := by
  have hfailed : (p.withCalls calls).hasFailed rule.id = p.hasFailed rule.id := rfl
  unfold detectOne
  rw [hfailed]
  split_ifs
  · exact ⟨calls, rfl⟩
  · dsimp only
    rw [h.detect rule.id (countCall rule.id (p.withCalls calls).calls.detect).1
      (countCall rule.id p.calls.detect).1]
    cases e.faults.detect rule.id (countCall rule.id p.calls.detect).1 <;> exact ⟨_, rfl⟩

theorem detectAll_withCalls : ∃ calls', e.detectAll w (p.withCalls calls) =
    ((e.detectAll w p).1, (e.detectAll w p).2.withCalls calls') := by
  unfold detectAll
  refine foldl_withCalls (fun new p calls rule => ?_) e.rules [] p calls
  obtain ⟨calls', hone⟩ := detectOne_withCalls w w.document.root.walk rule p calls h
  dsimp only
  rw [hone]
  exact foldl_withCalls (fun new p calls f => ⟨calls, note_withCalls rule p calls new f⟩) _ new _
    calls'

theorem repairOne_withCalls (f : Finding) : ∃ calls', e.repairOne w (p.withCalls calls) rule f =
    ((e.repairOne w p rule f).1, (e.repairOne w p rule f).2.withCalls calls') := by
  unfold repairOne
  cases rule.repair? with
  | none => exact ⟨calls, rfl⟩
  | some repair =>
    dsimp only
    rw [h.repair rule.id (countCall rule.id (p.withCalls calls).calls.repair).1
      (countCall rule.id p.calls.repair).1]
    cases e.faults.repair rule.id (countCall rule.id p.calls.repair).1 with
    | some message => exact ⟨_, rfl⟩
    | none => cases repair w f <;> exact ⟨_, rfl⟩

theorem repairAll_withCalls (new : List (Rule × Finding)) :
    ∃ calls', e.repairAll w (p.withCalls calls) new = (e.repairAll w p new).withCalls calls' := by
  let step : Workspace × Progress → Rule × Finding → Workspace × Progress :=
    fun state x => e.repairOne state.1 state.2 x.1 x.2
  have hstep : ∀ w p calls x, ∃ calls', step (w, p.withCalls calls) x =
      ((step (w, p) x).1, (step (w, p) x).2.withCalls calls') :=
    fun w p calls x => repairOne_withCalls w x.1 p calls h x.2
  obtain ⟨calls', hall⟩ := foldl_withCalls hstep new w p calls
  have hrepair : ∀ q, e.repairAll w q new = { (new.foldl step (w, q)).2 with
      document := (new.foldl step (w, q)).1.document
      passes := (new.foldl step (w, q)).2.passes + 1 } := fun _ => rfl
  rw [hrepair, hrepair, hall]
  exact ⟨calls', rfl⟩

theorem resolve_withCalls : ∃ calls', e.resolve (p.withCalls calls) =
    ((e.resolve p).1.withCalls calls', (e.resolve p).2) := by
  unfold resolve
  dsimp only
  rw [h.resolve ((p.withCalls calls).calls.resolve + 1) (p.calls.resolve + 1)]
  cases e.faults.resolve (p.calls.resolve + 1) <;> exact ⟨_, rfl⟩

theorem rounds_withCalls (fix : Bool) (remaining : Nat) :
    ∃ calls', e.rounds fix remaining (p.withCalls calls) =
      ((e.rounds fix remaining p).1.withCalls calls', (e.rounds fix remaining p).2) := by
  induction remaining generalizing p calls with
  | zero =>
    obtain ⟨calls₁, hresolve⟩ := resolve_withCalls p calls h
    unfold rounds
    rw [hresolve]
    rcases e.resolve p with ⟨p, error | w⟩
    · exact ⟨calls₁, rfl⟩
    · obtain ⟨calls₂, hdetect⟩ := detectAll_withCalls w p calls₁ h
      dsimp only
      rw [hdetect]
      exact ⟨calls₂, by cases fix <;> rfl⟩
  | succ remaining ih =>
    obtain ⟨calls₁, hresolve⟩ := resolve_withCalls p calls h
    unfold rounds
    rw [hresolve]
    rcases e.resolve p with ⟨p, error | w⟩
    · exact ⟨calls₁, rfl⟩
    · obtain ⟨calls₂, hdetect⟩ := detectAll_withCalls w p calls₁ h
      dsimp only
      rw [hdetect]
      rcases e.detectAll w p with ⟨new, p⟩
      cases fix with
      | false => exact ⟨calls₂, rfl⟩
      | true =>
        obtain ⟨calls₃, hrepair⟩ := repairAll_withCalls w p calls₂ h new
        have hchanges : ∀ (q : Progress) calls, (q.withCalls calls).changes = q.changes :=
          fun _ _ => rfl
        dsimp only
        rw [hrepair, hchanges, hchanges]
        split_ifs
        · exact ⟨calls₃, rfl⟩
        · exact ih (e.repairAll w p new) calls₃

/-- The outcome of an analysis does not depend on the calls before it. -/
theorem analyse_steady (path text : String) (fix : Option Bool) (calls calls' : Calls) :
    (e.analyse path text fix calls).1 = (e.analyse path text fix calls').1 := by
  unfold analyse
  cases Document.read e.grammar path text with
  | error error => cases error <;> rfl
  | ok d =>
    have hstart : Progress.start d calls = (Progress.start d calls').withCalls calls := rfl
    obtain ⟨calls'', hrounds⟩ := rounds_withCalls (.start d calls') calls h (fix.getD e.fix)
      e.maxPasses
    dsimp only
    rw [hstart, hrounds]
    rcases e.rounds (fix.getD e.fix) e.maxPasses (.start d calls') with ⟨p, _ | error⟩ <;> rfl

end Steady

end Engine
end JsxLint
