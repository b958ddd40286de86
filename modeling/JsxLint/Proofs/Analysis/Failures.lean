import JsxLint.Proofs.Analysis.Printing
import JsxLint.Proofs.Rule.Reports
import Mathlib.Logic.Function.Iterate

/-!
# Rules that break down

A rule that breaks down while it looks at a file is not asked again about it and is told of once.
What it found and changed in the rounds before stays in the outcome, so it is without findings only
when it breaks down in the first round.

* `Calls.detections`: how often a rule was asked;
* `Progress.Unasked`, `Progress.Untouched`: states with the same record of a rule;
* `Engine.detectNext_of_failed`, `Engine.detectNext_of_fault`, `Engine.detectNext_of_none`: what
  becomes of a rule that is asked;
* `Engine.found_of_failed`, `Engine.found_of_fault`, `Engine.found_of_none`: a rule in one round;
* `Engine.BreaksDown`, `Engine.BrokeDown`: the round in which a rule breaks down, and what is left;
* `Engine.rounds_brokeDown`: a rule that breaks down does so in one round;
* `Engine.analyse_failure`: what an outcome holds of a rule that broke down.
-/

namespace JsxLint

/-! ### Calls -/

/-- How often a rule was asked for findings. -/
def Calls.detections (c : Calls) (rule : String) : Nat :=
  (c.detect.lookup rule).getD 0

theorem countCall_eq (key : String) (calls : List (String × Nat)) :
    (countCall key calls).1 = (calls.lookup key).getD 0 + 1 := by
  induction calls with
  | nil => rfl
  | cons x calls ih =>
    obtain ⟨k, n⟩ := x
    rw [countCall, List.lookup_cons]
    by_cases h : k = key
    · rw [if_pos h, h, beq_self_eq_true]
      rfl
    · rw [if_neg h, beq_false_of_ne (Ne.symm h)]
      exact ih

theorem lookup_countCall (key other : String) (calls : List (String × Nat)) :
    (countCall key calls).2.lookup other =
      if other = key then some ((calls.lookup key).getD 0 + 1) else calls.lookup other := by
  induction calls with
  | nil =>
    rw [countCall, List.lookup_cons]
    split_ifs with h
    · rw [h, beq_self_eq_true]
      rfl
    · rw [beq_false_of_ne h]
  | cons x calls ih =>
    obtain ⟨k, n⟩ := x
    rw [countCall]
    by_cases h : k = key
    · subst h
      rw [if_pos rfl, List.lookup_cons, List.lookup_cons, List.lookup_cons, beq_self_eq_true]
      split_ifs with ho
      · rw [ho, beq_self_eq_true]
        rfl
      · rw [beq_false_of_ne ho]
    · rw [if_neg h]
      dsimp only
      rw [List.lookup_cons, List.lookup_cons, List.lookup_cons, ih, beq_false_of_ne (Ne.symm h)]
      by_cases ho : other = k
      · subst ho
        rw [beq_self_eq_true, if_neg h, if_neg h]
      · rw [beq_false_of_ne ho]

/-! ### The record of one rule -/

/-- Whether a rule was not asked between two states. -/
structure Progress.Unasked (rule : String) (p p' : Progress) : Prop where
  failures : p'.failures.filter (·.rule == rule) = p.failures.filter (·.rule == rule)
  detections : p'.calls.detections rule = p.calls.detections rule

/-- Whether two states have the same record of a rule, its findings included. -/
structure Progress.Untouched (rule : String) (p p' : Progress) : Prop extends
    p.Unasked rule p' where
  seen : p'.seen.filter (·.rule == rule) = p.seen.filter (·.rule == rule)

namespace Progress

variable {rule : String} {p p' p'' : Progress}

theorem Unasked.refl (rule : String) (p : Progress) : p.Unasked rule p :=
  ⟨rfl, rfl⟩

theorem Unasked.trans (h : p.Unasked rule p') (h' : p'.Unasked rule p'') : p.Unasked rule p'' :=
  ⟨h'.failures.trans h.failures, h'.detections.trans h.detections⟩

theorem Untouched.refl (rule : String) (p : Progress) : p.Untouched rule p :=
  ⟨.refl rule p, rfl⟩

theorem Untouched.trans (h : p.Untouched rule p') (h' : p'.Untouched rule p'') :
    p.Untouched rule p'' :=
  ⟨h.toUnasked.trans h'.toUnasked, h'.seen.trans h.seen⟩

theorem hasFailed_iff : p.hasFailed rule ↔ p.failures.filter (·.rule == rule) ≠ [] := by
  rw [hasFailed, List.any_eq_true, Ne, List.filter_eq_nil_iff]
  push Not
  rfl

theorem Unasked.hasFailed (h : p.Unasked rule p') : p'.hasFailed rule = p.hasFailed rule := by
  rw [Bool.eq_iff_iff, hasFailed_iff, hasFailed_iff, h.failures]

end Progress

namespace Engine

variable {e : Engine} {w : Workspace} {nodes : List Node} {p p' : Progress} {rule r : Rule}
  {new : List (Rule × Finding)} {id : String}

/-! ### A rule that is asked -/

/-- A rule that broke down before is not asked. -/
theorem detectNext_of_failed (e : Engine) (w : Workspace) (nodes : List Node)
    (new : List (Rule × Finding)) (hp : p.hasFailed rule.id) :
    e.detectNext w nodes (new, p) rule = (new, p) := by
  rw [detectNext, detectOne, if_pos hp]
  rfl

/-- A rule that breaks down finds nothing. -/
theorem detectNext_of_fault (w : Workspace) (nodes : List Node) (new : List (Rule × Finding))
    (hp : ¬p.hasFailed rule.id) {message : String}
    (hf : e.faults.detect rule.id (p.calls.detections rule.id + 1) = some message) :
    e.detectNext w nodes (new, p) rule = (new, { p with
      failures := p.failures ++ [⟨rule.id, breakdownMessage message⟩]
      calls := { p.calls with detect := (countCall rule.id p.calls.detect).2 } }) := by
  rw [Calls.detections, ← countCall_eq] at hf
  rw [detectNext, detectOne, if_neg hp]
  dsimp only
  rw [hf]
  rfl

/-- A rule that does not break down finds what is not known. -/
theorem detectNext_of_none (w : Workspace) (nodes : List Node) (new : List (Rule × Finding))
    (hp : ¬p.hasFailed rule.id)
    (hf : e.faults.detect rule.id (p.calls.detections rule.id + 1) = none) :
    e.detectNext w nodes (new, p) rule =
      (new ++ (unknown p.seen (rule.detect w nodes)).map (rule, ·), { p with
        seen := p.seen ++ unknown p.seen (rule.detect w nodes)
        calls := { p.calls with detect := (countCall rule.id p.calls.detect).2 } }) := by
  rw [Calls.detections, ← countCall_eq] at hf
  rw [detectNext, detectOne, if_neg hp]
  dsimp only
  rw [hf]
  exact foldl_note rule _ new _

/-- The number of calls of a rule when one more is counted. -/
theorem detections_countCall (c : Calls) (rule id : String) :
    ({ c with detect := (countCall rule c.detect).2 } : Calls).detections id =
      if id = rule then c.detections rule + 1 else c.detections id := by
  rw [Calls.detections, lookup_countCall]
  split_ifs <;> rfl

/-- Another rule at work does not ask a rule. -/
theorem detectNext_unasked (hid : rule.id ≠ id) (new : List (Rule × Finding)) (p : Progress) :
    p.Unasked id (e.detectNext w nodes (new, p) rule).2 := by
  have hcalls := (detections_countCall p.calls rule.id id).trans (if_neg (Ne.symm hid))
  by_cases hp : p.hasFailed rule.id
  · rw [detectNext_of_failed e w nodes new hp]
    exact .refl id p
  · cases hf : e.faults.detect rule.id (p.calls.detections rule.id + 1) with
    | none =>
      rw [detectNext_of_none w nodes new hp hf]
      exact ⟨rfl, hcalls⟩
    | some message =>
      rw [detectNext_of_fault w nodes new hp hf]
      refine ⟨?_, hcalls⟩
      dsimp only
      rw [List.filter_append, List.filter_singleton, beq_false_of_ne hid]
      exact List.append_nil _

/-- Another rule at work leaves no trace in the record of a rule. -/
theorem detectNext_untouched (hs : rule.Signs) (hid : rule.id ≠ id) (new : List (Rule × Finding))
    (p : Progress) : p.Untouched id (e.detectNext w nodes (new, p) rule).2 := by
  refine ⟨detectNext_unasked hid new p, ?_⟩
  rw [detectNext, foldl_note]
  obtain ⟨hone, hfound⟩ := detectOne_detected e w nodes rule p
  have hmore : (unknown (e.detectOne w nodes rule p).2.seen
      (e.detectOne w nodes rule p).1).filter (·.rule == id) = [] := by
    refine List.filter_eq_nil_iff.2 fun f hf => ?_
    rw [hs.rule_eq (hfound f (mem_of_mem_unknown hf)), beq_iff_eq]
    exact hid
  dsimp only
  rw [List.filter_append, hmore, hone.seen, List.map_nil, List.append_nil, List.append_nil]

theorem foldl_unasked (e : Engine) (w : Workspace) (nodes : List Node) {rules : List Rule}
    (hid : ∀ s ∈ rules, s.id ≠ id)
    (state : List (Rule × Finding) × Progress) :
    state.2.Unasked id (rules.foldl (e.detectNext w nodes) state).2 :=
  List.foldlRecOn rules (e.detectNext w nodes) (motive := fun s => state.2.Unasked id s.2)
    (.refl id state.2) fun s h rule hr => h.trans (detectNext_unasked (hid rule hr) s.1 s.2)

theorem foldl_untouched (e : Engine) (w : Workspace) (nodes : List Node) {rules : List Rule}
    (hs : ∀ s ∈ rules, s.Signs) (hid : ∀ s ∈ rules, s.id ≠ id) (state : List (Rule × Finding) × Progress) :
    state.2.Untouched id (rules.foldl (e.detectNext w nodes) state).2 :=
  List.foldlRecOn rules (e.detectNext w nodes) (motive := fun s => state.2.Untouched id s.2)
    (.refl id state.2) fun s h rule hr => h.trans (detectNext_untouched (hs rule hr) (hid rule hr) s.1 s.2)

/-! ### One rule in one round -/

section Round

variable (hs : ∀ s ∈ e.rules, s.Signs) (hids : (e.rules.map (·.id)).Nodup) (hr : r ∈ e.rules)

include hs hids hr

/-- In a round a rule is at work once, and all others leave its record alone. -/
theorem found_cases (p : Progress) : ∃ new p', p.Untouched r.id p' ∧
    (e.detectNext (.ofDocument p.document) p.document.root.walk (new, p') r).2.Untouched r.id
      (e.found p).2 := by
  obtain ⟨before, after, hrules⟩ := List.append_of_mem hr
  rw [hrules, List.map_append, List.map_cons, List.nodup_middle, List.nodup_cons,
    ← List.map_append, List.mem_map] at hids
  have hother : ∀ s ∈ before ++ after, s.Signs ∧ s.id ≠ r.id := by
    refine fun s hmem => ⟨hs s ?_, fun he => hids.1 ⟨s, hmem, he⟩⟩
    rw [hrules]
    exact (List.mem_append.1 hmem).elim (List.mem_append_left _) fun h =>
      List.mem_append_right _ (List.mem_cons_of_mem _ h)
  have hcounted : p.Untouched r.id (counted p) := ⟨⟨rfl, rfl⟩, rfl⟩
  have hbefore := foldl_untouched e (.ofDocument p.document) p.document.root.walk
    (fun s h => (hother s (List.mem_append_left _ h)).1)
    (fun s h => (hother s (List.mem_append_left _ h)).2) ([], counted p)
  refine ⟨(before.foldl (e.detectNext (.ofDocument p.document) p.document.root.walk)
    ([], counted p)).1, _, hcounted.trans hbefore, ?_⟩
  rw [found, detectAll_eq, hrules, List.foldl_append, List.foldl_cons]
  exact foldl_untouched e _ _ (fun s h => (hother s (List.mem_append_right _ h)).1)
    (fun s h => (hother s (List.mem_append_right _ h)).2) _

theorem found_of_failed (hp : p.hasFailed r.id) : p.Untouched r.id (e.found p).2 := by
  obtain ⟨new, p', hbefore, hafter⟩ := found_cases hs hids hr p
  rw [detectNext_of_failed e _ _ new (hbefore.hasFailed.trans hp)] at hafter
  exact hbefore.trans hafter

section Asked

variable (hp : ¬p.hasFailed r.id)

include hp

/-- After the round in which a rule breaks down it has one failure and no new finding. -/
theorem found_of_fault {message : String}
    (hf : e.faults.detect r.id (p.calls.detections r.id + 1) = some message) :
    (e.found p).2.failures.filter (·.rule == r.id) = [⟨r.id, breakdownMessage message⟩] ∧
      (e.found p).2.calls.detections r.id = p.calls.detections r.id + 1 ∧
      (e.found p).2.seen.filter (·.rule == r.id) = p.seen.filter (·.rule == r.id) := by
  obtain ⟨new, p', hbefore, hafter⟩ := found_cases hs hids hr p
  rw [← hbefore.hasFailed] at hp
  rw [← hbefore.detections] at hf ⊢
  rw [detectNext_of_fault _ _ new hp hf] at hafter
  refine ⟨hafter.failures.trans ?_, hafter.detections.trans ?_, hafter.seen.trans hbefore.seen⟩
  · dsimp only
    rw [List.filter_append, not_not.1 (Progress.hasFailed_iff.not.1 hp), List.filter_singleton,
      beq_self_eq_true]
    rfl
  · exact (detections_countCall p'.calls r.id r.id).trans (if_pos rfl)

/-- After a round in which a rule does not break down it has no failure. -/
theorem found_of_none (hf : e.faults.detect r.id (p.calls.detections r.id + 1) = none) :
    ¬(e.found p).2.hasFailed r.id ∧
      (e.found p).2.calls.detections r.id = p.calls.detections r.id + 1 := by
  obtain ⟨new, p', hbefore, hafter⟩ := found_cases hs hids hr p
  rw [← hbefore.hasFailed] at hp
  rw [← hbefore.detections] at hf ⊢
  rw [detectNext_of_none _ _ new hp hf] at hafter
  refine ⟨fun h => hp (hafter.hasFailed.symm.trans h), hafter.detections.trans ?_⟩
  exact (detections_countCall p'.calls r.id r.id).trans (if_pos rfl)

end Asked

end Round

/-! ### Repairs -/

theorem repairOne_failures (e : Engine) (w : Workspace) (p : Progress) (rule : Rule) (f : Finding) :
    (e.repairOne w p rule f).2.failures = p.failures ∧
      (e.repairOne w p rule f).2.calls.detect = p.calls.detect := by
  rw [repairOne]
  cases rule.repair? with
  | none => exact ⟨rfl, rfl⟩
  | some repair =>
    dsimp only
    cases e.faults.repair rule.id (countCall rule.id p.calls.repair).1 with
    | some message => exact ⟨rfl, rfl⟩
    | none =>
      dsimp only
      cases repair w f <;> exact ⟨rfl, rfl⟩

theorem repairAll_failures (e : Engine) (w : Workspace) (p : Progress)
    (new : List (Rule × Finding)) : (e.repairAll w p new).failures = p.failures ∧
      (e.repairAll w p new).calls.detect = p.calls.detect := by
  rw [repairAll]
  dsimp only
  induction new generalizing w p with
  | nil => exact ⟨rfl, rfl⟩
  | cons x new ih =>
    obtain ⟨hf, hd⟩ := ih (e.repairOne w p x.1 x.2).1 (e.repairOne w p x.1 x.2).2
    obtain ⟨hf', hd'⟩ := repairOne_failures e w p x.1 x.2
    exact ⟨hf.trans hf', hd.trans hd'⟩

theorem repaired_untouched (e : Engine) (p : Progress) (id : String) :
    (e.found p).2.Untouched id (e.repaired p) := by
  obtain ⟨hf, hd⟩ := repairAll_failures e (.ofDocument p.document) (e.found p).2 (e.found p).1
  obtain ⟨-, -, -, -, -, hs, -⟩ := repairAll_repairs e (.ofDocument p.document) (e.found p).2
    (e.found p).1
  exact ⟨⟨congrArg _ hf, congrArg (fun calls => (calls.lookup id).getD 0) hd⟩, congrArg _ hs⟩

/-- Every change of a round repairs one of its findings. -/
theorem Repairs.exists_finding {changes : List Change} {w' : Workspace}
    (h : Repairs w new changes w') : ∀ c ∈ changes, ∃ x ∈ new, ∃ repair v v',
      x.1.repair? = some repair ∧ repair v x.2 = .ok (c, v') := by
  intro c hc
  obtain ⟨before, x, after, repair, -, -, v, v', rfl, -, hr, hok, -⟩ := h.split hc
  exact ⟨x, List.mem_append_right _ List.mem_cons_self, repair, v, v', hr, hok⟩

/-- A round that finds nothing of a rule makes no change of it. -/
theorem repaired_changes (hs : ∀ s ∈ e.rules, s.Signs) {id : String}
    (h : (e.found p).2.seen.filter (·.rule == id) = p.seen.filter (·.rule == id)) :
    (e.repaired p).changes.filter (·.rule == id) = p.changes.filter (·.rule == id) := by
  have hd := found_detected e p
  rw [hd.seen, List.filter_append, List.append_right_eq_self, List.filter_eq_nil_iff] at h
  obtain ⟨changes, w', hr, -, hc, -⟩ := repaired_repairs e p
  rw [hc, List.filter_append, List.append_right_eq_self, List.filter_eq_nil_iff]
  intro c hmem
  obtain ⟨x, hx, repair, v, v', hrepair, hok⟩ := hr.exists_finding c hmem
  obtain ⟨hrule, hf⟩ := hd.mem x hx
  rw [((hs x.1 hrule).change_eq hrepair hok).1, ← (hs x.1 hrule).rule_eq hf]
  exact h x.2 (List.mem_map_of_mem hx)

/-! ### All rounds -/

/-- Whether a rule that was asked a number of times more without breaking down then does, and how
that is told. -/
structure BreaksDown (e : Engine) (r : Rule) (p : Progress) (k : Nat) (failure : DetectionFailure) :
    Prop where
  before : ∀ j < k, e.faults.detect r.id (p.calls.detections r.id + j + 1) = none
  fault : ∃ message, e.faults.detect r.id (p.calls.detections r.id + k + 1) = some message ∧
    failure = ⟨r.id, breakdownMessage message⟩

/-- What a state holds of a rule that broke down on the way there from another state: one failure,
no call after that, and the findings and changes from before the round of the failure. -/
structure BrokeDown (e : Engine) (r : Rule) (p : Progress) (k : Nat) (failure : DetectionFailure)
    (p' : Progress) : Prop where
  breaks : e.BreaksDown r p k failure
  failures : p'.failures.filter (·.rule == r.id) = [failure]
  detections : p'.calls.detections r.id = p.calls.detections r.id + k + 1
  seen : p'.seen.filter (·.rule == r.id) = (e.repaired^[k] p).seen.filter (·.rule == r.id)
  changes : p'.changes.filter (·.rule == r.id) = (e.repaired^[k] p).changes.filter (·.rule == r.id)

theorem BrokeDown.untouched {k : Nat} {failure : DetectionFailure} {p'' : Progress}
    (h : e.BrokeDown r p k failure p') (hu : p'.Untouched r.id p'')
    (hc : p''.changes.filter (·.rule == r.id) = p'.changes.filter (·.rule == r.id)) :
    e.BrokeDown r p k failure p'' :=
  ⟨h.breaks, hu.failures.trans h.failures, hu.detections.trans h.detections, hu.seen.trans h.seen,
    hc.trans h.changes⟩

section Rounds

variable (hs : ∀ s ∈ e.rules, s.Signs) (hids : (e.rules.map (·.id)).Nodup) (hr : r ∈ e.rules)

include hs hids hr

/-- A round that a rule breaks down in is the first in which it does. -/
theorem found_brokeDown (hp : ¬p.hasFailed r.id) (h : (e.found p).2.hasFailed r.id) :
    ∃ failure, e.BrokeDown r p 0 failure (e.found p).2 := by
  cases hf : e.faults.detect r.id (p.calls.detections r.id + 1) with
  | none => exact absurd h (found_of_none hs hids hr hp hf).1
  | some message =>
    obtain ⟨hfailures, hdetections, hseen⟩ := found_of_fault hs hids hr hp hf
    exact ⟨_, ⟨fun j hj => absurd hj (Nat.not_lt_zero j), message, hf, rfl⟩, hfailures, hdetections,
      hseen, congrArg _ (found_detected e p).changes⟩

theorem repaired_brokeDown (hp : ¬p.hasFailed r.id) (h : (e.repaired p).hasFailed r.id) :
    ∃ failure, e.BrokeDown r p 0 failure (e.repaired p) := by
  have hu := repaired_untouched e p r.id
  obtain ⟨failure, hb⟩ := found_brokeDown hs hids hr hp (hu.hasFailed.symm.trans h)
  refine ⟨failure, hb.untouched hu ?_⟩
  exact (repaired_changes hs hb.seen).trans (congrArg _ (found_detected e p).changes.symm)

/-- A round after a rule broke down leaves its record and its changes alone. -/
theorem repaired_of_failed (hp : p.hasFailed r.id) : p.Untouched r.id (e.repaired p) ∧
    (e.repaired p).changes.filter (·.rule == r.id) = p.changes.filter (·.rule == r.id) := by
  have hfound := found_of_failed hs hids hr hp
  exact ⟨hfound.trans (repaired_untouched e p r.id), repaired_changes hs hfound.seen⟩

/-- Rounds leave the record and the changes of a rule that broke down before alone, and a rule that
breaks down on the way does so in one round. -/
theorem rounds_brokeDown (fix : Bool) (n : Nat) (p : Progress) :
    (p.hasFailed r.id → p.Untouched r.id (e.rounds fix n p).1 ∧
      (e.rounds fix n p).1.changes.filter (·.rule == r.id) = p.changes.filter (·.rule == r.id)) ∧
    (¬p.hasFailed r.id → (e.rounds fix n p).1.hasFailed r.id →
      ∃ k failure, e.BrokeDown r p k failure (e.rounds fix n p).1) := by
  refine rounds_induction (motive := fun p p' => (p.hasFailed r.id → p.Untouched r.id p' ∧
    p'.changes.filter (·.rule == r.id) = p.changes.filter (·.rule == r.id)) ∧
      (¬p.hasFailed r.id → p'.hasFailed r.id → ∃ k failure, e.BrokeDown r p k failure p'))
    (fun p => ⟨fun _ => ⟨⟨⟨rfl, rfl⟩, rfl⟩, rfl⟩, fun hp h => absurd h hp⟩)
    (fun p => ⟨fun hp => ⟨found_of_failed hs hids hr hp, congrArg _ (found_detected e p).changes⟩,
      fun hp h => ⟨0, found_brokeDown hs hids hr hp h⟩⟩)
    (fun p => ⟨repaired_of_failed hs hids hr, fun hp h => ⟨0, repaired_brokeDown hs hids hr hp h⟩⟩)
    (fun p p' ih => ⟨fun hp => ?_, fun hp h => ?_⟩) fix n p
  · obtain ⟨hu, hc⟩ := repaired_of_failed hs hids hr hp
    obtain ⟨hu', hc'⟩ := ih.1 (hu.hasFailed.trans hp)
    exact ⟨hu.trans hu', hc'.trans hc⟩
  · by_cases hnow : (e.repaired p).hasFailed r.id
    · obtain ⟨failure, hb⟩ := repaired_brokeDown hs hids hr hp hnow
      obtain ⟨hu, hc⟩ := ih.1 hnow
      exact ⟨0, failure, hb.untouched hu hc⟩
    · obtain ⟨k, failure, hb⟩ := ih.2 hnow h
      -- one call more was made in the round that is put in front
      have hu := repaired_untouched e p r.id
      have hnone : e.faults.detect r.id (p.calls.detections r.id + 1) = none := by
        by_contra hf
        obtain ⟨message, hf⟩ := Option.ne_none_iff_exists'.1 hf
        refine hnow ?_
        rw [hu.hasFailed, Progress.hasFailed_iff, (found_of_fault hs hids hr hp hf).1]
        exact List.cons_ne_nil _ _
      have hone : (e.repaired p).calls.detections r.id = p.calls.detections r.id + 1 :=
        hu.detections.trans (found_of_none hs hids hr hp hnone).2
      refine ⟨k + 1, failure, ⟨⟨fun j hj => ?_, ?_⟩, hb.failures, ?_, hb.seen, hb.changes⟩⟩
      · cases j with
        | zero => exact hnone
        | succ j =>
          have hj := hb.breaks.before j (Nat.lt_of_succ_lt_succ hj)
          rwa [hone, Nat.add_right_comm _ 1 j] at hj
      · obtain ⟨message, hf, he⟩ := hb.breaks.fault
        rw [hone, Nat.add_right_comm _ 1 k] at hf
        exact ⟨message, hf, he⟩
      · rw [hb.detections, hone]
        omega

end Rounds

/-! ### Outcomes -/

end Engine

/-- Whether an outcome tells of all rules that broke down in some rounds, and shows only what these
came to; without an error it shows all findings. -/
structure Outcome.Shows (o : Outcome) (p : Progress) : Prop where
  failures : o.failures = p.failures
  findings : ∀ f ∈ o.findings, f ∈ p.seen
  changes : ∀ c ∈ o.changes, c ∈ p.changes
  complete : o.error = none → ∀ f ∈ p.seen, f ∈ o.findings

namespace Engine

variable {e : Engine} {r : Rule} {path text : String} {d : Document}

theorem broken_shows (path : String) (p : Progress) (error : AnalysisError) :
    (broken path p error).Shows p :=
  ⟨rfl, fun f hf => (by cases hf), fun c hc => (by cases hc), fun h => by cases h⟩

theorem conclude_shows (e : Engine) (path : String) (p : Progress) :
    (e.conclude path p).Shows p := by
  have hfound : ∀ f, f ∈ p.seen.mergeSort findingLe ↔ f ∈ p.seen := fun f =>
    (List.mergeSort_perm p.seen findingLe).mem_iff
  have hkept : ∀ o : Outcome, o.failures = p.failures → o.findings = p.seen.mergeSort findingLe →
      (∀ c ∈ o.changes, c ∈ p.changes) → o.Shows p := fun o hf hs hc =>
    ⟨hf, fun f hm => (hfound f).1 (hs ▸ hm), hc, fun _ f hm => hs ▸ (hfound f).2 hm⟩
  rw [conclude]
  split_ifs
  · exact hkept _ rfl rfl fun c hc => hc
  · split
    · exact hkept _ rfl rfl fun c hc => by cases hc
    · exact hkept _ rfl rfl fun c hc => hc
    · exact broken_shows path p _
    · exact hkept _ rfl rfl fun c hc => by cases hc

theorem analyse_shows (hread : Document.read e.grammar path text = .ok d) (fix : Option Bool)
    (calls : Calls) {p : Progress}
    (hp : p = (e.rounds (fix.getD e.fix) e.maxPasses (.start d calls)).1) :
    (e.analyse path text fix calls).1.Shows p ∧ (e.analyse path text fix calls).2 = p.calls := by
  rw [analyse, hread]
  dsimp only
  rcases hrounds : e.rounds (fix.getD e.fix) e.maxPasses (.start d calls) with ⟨p', _ | error⟩
  · rw [hrounds] at hp
    exact ⟨hp ▸ conclude_shows e path p', hp ▸ rfl⟩
  · rw [hrounds] at hp
    exact ⟨hp ▸ broken_shows path p' error, hp ▸ rfl⟩

theorem mem_of_filter_eq {α : Type} {q : α → Bool} {xs ys : List α} {x : α}
    (h : xs.filter q = ys.filter q) (hx : x ∈ xs) (hq : q x) : x ∈ ys :=
  List.mem_of_mem_filter (h ▸ List.mem_filter.2 ⟨hx, hq⟩)

/-- A rule that broke down on a file has one failure there, for the last of its calls, and was not
asked again. What the outcome shows of it is what it had found and changed in the rounds before the
one in which it broke down: nothing at all when that was the first. -/
theorem analyse_failure (hs : ∀ s ∈ e.rules, s.Signs) (hids : (e.rules.map (·.id)).Nodup)
    (hr : r ∈ e.rules) (hread : Document.read e.grammar path text = .ok d) (fix : Option Bool)
    (calls : Calls) {o : Outcome} {calls' : Calls} (ho : e.analyse path text fix calls = (o, calls'))
    (hf : ∃ failure ∈ o.failures, failure.rule = r.id) :
    ∃ k failure, e.BreaksDown r (.start d calls) k failure ∧
      o.failures.filter (·.rule == r.id) = [failure] ∧
      calls'.detections r.id = calls.detections r.id + k + 1 ∧
      (∀ f ∈ o.findings, f.rule = r.id → f ∈ (e.repaired^[k] (.start d calls)).seen) ∧
      (∀ c ∈ o.changes, c.rule = r.id → c ∈ (e.repaired^[k] (.start d calls)).changes) ∧
      (o.error = none → ∀ f ∈ (e.repaired^[k] (.start d calls)).seen, f.rule = r.id →
        f ∈ o.findings) ∧
      (k = 0 → (∀ f ∈ o.findings, f.rule ≠ r.id) ∧ ∀ c ∈ o.changes, c.rule ≠ r.id) := by
  obtain ⟨hshows, hcalls⟩ := analyse_shows hread fix calls rfl
  rw [ho] at hshows hcalls
  dsimp only at hshows hcalls
  subst hcalls
  have hfailed : (e.rounds (fix.getD e.fix) e.maxPasses (.start d calls)).1.hasFailed r.id := by
    obtain ⟨failure, hmem, hid⟩ := hf
    exact List.any_eq_true.2 ⟨failure, hshows.failures ▸ hmem, beq_iff_eq.2 hid⟩
  obtain ⟨k, failure, hb⟩ := (rounds_brokeDown hs hids hr (fix.getD e.fix) e.maxPasses
    (.start d calls)).2 Bool.false_ne_true hfailed
  have hseen : ∀ f ∈ o.findings, f.rule = r.id → f ∈ (e.repaired^[k] (.start d calls)).seen :=
    fun f hf hid => mem_of_filter_eq hb.seen (hshows.findings f hf) (beq_iff_eq.2 hid)
  have hchanged : ∀ c ∈ o.changes, c.rule = r.id →
      c ∈ (e.repaired^[k] (.start d calls)).changes := fun c hc hid =>
    mem_of_filter_eq hb.changes (hshows.changes c hc) (beq_iff_eq.2 hid)
  refine ⟨k, failure, hb.breaks, hshows.failures ▸ hb.failures, hb.detections, hseen,
    hchanged, fun he f hf hid =>
      hshows.complete he f (mem_of_filter_eq hb.seen.symm hf (beq_iff_eq.2 hid)), ?_⟩
  rintro rfl
  exact ⟨fun f hf hid => (by cases hseen f hf hid), fun c hc hid => (by cases hchanged c hc hid)⟩

/-- All rules at work on `Concrete.hollowList`, of which the one on keys breaks down in the second
round. -/
def stumbling : Engine :=
  { hollow with
    faults := { Faults.none with
      detect := fun rule n => if rule = "missing-key" && n = 2 then some "" else none } }

/-- A rule that broke down in the second round keeps its finding and its change from the first. -/
theorem stumbling_failure :
    (stumbling.analyse "A.jsx" hollowText none .none).1.failures =
      [⟨"missing-key", "RuntimeError"⟩] ∧
    (∃ f ∈ (stumbling.analyse "A.jsx" hollowText none .none).1.findings, f.rule = "missing-key") ∧
    (∃ c ∈ (stumbling.analyse "A.jsx" hollowText none .none).1.changes, c.rule = "missing-key") ∧
    ∃ d k failure, Document.read stumbling.grammar "A.jsx" hollowText = .ok d ∧
      stumbling.BreaksDown Rule.missingKey (.start d .none) k failure ∧
      (stumbling.analyse "A.jsx" hollowText none .none).2.detections "missing-key" = k + 1 := by
  have hfailures : (stumbling.analyse "A.jsx" hollowText none .none).1.failures =
      [⟨"missing-key", "RuntimeError"⟩] := by decide +kernel
  have hseen : (Document.read stumbling.grammar "A.jsx" hollowText).map (fun d =>
      (stumbling.rounds ((none : Option Bool).getD stumbling.fix) stumbling.maxPasses
        (.start d .none)).1.seen.any (·.rule == "missing-key")) = .ok true := by decide +kernel
  obtain ⟨d, hd, hany⟩ := Reading.map_eq_ok.1 hseen
  obtain ⟨f, hf, hrule⟩ := List.any_eq_true.1 hany
  have hshows := (analyse_shows hd none .none rfl).1
  obtain ⟨k, failure, hb, -, hcalls, -⟩ := analyse_failure (r := Rule.missingKey)
    Rule.signs_of_mem_all (by decide) (by simp [stumbling, hollow, Rule.all]) hd none .none
    (Prod.eta _).symm (by
      rw [hfailures]
      exact ⟨_, List.mem_cons_self, rfl⟩)
  refine ⟨hfailures, ⟨f, hshows.complete (by decide +kernel) f hf, beq_iff_eq.1 hrule⟩,
    by decide +kernel, d, k, failure, hd, hb, ?_⟩
  rw [show "missing-key" = Rule.missingKey.id from rfl, hcalls]
  exact congrArg (· + 1) (Nat.zero_add k)

end Engine
end JsxLint
