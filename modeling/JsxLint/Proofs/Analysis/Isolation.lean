import JsxLint.Proofs.Analysis.Failures
import JsxLint.Run.File

/-!
# Rules apart from one another

A rule that breaks down at its first call is as good as switched off: the same analysis without it
goes through the same states, and all that tells them apart is the failure. Rules whose findings
carry their ids do not disturb one another either when nothing is repaired: what they find together
is what each finds alone.

* `Progress.Lockstep`: the states of an analysis with a rule that broke down and of one without it;
* `Engine.rounds_lockstep`: from the round in which the rule breaks down, they stay in step;
* `Engine.foldl_seen`: without repairs, every rule finds what it finds alone;
* `Engine.analyse_without`: both, for outcomes.
-/

namespace JsxLint

/-- Whether two states are the same but for a rule that broke down in the first, after all failures
in a list, and was not asked in the second. -/
structure Progress.Lockstep (before : List DetectionFailure) (failure : DetectionFailure)
    (p p' : Progress) : Prop where
  document : p.document = p'.document
  seen : p.seen = p'.seen
  changes : p.changes = p'.changes
  refusals : p.refusals = p'.refusals
  failures : ∃ after, p.failures = before ++ failure :: after ∧ p'.failures = before ++ after
  passes : p.passes = p'.passes
  repairs : p.calls.repair = p'.calls.repair
  resolutions : p.calls.resolve = p'.calls.resolve
  detections : ∀ id ≠ failure.rule, p.calls.detections id = p'.calls.detections id

namespace Engine

/-- Whether two rounds are in step in the middle of their detections. -/
def Abreast (before : List DetectionFailure) (failure : DetectionFailure)
    (state state' : List (Rule × Finding) × Progress) : Prop :=
  state.1 = state'.1 ∧ state.2.Lockstep before failure state'.2

variable {e e' : Engine} {w : Workspace} {nodes : List Node} {p p' : Progress} {r s : Rule}
  {new : List (Rule × Finding)} {rules : List Rule} {before : List DetectionFailure}
  {failure : DetectionFailure}

section Lockstep

variable (h : p.Lockstep before failure p')

include h

theorem hasFailed_lockstep {id : String} (hid : id ≠ failure.rule) :
    p.hasFailed id = p'.hasFailed id := by
  obtain ⟨after, hp, hp'⟩ := h.failures
  rw [Progress.hasFailed, Progress.hasFailed, hp, hp', List.any_append, List.any_append,
    List.any_cons, beq_false_of_ne hid.symm, Bool.false_or]

theorem hasFailed_failure : p.hasFailed failure.rule := by
  obtain ⟨after, hp, -⟩ := h.failures
  rw [Progress.hasFailed, hp, List.any_eq_true]
  exact ⟨failure, List.mem_append_right _ List.mem_cons_self, beq_self_eq_true _⟩

end Lockstep

/-! ### A round in step -/

/-- Another rule finds the same in both states. -/
theorem detectNext_abreast (hf : e.faults = e'.faults) (hs : s.id ≠ failure.rule)
    {state state' : List (Rule × Finding) × Progress} (hstate : Abreast before failure state state') :
    Abreast before failure (e.detectNext w nodes state s) (e'.detectNext w nodes state' s) := by
  obtain ⟨new, p⟩ := state
  obtain ⟨_, p'⟩ := state'
  obtain ⟨rfl, h⟩ := hstate
  have hfailed := hasFailed_lockstep h hs
  have hcalls : ∀ id ≠ failure.rule,
      ({ p.calls with detect := (countCall s.id p.calls.detect).2 } : Calls).detections id =
        ({ p'.calls with detect := (countCall s.id p'.calls.detect).2 } : Calls).detections id := by
    intro id hid
    rw [detections_countCall, detections_countCall, h.detections s.id hs, h.detections id hid]
  have hfault : e'.faults.detect s.id (p'.calls.detections s.id + 1) =
      e.faults.detect s.id (p.calls.detections s.id + 1) := by
    rw [hf, h.detections s.id hs]
  dsimp only at h hfailed hfault ⊢
  by_cases hp : p.hasFailed s.id
  · rw [detectNext_of_failed e w nodes new hp,
      detectNext_of_failed e' w nodes new (hfailed.symm.trans hp)]
    exact ⟨rfl, h⟩
  · have hp' : ¬p'.hasFailed s.id := hfailed ▸ hp
    cases hd : e.faults.detect s.id (p.calls.detections s.id + 1) with
    | none =>
      rw [detectNext_of_none w nodes new hp hd, detectNext_of_none w nodes new hp' (hfault.trans hd),
        h.seen]
      exact ⟨rfl, h.document, rfl, h.changes, h.refusals, h.failures, h.passes, h.repairs,
        h.resolutions, hcalls⟩
    | some message =>
      rw [detectNext_of_fault w nodes new hp hd, detectNext_of_fault w nodes new hp' (hfault.trans hd)]
      refine ⟨rfl, h.document, h.seen, h.changes, h.refusals, ?_, h.passes, h.repairs,
        h.resolutions, hcalls⟩
      obtain ⟨after, ha, ha'⟩ := h.failures
      refine ⟨after ++ [⟨s.id, breakdownMessage message⟩], ?_, ?_⟩
      · dsimp only
        rw [ha, List.append_assoc]
        rfl
      · dsimp only
        rw [ha', List.append_assoc]

theorem foldl_abreast (hf : e.faults = e'.faults) (hs : ∀ s ∈ rules, s.id ≠ failure.rule)
    {state state' : List (Rule × Finding) × Progress} (h : Abreast before failure state state') :
    Abreast before failure (rules.foldl (e.detectNext w nodes) state)
      (rules.foldl (e'.detectNext w nodes) state') :=
  List.foldl_rel h fun s hmem _ _ h => detectNext_abreast hf (hs s hmem) h

/-- A repair has the same result in both states. -/
theorem repairOne_lockstep (hf : e.faults = e'.faults) (h : p.Lockstep before failure p')
    (w : Workspace) (s : Rule) (f : Finding) :
    (e.repairOne w p s f).1 = (e'.repairOne w p' s f).1 ∧
      (e.repairOne w p s f).2.Lockstep before failure (e'.repairOne w p' s f).2 := by
  rw [repairOne, repairOne]
  cases s.repair? with
  | none => exact ⟨rfl, h⟩
  | some repair =>
    dsimp only
    rw [hf, h.repairs]
    cases e'.faults.repair s.id (countCall s.id p'.calls.repair).1 with
    | some message =>
      exact ⟨rfl, h.document, h.seen, h.changes, congrArg (· ++ _) h.refusals, h.failures,
        h.passes, rfl, h.resolutions, h.detections⟩
    | none =>
      dsimp only
      cases repair w f with
      | error reason =>
        exact ⟨rfl, h.document, h.seen, h.changes, congrArg (· ++ _) h.refusals, h.failures,
          h.passes, rfl, h.resolutions, h.detections⟩
      | ok result =>
        exact ⟨rfl, h.document, h.seen, congrArg (· ++ _) h.changes, h.refusals, h.failures,
          h.passes, rfl, h.resolutions, h.detections⟩

theorem repairAll_lockstep (hf : e.faults = e'.faults) (h : p.Lockstep before failure p')
    (w : Workspace) (new : List (Rule × Finding)) :
    (e.repairAll w p new).Lockstep before failure (e'.repairAll w p' new) := by
  have hfold : ∀ state state' : Workspace × Progress,
      state.1 = state'.1 ∧ state.2.Lockstep before failure state'.2 →
      let result := new.foldl (fun s x => e.repairOne s.1 s.2 x.1 x.2) state
      let result' := new.foldl (fun s x => e'.repairOne s.1 s.2 x.1 x.2) state'
      result.1 = result'.1 ∧ result.2.Lockstep before failure result'.2 := by
    refine fun state state' hs => List.foldl_rel (r := fun s s' : Workspace × Progress =>
      s.1 = s'.1 ∧ s.2.Lockstep before failure s'.2) hs ?_
    rintro x - ⟨v, q⟩ ⟨_, q'⟩ ⟨rfl, hq⟩
    exact repairOne_lockstep hf hq v x.1 x.2
  obtain ⟨hw, hp⟩ := hfold (w, p) (w, p') ⟨rfl, h⟩
  rw [repairAll, repairAll]
  exact ⟨congrArg Workspace.document hw, hp.seen, hp.changes, hp.refusals, hp.failures,
    congrArg (· + 1) hp.passes, hp.repairs, hp.resolutions, hp.detections⟩

/-! ### All rounds in step -/

/-- Rounds whose first detections go the same way are in step when the rounds after that are. -/
theorem rounds_of_abreast (fix : Bool) {n : Nat}
    (hnext : ∀ m < n, ∀ q q' : Progress, q.Lockstep before failure q' →
      (e.rounds true m q).2 = (e'.rounds true m q').2 ∧
        (e.rounds true m q).1.Lockstep before failure (e'.rounds true m q').1)
    (hf : e.faults = e'.faults) (hdocument : p.document = p'.document)
    (hchanges : p.changes = p'.changes) (hresolutions : p.calls.resolve = p'.calls.resolve)
    (hr : e.faults.resolve (p.calls.resolve + 1) = none)
    (h : Abreast before failure (e.found p) (e'.found p')) :
    (e.rounds fix n p).2 = (e'.rounds fix n p').2 ∧
      (e.rounds fix n p).1.Lockstep before failure (e'.rounds fix n p').1 := by
  have hr' := hr
  rw [hf, hresolutions] at hr'
  cases fix with
  | false =>
    rw [rounds_false hr, rounds_false hr']
    exact ⟨rfl, h.2⟩
  | true =>
    cases n with
    | zero =>
      rw [rounds_zero hr, rounds_zero hr']
      exact ⟨rfl, h.2⟩
    | succ n =>
      have hrepaired : (e.repaired p).Lockstep before failure (e'.repaired p') := by
        rw [repaired, repaired, ← h.1, ← hdocument]
        exact repairAll_lockstep hf h.2 (.ofDocument p.document) (e.found p).1
      rw [rounds_succ hr, rounds_succ hr', ← hrepaired.changes, ← hchanges]
      split_ifs
      · exact ⟨rfl, hrepaired⟩
      · exact hnext n (Nat.lt_succ_self n) _ _ hrepaired

section Without

variable {pre post : List Rule} (hrules : e.rules = pre ++ r :: post)
  (hids : (e.rules.map (·.id)).Nodup)

include hrules hids

theorem id_ne_of_mem : ∀ s ∈ pre ++ post, s.id ≠ r.id := by
  rw [hrules, List.map_append, List.map_cons, List.nodup_middle, List.nodup_cons,
    ← List.map_append, List.mem_map] at hids
  exact fun s hs he => hids.1 ⟨s, hs, he⟩

/-- In the round in which a rule breaks down, the round without it goes the same way. -/
theorem found_abreast (p : Progress) {message : String} (hp : ¬p.hasFailed r.id)
    (hf : e.faults.detect r.id (p.calls.detections r.id + 1) = some message) :
    Abreast (({ e with rules := pre } : Engine).found p).2.failures ⟨r.id, breakdownMessage message⟩
      (e.found p) (({ e with rules := pre ++ post } : Engine).found p) := by
  have hother := id_ne_of_mem hrules hids
  let w := Workspace.ofDocument p.document
  let state := pre.foldl (e.detectNext w p.document.root.walk) ([], counted p)
  have hun : (counted p).Unasked r.id state.2 :=
    foldl_unasked e w _ (fun s hs => hother s (List.mem_append_left _ hs)) ([], counted p)
  have hcounted : p.Unasked r.id (counted p) := ⟨rfl, rfl⟩
  have hbefore := hcounted.trans hun
  have hnext := detectNext_of_fault w p.document.root.walk state.1
    (fun h => hp (hbefore.hasFailed.symm.trans h))
    ((congrArg (fun n => e.faults.detect r.id (n + 1)) hbefore.detections).trans hf)
  have hwith : e.found p = post.foldl (e.detectNext w p.document.root.walk)
      (e.detectNext w p.document.root.walk state r) := by
    rw [found_eq, hrules, List.foldl_append, List.foldl_cons]
  have hwithout : ({ e with rules := pre ++ post } : Engine).found p =
      post.foldl (e.detectNext w p.document.root.walk) state := List.foldl_append
  rw [hwith, hwithout]
  refine foldl_abreast rfl (fun s hs => hother s (List.mem_append_right _ hs)) ?_
  rw [show e.detectNext w p.document.root.walk state r = _ from hnext]
  refine ⟨rfl, rfl, rfl, rfl, rfl, ⟨[], rfl, (List.append_nil _).symm⟩, rfl, rfl, rfl,
    fun id hid => ?_⟩
  exact (detections_countCall state.2.calls r.id id).trans (if_neg hid)

/-- In later rounds the rule is not asked. -/
theorem found_lockstep (h : p.Lockstep before failure p') (hfailure : failure.rule = r.id) :
    Abreast before failure (e.found p) (({ e with rules := pre ++ post } : Engine).found p') := by
  have hother := id_ne_of_mem hrules hids
  rw [← hfailure] at hother
  let w := Workspace.ofDocument p.document
  let state := pre.foldl (e.detectNext w p.document.root.walk) ([], counted p)
  let state' := pre.foldl (e.detectNext w p.document.root.walk) ([], counted p')
  have hcounted : Abreast before failure ([], counted p) ([], counted p') :=
    ⟨rfl, h.document, h.seen, h.changes, h.refusals, h.failures, h.passes, h.repairs,
      congrArg (· + 1) h.resolutions, h.detections⟩
  have hpre : Abreast before failure state state' :=
    foldl_abreast rfl (fun s hs => hother s (List.mem_append_left _ hs)) hcounted
  have hskip := detectNext_of_failed e w p.document.root.walk state.1
    (hfailure ▸ hasFailed_failure hpre.2)
  have hwith : e.found p = post.foldl (e.detectNext w p.document.root.walk)
      (e.detectNext w p.document.root.walk state r) := by
    rw [found_eq, hrules, List.foldl_append, List.foldl_cons]
  have hwithout : ({ e with rules := pre ++ post } : Engine).found p' =
      post.foldl (e.detectNext w p.document.root.walk) state' := by
    rw [found_eq, ← h.document, List.foldl_append]
    rfl
  rw [hwith, hwithout, show e.detectNext w p.document.root.walk state r = _ from hskip]
  exact foldl_abreast rfl (fun s hs => hother s (List.mem_append_right _ hs)) hpre

/-- Once the rule broke down, all rounds are in step. -/
theorem rounds_lockstep (hfailure : failure.rule = r.id) (fix : Bool) (n : Nat)
    (h : p.Lockstep before failure p') :
    (e.rounds fix n p).2 = (({ e with rules := pre ++ post } : Engine).rounds fix n p').2 ∧
      (e.rounds fix n p).1.Lockstep before failure
        (({ e with rules := pre ++ post } : Engine).rounds fix n p').1 := by
  induction n using Nat.strongRecOn generalizing fix p p' with
  | ind n ih =>
    cases hr : e.faults.resolve (p.calls.resolve + 1) with
    | none =>
      exact rounds_of_abreast fix (fun m hm q q' hq => ih m hm true hq) rfl h.document h.changes
        h.resolutions hr (found_lockstep hrules hids h hfailure)
    | some message =>
      have hr' : ({ e with rules := pre ++ post } : Engine).faults.resolve
          (p'.calls.resolve + 1) = some message := h.resolutions ▸ hr
      rw [rounds_of_fault hr, rounds_of_fault hr']
      exact ⟨rfl, h.document, h.seen, h.changes, h.refusals, h.failures, h.passes, h.repairs,
        congrArg (· + 1) h.resolutions, h.detections⟩

end Without

/-! ### Outcomes in step -/

theorem finished_lockstep (path : String) (h : p.Lockstep before failure p') :
    finished path p = { finished path p' with failures := p.failures } := by
  rw [finished, finished, h.passes, h.seen, h.changes, h.refusals]

theorem broken_lockstep (path : String) (h : p.Lockstep before failure p') (error : AnalysisError) :
    broken path p error = { broken path p' error with failures := p.failures } := by
  rw [broken, broken, h.passes]

theorem conclude_lockstep (hf : e.faults = e'.faults) (path : String)
    (h : p.Lockstep before failure p') :
    e.conclude path p = { e'.conclude path p' with failures := p.failures } := by
  rw [conclude, conclude, finished_lockstep path h, h.changes, hf, h.document]
  split_ifs
  · rfl
  · split
    · rfl
    · rfl
    · exact broken_lockstep path h _
    · rfl

/-- Rounds in step end in outcomes that only the failures tell apart. -/
theorem analyse_lockstep {path text : String} {d : Document}
    (hread : Document.read e.grammar path text = .ok d) (fix : Option Bool) {calls : Calls}
    (hr : (e.rounds (fix.getD e.fix) e.maxPasses (.start d calls)).2 =
      (({ e with rules } : Engine).rounds (fix.getD e.fix) e.maxPasses (.start d calls)).2)
    (h : (e.rounds (fix.getD e.fix) e.maxPasses (.start d calls)).1.Lockstep before failure
      (({ e with rules } : Engine).rounds (fix.getD e.fix) e.maxPasses (.start d calls)).1) :
    (e.analyse path text fix calls).1 =
      { (({ e with rules } : Engine).analyse path text fix calls).1 with
        failures := (e.rounds (fix.getD e.fix) e.maxPasses (.start d calls)).1.failures } := by
  rw [analyse, analyse, hread]
  dsimp only
  generalize e.rounds (fix.getD e.fix) e.maxPasses (.start d calls) = x at hr h ⊢
  generalize ({ e with rules } : Engine).rounds (fix.getD e.fix) e.maxPasses (.start d calls) = x'
    at hr h ⊢
  obtain ⟨p, error⟩ := x
  obtain ⟨p', _⟩ := x'
  obtain rfl := hr
  cases error with
  | none => exact conclude_lockstep rfl path h
  | some error => exact broken_lockstep path h error

/-! ### Rules alone -/

/-- Known findings in other places make no difference to what is not known. -/
theorem unknown_of_apart {known seen findings : List Finding}
    (h : ∀ g ∈ known, ∀ f ∈ findings, g.key ≠ f.key) :
    unknown (known ++ seen) findings = unknown seen findings := by
  induction findings generalizing seen with
  | nil => rfl
  | cons f findings ih =>
    have hnot : known.any (·.key == f.key) = false := by
      rw [List.any_eq_false]
      exact fun g hg he => h g hg f List.mem_cons_self (beq_iff_eq.1 he)
    have hrest : ∀ seen, unknown (known ++ seen) findings = unknown seen findings := fun seen =>
      ih fun g hg f hf => h g hg f (List.mem_cons_of_mem _ hf)
    rw [unknown, unknown, List.any_append, hnot, Bool.false_or, List.append_assoc, hrest, hrest]

/-- What a rule finds from a state in which nothing was found. -/
theorem mem_detect_of_mem_seen {start : Progress} (hseen : start.seen = []) {f : Finding}
    (hf : f ∈ (e.detectNext w nodes ([], start) s).2.seen) : f ∈ s.detect w nodes := by
  obtain ⟨hone, hfound⟩ := detectOne_detected e w nodes s start
  rw [detectNext, foldl_note] at hf
  dsimp only at hf
  rw [hone.seen, hseen] at hf
  exact hfound f (mem_of_mem_unknown hf)

/-- A rule that was not asked finds what it finds alone, when the known findings are not its. -/
theorem detectNext_seen {start : Progress} (hseen : start.seen = [])
    (hs : ∀ f ∈ s.detect w nodes, f.rule = s.id) (h : start.Unasked s.id p)
    (hk : ∀ f ∈ p.seen, f.rule ≠ s.id) (new : List (Rule × Finding)) :
    (e.detectNext w nodes (new, p) s).2.seen =
      p.seen ++ (e.detectNext w nodes ([], start) s).2.seen := by
  by_cases hp : start.hasFailed s.id
  · rw [detectNext_of_failed e w nodes [] hp,
      detectNext_of_failed e w nodes new (h.hasFailed.trans hp), hseen, List.append_nil]
  · have hp' : ¬p.hasFailed s.id := fun hf => hp (h.hasFailed.symm.trans hf)
    have hfault : e.faults.detect s.id (p.calls.detections s.id + 1) =
        e.faults.detect s.id (start.calls.detections s.id + 1) := by rw [h.detections]
    cases hd : e.faults.detect s.id (start.calls.detections s.id + 1) with
    | none =>
      rw [detectNext_of_none w nodes [] hp hd, detectNext_of_none w nodes new hp' (hfault.trans hd),
        hseen]
      have hapart : unknown (p.seen ++ []) (s.detect w nodes) = unknown [] (s.detect w nodes) :=
        unknown_of_apart fun g hg f hf he => hk g hg ((congrArg Prod.fst he).trans (hs f hf))
      rw [List.append_nil] at hapart
      exact congrArg (p.seen ++ ·) hapart
    | some message =>
      rw [detectNext_of_fault w nodes [] hp hd,
        detectNext_of_fault w nodes new hp' (hfault.trans hd), hseen, List.append_nil]

/-- Rules that were not asked find one after the other what each finds alone. -/
theorem foldl_seen (e : Engine) (w : Workspace) (nodes : List Node) (start : Progress)
    (hseen : start.seen = []) (hids : (rules.map (·.id)).Nodup)
    (hs : ∀ s ∈ rules, ∀ f ∈ s.detect w nodes, f.rule = s.id)
    (h : ∀ s ∈ rules, start.Unasked s.id p) (hk : ∀ s ∈ rules, ∀ f ∈ p.seen, f.rule ≠ s.id)
    (new : List (Rule × Finding)) : (rules.foldl (e.detectNext w nodes) (new, p)).2.seen =
      p.seen ++ rules.flatMap fun s => (e.detectNext w nodes ([], start) s).2.seen := by
  induction rules generalizing new p with
  | nil => exact (List.append_nil _).symm
  | cons s rules ih =>
    rw [List.map_cons, List.nodup_cons, List.mem_map] at hids
    have hne : ∀ t ∈ rules, s.id ≠ t.id := fun t ht he => hids.1 ⟨t, ht, he.symm⟩
    have hself := hs s List.mem_cons_self
    have hone := detectNext_seen (e := e) hseen hself (h s List.mem_cons_self)
      (hk s List.mem_cons_self) new
    have hrest := ih hids.2 (fun t ht => hs t (List.mem_cons_of_mem _ ht))
      (fun t ht => (h t (List.mem_cons_of_mem _ ht)).trans (detectNext_unasked (hne t ht) new p))
      (fun t ht f hf he => by
        rw [hone] at hf
        rcases List.mem_append.1 hf with hf | hf
        · exact hk t (List.mem_cons_of_mem _ ht) f hf he
        · exact hne t ht ((hself f (mem_detect_of_mem_seen hseen hf)).symm.trans he))
      (e.detectNext w nodes (new, p) s).1
    rw [List.foldl_cons, List.flatMap_cons, ← List.append_assoc, ← hone]
    exact hrest

/-! ### Outcomes -/

/-- Writing does not look at failures. -/
theorem save_failures (f : Files) (p : Path) (o : Outcome)
    (fault : Files.WriteStep → Option String) (failures : List DetectionFailure) :
    save f p { o with failures } fault =
      ({ (save f p o fault).1 with failures }, (save f p o fault).2) := by
  obtain ⟨_, _, _, _, _, _, _, _, _, _, _, output⟩ := o
  cases output with
  | none => rfl
  | some text =>
    rw [save, save]
    dsimp only
    cases (f.replace p (Utf8.encode text) fault).error <;> rfl

variable {path text : String} {d : Document} {calls : Calls}

/-- What an analysis without repairs finds: nothing, or what the one detection found. -/
theorem findings_of_check (hread : Document.read e.grammar path text = .ok d) {fix : Option Bool}
    (hfix : fix.getD e.fix = false) (hr : e.faults.resolve (calls.resolve + 1) = none) :
    (e.analyse path text fix calls).1.findings.Perm (e.found (.start d calls)).2.seen := by
  have hchanges : (e.found (.start d calls)).2.changes = [] := (found_detected e _).changes
  rw [analyse, hread, hfix]
  dsimp only
  rw [rounds_false (by exact hr)]
  dsimp only
  rw [conclude, hchanges]
  exact List.mergeSort_perm _ _

theorem findings_of_unresolved (hr : (e.faults.resolve (calls.resolve + 1)).isSome)
    (path text : String) (fix : Option Bool) : (e.analyse path text fix calls).1.findings = [] := by
  obtain ⟨message, hr⟩ := Option.isSome_iff_exists.1 hr
  rw [analyse]
  split
  · rfl
  · rfl
  · rw [rounds_of_fault (by exact hr)]
    rfl

theorem findings_of_unread {error : ReadError}
    (hread : Document.read e.grammar path text = .error error) (fix : Option Bool) :
    (e.analyse path text fix calls).1.findings = [] := by
  rw [analyse, hread]
  cases error <;> rfl

/-- An analysis without repairs finds what its rules find alone. -/
theorem findings_perm (hids : (e.rules.map (·.id)).Nodup)
    (hs : ∀ s ∈ e.rules, ∀ w nodes, ∀ f ∈ s.detect w nodes, f.rule = s.id) (path text : String)
    {fix : Option Bool} (hfix : fix.getD e.fix = false) (calls : Calls) :
    (e.analyse path text fix calls).1.findings.Perm
      (e.rules.flatMap fun s =>
        (({ e with rules := [s] } : Engine).analyse path text fix calls).1.findings) := by
  cases hread : Document.read e.grammar path text with
  | error error =>
    rw [findings_of_unread hread]
    refine .of_eq (Eq.symm (List.flatMap_eq_nil_iff.2 fun s _ => ?_))
    exact findings_of_unread (e := { e with rules := [s] }) hread fix
  | ok d =>
    cases hr : e.faults.resolve (calls.resolve + 1) with
    | some message =>
      have hsome := Option.isSome_iff_exists.2 ⟨message, hr⟩
      rw [findings_of_unresolved hsome]
      refine .of_eq (Eq.symm (List.flatMap_eq_nil_iff.2 fun s _ => ?_))
      exact findings_of_unresolved (e := { e with rules := [s] }) hsome path text fix
    | none =>
      have hall := foldl_seen e (.ofDocument d) d.root.walk (counted (.start d calls)) rfl hids
        (fun s hm => hs s hm _ _) (fun s _ => .refl _ _) (fun s _ f hf => by cases hf) []
      refine (findings_of_check hread hfix hr).trans ((List.Perm.of_eq hall).trans ?_)
      refine List.Perm.flatMap_left _ fun s _ => ?_
      exact (findings_of_check (e := { e with rules := [s] }) hread hfix hr).symm

/-- A rule that breaks down at its first call leaves the outcome of the analysis without it, to
which only its failure is added, after the failures of the rules before it in the same detection;
and so it is when the outcome is written. Without repairs an analysis finds what its rules find
alone. -/
theorem analyse_without (hids : (e.rules.map (·.id)).Nodup) (path text : String) (fix : Option Bool)
    (calls : Calls) :
    (∀ pre r post d message, e.rules = pre ++ r :: post →
      Document.read e.grammar path text = .ok d → e.faults.resolve (calls.resolve + 1) = none →
      e.faults.detect r.id (calls.detections r.id + 1) = some message →
      ∃ before after o,
        before = (({ e with rules := pre } : Engine).found (.start d calls)).2.failures ∧
        o = (({ e with rules := pre ++ post } : Engine).analyse path text fix calls).1 ∧
        o.failures = before ++ after ∧
        (e.analyse path text fix calls).1 =
          { o with failures := before ++ ⟨r.id, breakdownMessage message⟩ :: after } ∧
        ∀ f p fault, save f p (e.analyse path text fix calls).1 fault =
          ({ (save f p o fault).1 with
            failures := before ++ ⟨r.id, breakdownMessage message⟩ :: after },
              (save f p o fault).2)) ∧
    ((∀ s ∈ e.rules, ∀ w nodes, ∀ f ∈ s.detect w nodes, f.rule = s.id) → fix.getD e.fix = false →
      (e.analyse path text fix calls).1.findings.Perm
        (e.rules.flatMap fun s =>
          (({ e with rules := [s] } : Engine).analyse path text fix calls).1.findings)) := by
  refine ⟨fun pre r post d message hrules hread hr hfault => ?_, fun hs hfix =>
    findings_perm hids hs path text hfix calls⟩
  have hfound := found_abreast hrules hids (.start d calls) Bool.false_ne_true hfault
  obtain ⟨herror, h⟩ := rounds_of_abreast (fix.getD e.fix) (n := e.maxPasses)
    (fun m _ q q' hq => rounds_lockstep hrules hids rfl true m hq) rfl rfl rfl rfl hr hfound
  have hread' : Document.read ({ e with rules := pre ++ post } : Engine).grammar path text = .ok d :=
    hread
  have hshows := (analyse_shows hread' fix calls rfl).1
  have ho := analyse_lockstep hread fix herror h
  obtain ⟨after, hwith, hwithout⟩ := h.failures
  rw [hwith] at ho
  refine ⟨_, after, _, rfl, rfl, hshows.failures.trans hwithout, ho, fun f p fault => ?_⟩
  rw [ho]
  exact save_failures f p _ fault _

/-- All rules at work on `Concrete.hollowList`, of which the one on keys breaks down at once, one
before it too, and one after it in the second round. -/
def faltering : Engine :=
  { hollow with
    faults := { Faults.none with
      detect := fun rule n =>
        if rule ∈ ["missing-key", "reserved-prop"] || rule = "inline-function" && n = 2 then some ""
        else none } }

/-- Without the rule on keys the other rules do the same, and break down in the same order. -/
theorem faltering_without :
    (faltering.analyse "A.jsx" hollowText none .none).1.failures.map (·.rule) =
      ["reserved-prop", "missing-key", "inline-function"] ∧
    (∃ before after o,
      o = (({ faltering with rules := Rule.all.take 10 ++ Rule.all.drop 11 } : Engine).analyse
        "A.jsx" hollowText none .none).1 ∧
      o.failures = before ++ after ∧
      (faltering.analyse "A.jsx" hollowText none .none).1 =
        { o with failures := before ++ ⟨"missing-key", "RuntimeError"⟩ :: after }) ∧
    (faltering.analyse "A.jsx" hollowText (some false) .none).1.findings.Perm
      (Rule.all.flatMap fun s =>
        (({ faltering with rules := [s] } : Engine).analyse
          "A.jsx" hollowText (some false) .none).1.findings) := by
  have hread : ((Document.read faltering.grammar "A.jsx" hollowText).map fun _ => ()) = .ok () := by
    decide +kernel
  obtain ⟨d, hd, -⟩ := Reading.map_eq_ok.1 hread
  refine ⟨by decide +kernel, ?_, ?_⟩
  · obtain ⟨before, after, o, -, ho, hfailures, he, -⟩ :=
      (analyse_without (e := faltering) (by decide) "A.jsx" hollowText none .none).1
        (Rule.all.take 10) Rule.missingKey (Rule.all.drop 11) d "" rfl hd rfl rfl
    exact ⟨before, after, o, ho, hfailures, he⟩
  · exact (analyse_without (e := faltering) (by decide) "A.jsx" hollowText (some false) .none).2
      (fun s hs w nodes f hf => (Rule.signs_of_mem_all s hs).rule_eq hf) rfl

end Engine
end JsxLint
