import JsxLint.Proofs.Analysis.Isolation
import JsxLint.Proofs.Analysis.Printing
import JsxLint.Proofs.Reading.Tags
import JsxLint.Proofs.Rule.Repeats

/-!
# Rounds converge

What the rules find after a round of repairs they found before it, but for void elements that lost
their content. So the second round of repairs collapses tags only, after which nothing is left to
find, and the third makes no change.

* `Document.Regular`: what holds of documents that are read, and of what repairs make of them;
* `Engine.gather`: the findings of a round when no rule breaks down;
* `Engine.Knows`: a state knows what rules find in its document;
* `Engine.rounds_lift`: two runs of rounds compared after one round;
* `Engine.rounds_three`: three rounds are enough.
-/

namespace JsxLint

open Node

/-! ### Repairs of a round -/

/-- What holds of documents that are read, and of what repairs make of them. -/
structure Document.Regular (d : Document) : Prop where
  formed : d.WellFormed
  capital : d.root.TagsCapital
  named : d.root.TagsHaveNames

namespace Document

theorem Regular.of_read {grammar : Grammar} {path text : String} {d : Document}
    (hplain : (grammar (.ofPath path) text).TagsPlain)
    (hnamed : (grammar (.ofPath path) text).TagsNamed)
    (hread : Document.read grammar path text = .ok d) : d.Regular :=
  ⟨Reading.read_wellFormed hplain hread, Reading.read_tagsCapital hnamed hread,
    Reading.read_tagsHaveNames hread⟩

variable {cuts : Prop} {d d' : Document} {w : Workspace} {rules : List Rule} {rule : Rule}
  {new : List (Rule × Finding)} {changes : List Change}

/-- What repairs of a round make of the tree that repairs before them left. -/
theorem step_of_repairs {v : Workspace} (hd : d.Regular) (hrules : rules ⊆ Rule.all)
    (hnew : ∀ x ∈ new, x.1 ∈ rules ∧ x.2 ∈ x.1.detect (.ofDocument d) d.root.walk)
    (hcuts : ∀ x ∈ new, x.1 = Rule.emptyExpression → cuts)
    (hv : Workspace.Step d.fresh (.ofDocument d) v) (ha : Alters cuts d.root v.document.root)
    (h : Engine.Repairs v new changes w) : Workspace.Step d.fresh (.ofDocument d) w ∧
      Alters cuts v.document.root w.document.root := by
  refine h.invariant (I := fun u => Workspace.Step d.fresh (.ofDocument d) u ∧
    Alters cuts v.document.root u.document.root) ?_ ⟨hv, .refl cuts _⟩
  rintro x hx repair hr u ⟨hu, hau⟩ change u' hok
  obtain ⟨hrule, hf⟩ := hnew x hx
  exact ⟨hu.trans (Rule.repair_step hd.formed (hrules hrule) hr hf hu hok),
    hau.trans (Rule.repair_alters hd.formed (hd.capital.alters (ha.trans hau)) (hrules hrule) hr
      (hcuts x hx) hf hu hok)⟩

/-- What the repairs of a round make of the tree. -/
theorem alters_of_repairs (hd : d.Regular) (hrules : rules ⊆ Rule.all)
    (hnew : ∀ x ∈ new, x.1 ∈ rules ∧ x.2 ∈ x.1.detect (.ofDocument d) d.root.walk)
    (hcuts : ∀ x ∈ new, x.1 = Rule.emptyExpression → cuts)
    (h : Engine.Repairs (.ofDocument d) new changes w) : Alters cuts d.root w.document.root :=
  (step_of_repairs hd hrules hnew hcuts (.refl (Workspace.sound_ofDocument hd.formed))
    (.refl cuts d.root) h).2

/-- After the repairs of a round rules find nothing new, but for void elements that lost their
content. -/
theorem repeats_of_repairs (hd : d.Regular) (hrules : rules ⊆ Rule.all)
    (hnew : ∀ x ∈ new, x.1 ∈ rules ∧ x.2 ∈ x.1.detect (.ofDocument d) d.root.walk)
    (hcuts : ∀ x ∈ new, x.1 = Rule.emptyExpression → cuts)
    (h : Engine.Repairs (.ofDocument d) new changes w) : w.document.Regular ∧
      ∀ rule ∈ Rule.all, (rule = Rule.selfClosingTag → ¬cuts) → rule.Repeats d w.document := by
  have hkept := kept_of_repairs hd.formed hrules hnew h
  have ha := alters_of_repairs hd hrules hnew hcuts h
  refine ⟨⟨hkept.formed, hd.capital.alters ha, hd.named.alters ha⟩, fun rule hrule hr => ?_⟩
  refine Rule.repeats_of_alters hrule hr hd.formed hkept.formed ha fun m hm hi hlt hb => ?_
  obtain ⟨u, hu, hid, -⟩ := exists_use hm hi
  rw [← hid] at hlt hb ⊢
  have hnone := (Workspace.sound_ofDocument hd.formed).lists.declaration?_eq_none (i := u.identifier)
  have hnone' := (Workspace.sound_ofDocument hkept.formed).lists.declaration?_eq_none
    (i := u.identifier)
  rw [show (Workspace.ofDocument w.document).scopes.declaration? u.identifier = _ from
    hkept.declaration? u hu hlt] at hnone'
  rw [← Option.ne_none_iff_isSome] at hb ⊢
  exact fun hn => hb (hnone'.1 (hnone.2 hn))

end Document

/-! ### What a state knows -/

namespace Engine

variable {e : Engine} {w : Workspace} {nodes : List Node} {p p' : Progress} {rule : Rule}
  {f : Finding} {n : Nat}

/-- The findings of some rules that are not known, added to those that are. -/
def gather (w : Workspace) (nodes : List Node) (rules : List Rule) (seen : List Finding) :
    List Finding :=
  rules.foldl (fun seen rule => seen ++ unknown seen (rule.detect w nodes)) seen

theorem exists_of_mem_unknown {seen findings : List Finding} (h : f ∈ findings) :
    ∃ g ∈ seen ++ unknown seen findings, g.key = f.key := by
  induction findings generalizing seen with
  | nil => cases h
  | cons g findings ih =>
    rw [unknown]
    rcases List.mem_cons.1 h with rfl | h
    · split_ifs with hk
      · obtain ⟨g, hg, he⟩ := List.any_eq_true.1 hk
        exact ⟨g, List.mem_append_left _ hg, beq_iff_eq.1 he⟩
      · exact ⟨f, List.mem_append_right _ List.mem_cons_self, rfl⟩
    · split_ifs
      · exact ih h
      · obtain ⟨k, hk, he⟩ := @ih (seen ++ [g]) h
        rw [List.append_assoc] at hk
        exact ⟨k, hk, he⟩

theorem subset_gather (w : Workspace) (nodes : List Node) (rules : List Rule)
    (seen : List Finding) : seen ⊆ gather w nodes rules seen := by
  induction rules generalizing seen with
  | nil => exact fun f hf => hf
  | cons rule rules ih => exact fun f hf => ih _ (List.mem_append_left _ hf)

/-- Every finding of a rule is gathered, under its key. -/
theorem exists_mem_gather {rules : List Rule} {seen : List Finding} (hr : rule ∈ rules)
    (hf : f ∈ rule.detect w nodes) : ∃ g ∈ gather w nodes rules seen, g.key = f.key := by
  induction rules generalizing seen with
  | nil => cases hr
  | cons r rules ih =>
    rcases List.mem_cons.1 hr with rfl | hr
    · obtain ⟨g, hg, he⟩ := @exists_of_mem_unknown f seen _ hf
      exact ⟨g, subset_gather w nodes rules _ hg, he⟩
    · exact ih hr

/-- Whether a state knows what some of the rules find in its document. -/
def Knows (e : Engine) (ofThese : Rule → Prop) (p : Progress) : Prop :=
  ∀ rule ∈ e.rules, ofThese rule →
    ∀ f ∈ rule.detect (.ofDocument p.document) p.document.root.walk, p.knows f

section Detect

variable (hdetect : ∀ rule k, e.faults.detect rule k = none)

include hdetect

theorem foldl_detectNext (rules : List Rule) {state : List (Rule × Finding) × Progress}
    (hp : state.2.failures = []) :
    (rules.foldl (e.detectNext w nodes) state).2.seen = gather w nodes rules state.2.seen ∧
      (rules.foldl (e.detectNext w nodes) state).2.failures = [] := by
  induction rules generalizing state with
  | nil => exact ⟨rfl, hp⟩
  | cons rule rules ih =>
    have hstep := @detectNext_of_none e state.2 rule w nodes state.1
      (by rw [Progress.hasFailed, hp]; exact Bool.false_ne_true) (hdetect rule.id _)
    rw [List.foldl_cons, hstep]
    exact ih hp

/-- What a round finds when no rule breaks down. -/
theorem found_gather (hp : p.failures = []) :
    (e.found p).2.seen =
        gather (.ofDocument p.document) p.document.root.walk e.rules p.seen ∧
      (e.found p).2.failures = [] :=
  foldl_detectNext hdetect e.rules hp

/-- After the detections of a round the state knows all that the rules find. -/
theorem found_knows (hp : p.failures = []) : e.Knows (fun _ => True) (e.found p).2 := by
  intro rule hr _ f hf
  rw [(found_detected e p).document] at hf
  rw [knows_iff, (found_gather hdetect hp).1]
  exact exists_mem_gather hr hf

theorem repaired_failures (hp : p.failures = []) : (e.repaired p).failures = [] :=
  (repairAll_failures e _ (e.found p).2 (e.found p).1).1.trans (found_gather hdetect hp).2

end Detect

theorem found_of_knows (h : e.Knows (· ≠ rule) p) : ∀ x ∈ (e.found p).1, x.1 = rule := by
  intro x hx
  obtain ⟨hr, hf⟩ := (found_detected e p).mem x hx
  by_contra hne
  exact (found_detected e p).unknown x hx (h x.1 hr hne x.2 hf)

/-- What is found in a document that rules were asked about before is known. -/
theorem Knows.of_repeats {these those : Rule → Prop} (h : e.Knows these p) (hseen : p.seen ⊆ p'.seen)
    (hr : ∀ rule ∈ e.rules, those rule → these rule ∧ rule.Repeats p.document p'.document) :
    e.Knows those p' := by
  intro rule hrule hthose f' hf'
  obtain ⟨hthese, hrepeats⟩ := hr rule hrule hthose
  obtain ⟨f, hf, hspot⟩ := hrepeats f' hf'
  obtain ⟨g, hg, hk⟩ := knows_iff.1 (h rule hrule hthese f hf)
  exact knows_iff.2 ⟨g, hseen hg, hk.trans (congrArg Prod.snd hspot)⟩

/-! ### Rounds after the first -/

/-- What holds of the states of rounds in which no rule breaks down. -/
structure Running (p : Progress) : Prop where
  regular : p.document.Regular
  failures : p.failures = []

theorem emptyExpression_ne : Rule.selfClosingTag ≠ Rule.emptyExpression := fun h =>
  absurd (congrArg (·.id) h) (by decide)

section Rounds

variable (hdetect : ∀ rule k, e.faults.detect rule k = none) (hrules : e.rules ⊆ Rule.all)

include hdetect hrules

/-- What is known after a round, in terms of the repairs that were made in it. -/
theorem repaired_knows_of_repairs {cuts : Prop} {new : List (Rule × Finding)}
    {changes : List Change} {w' : Workspace} (hp : Running p)
    (hnew : ∀ x ∈ new, x ∈ (e.found p).1) (hr : Repairs (.ofDocument p.document) new changes w')
    (hdocument : (e.repaired p).document = w'.document)
    (hcuts : ∀ x ∈ new, x.1 = Rule.emptyExpression → cuts) : Running (e.repaired p) ∧
      e.Knows (fun rule => rule = Rule.selfClosingTag → ¬cuts) (e.repaired p) := by
  obtain ⟨-, -, -, -, -, hseen, -⟩ := repaired_repairs e p
  obtain ⟨hregular, hrepeats⟩ := Document.repeats_of_repairs hp.regular hrules
    (fun x hx => (found_detected e p).mem x (hnew x hx)) hcuts hr
  rw [← hdocument] at hregular hrepeats
  refine ⟨⟨hregular, repaired_failures hdetect hp.failures⟩, ?_⟩
  refine (found_knows hdetect hp.failures).of_repeats ?_ fun rule hrule hthose => ⟨trivial, ?_⟩
  · rw [hseen, ← (found_detected e p).seen]
    exact List.Subset.refl _
  · rw [(found_detected e p).document]
    exact hrepeats rule (hrules hrule) hthose

/-- A round of repairs, in terms of what is known after it. -/
theorem repaired_knows {cuts : Prop} (hp : Running p)
    (hcuts : ∀ x ∈ (e.found p).1, x.1 = Rule.emptyExpression → cuts) :
    Running (e.repaired p) ∧
      e.Knows (fun rule => rule = Rule.selfClosingTag → ¬cuts) (e.repaired p) := by
  obtain ⟨changes, w', hr, hdocument, -⟩ := repaired_repairs e p
  exact repaired_knows_of_repairs hdetect hrules hp (fun x hx => hx) hr hdocument hcuts

/-- After a round of repairs all but collapsible tags is known. -/
theorem repaired_late (hp : Running p) :
    Running (e.repaired p) ∧ e.Knows (· ≠ Rule.selfClosingTag) (e.repaired p) := by
  obtain ⟨hrunning, hknows⟩ := @repaired_knows e p hdetect hrules True hp fun _ _ _ => trivial
  exact ⟨hrunning, fun rule hr hne => hknows rule hr fun he => absurd he hne⟩

/-- After a round that collapses tags only, everything is known. -/
theorem repaired_quiet (hp : Running p) (hknows : e.Knows (· ≠ Rule.selfClosingTag) p) :
    Running (e.repaired p) ∧ e.Knows (fun _ => True) (e.repaired p) := by
  obtain ⟨hrunning, hknows⟩ := @repaired_knows e p hdetect hrules False hp fun x hx he =>
    emptyExpression_ne ((found_of_knows hknows x hx).symm.trans he)
  exact ⟨hrunning, fun rule hr _ => hknows rule hr fun _ => not_false⟩

end Rounds

/-- The changes of a round in which only collapsible tags are new. -/
theorem changes_late (hrules : e.rules ⊆ Rule.all)
    (hknows : e.Knows (· ≠ Rule.selfClosingTag) p) :
    ∃ cs, (e.repaired p).changes = p.changes ++ cs ∧
      ∀ c ∈ cs, c.rule = Rule.selfClosingTag.id := by
  obtain ⟨changes, w', hr, -, hc, -⟩ := repaired_repairs e p
  refine ⟨changes, hc, fun c hmem => ?_⟩
  obtain ⟨x, hx, repair, v, v', hrepair, hok⟩ := hr.exists_finding c hmem
  have hrule := ((found_detected e p).mem x hx).1
  rw [((Rule.signs_of_mem_all x.1 (hrules hrule)).change_eq hrepair hok).1,
    found_of_knows hknows x hx]

/-- A round in which nothing is new makes no change. -/
theorem changes_quiet (hknows : e.Knows (fun _ => True) p) :
    (e.repaired p).changes = p.changes := by
  have hnew : (e.found p).1 = [] := List.eq_nil_iff_forall_not_mem.2 fun x hx =>
    (found_detected e p).unknown x hx
      (hknows x.1 ((found_detected e p).mem x hx).1 trivial x.2 ((found_detected e p).mem x hx).2)
  obtain ⟨changes, w', hr, -, hc, -⟩ := repaired_repairs e p
  rw [hnew] at hr
  cases hr
  rw [hc, List.append_nil]

/-! ### Runs of rounds -/

/-- Runs of rounds that are related after one round are related when they start with it. -/
theorem rounds_lift {R : Progress × Option AnalysisError → Progress × Option AnalysisError → Prop}
    (hrefl : ∀ x, R x x) {m n : Nat}
    (h : R (e.rounds true m (e.repaired p)) (e.rounds true n (e.repaired p))) :
    R (e.rounds true (m + 1) p) (e.rounds true (n + 1) p) := by
  cases hr : e.faults.resolve (p.calls.resolve + 1) with
  | some message =>
    rw [rounds_of_fault hr, rounds_of_fault hr]
    exact hrefl _
  | none =>
    rw [rounds_succ hr, rounds_succ hr]
    split_ifs
    · exact hrefl _
    · exact h

/-- Rounds in which nothing is new end after one of them. -/
theorem rounds_quiet (hknows : e.Knows (fun _ => True) p) (n : Nat) :
    e.rounds true (n + 1) p = e.rounds true 1 p ∧
      (e.rounds true (n + 1) p).1.changes = p.changes := by
  have hc := changes_quiet hknows
  cases hr : e.faults.resolve (p.calls.resolve + 1) with
  | some message =>
    rw [rounds_of_fault hr, rounds_of_fault hr]
    exact ⟨rfl, rfl⟩
  | none =>
    rw [rounds_succ hr, rounds_succ hr, hc, if_pos rfl, if_pos rfl]
    exact ⟨rfl, hc⟩

theorem rounds_zero_changes (e : Engine) (p : Progress) :
    (e.rounds true 0 p).1.changes = p.changes := by
  cases hr : e.faults.resolve (p.calls.resolve + 1) with
  | some message =>
    rw [rounds_of_fault hr]
    rfl
  | none =>
    rw [rounds_zero hr]
    exact (found_detected e p).changes

theorem rounds_passes (e : Engine) (n : Nat) (p : Progress) :
    (e.rounds true n p).1.passes ≤ p.passes + n := by
  have hpasses : ∀ p, (e.repaired p).passes = p.passes + 1 := fun p =>
    let ⟨_, _, _, _, _, _, hp⟩ := repaired_repairs e p
    hp
  induction n generalizing p with
  | zero =>
    cases hr : e.faults.resolve (p.calls.resolve + 1) with
    | some message =>
      rw [rounds_of_fault hr]
      exact Nat.le_refl _
    | none =>
      rw [rounds_zero hr, (found_detected e p).passes]
      exact Nat.le_refl _
  | succ n ih =>
    cases hr : e.faults.resolve (p.calls.resolve + 1) with
    | some message =>
      rw [rounds_of_fault hr]
      exact Nat.le_add_right _ _
    | none =>
      rw [rounds_succ hr]
      split_ifs
      · rw [hpasses]
        omega
      · have := ih (e.repaired p)
        rw [hpasses] at this
        omega

/-- The greatest number of rounds plays no part in rounds whose number is given. -/
theorem rounds_withPasses (e : Engine) (passes : Nat) (fix : Bool) (n : Nat) (p : Progress) :
    ({ e with maxPasses := passes } : Engine).rounds fix n p = e.rounds fix n p := by
  have hfound : ∀ p, ({ e with maxPasses := passes } : Engine).found p = e.found p := fun _ => rfl
  have hrepaired : ∀ p, ({ e with maxPasses := passes } : Engine).repaired p = e.repaired p :=
    fun _ => rfl
  induction n generalizing p with
  | zero =>
    cases hr : e.faults.resolve (p.calls.resolve + 1) with
    | some message => rw [rounds_of_fault hr, rounds_of_fault (by exact hr)]
    | none => rw [rounds_zero hr, rounds_zero (by exact hr), hfound]
  | succ n ih =>
    cases hr : e.faults.resolve (p.calls.resolve + 1) with
    | some message => rw [rounds_of_fault hr, rounds_of_fault (by exact hr)]
    | none =>
      cases fix with
      | false => rw [rounds_false hr, rounds_false (by exact hr), hfound]
      | true => rw [rounds_succ hr, rounds_succ (by exact hr), hrepaired, ih]

/-! ### Findings of a run -/

/-- Whether a state has all findings of another one, and beyond them only void elements. -/
def Extends (p p' : Progress) : Prop :=
  ∃ more, p'.seen = p.seen ++ more ∧ ∀ f ∈ more, f.rule = Rule.selfClosingTag.id

theorem Extends.refl (p : Progress) : Extends p p :=
  ⟨[], (List.append_nil _).symm, fun f hf => by cases hf⟩

theorem Extends.trans {p'' : Progress} (h : Extends p p') (h' : Extends p' p'') :
    Extends p p'' := by
  obtain ⟨more, hs, hm⟩ := h
  obtain ⟨more', hs', hm'⟩ := h'
  refine ⟨more ++ more', by rw [hs', hs, List.append_assoc], fun f hf => ?_⟩
  exact (List.mem_append.1 hf).elim (hm f) (hm' f)

theorem repaired_seen (e : Engine) (p : Progress) : (e.repaired p).seen = (e.found p).2.seen := by
  obtain ⟨_, _, -, -, -, hs, -⟩ := repaired_repairs e p
  rw [hs, (found_detected e p).seen]

section Run

variable (hrules : e.rules ⊆ Rule.all)

include hrules

theorem found_extends (hknows : e.Knows (· ≠ Rule.selfClosingTag) p) :
    Extends p (e.found p).2 := by
  refine ⟨_, (found_detected e p).seen, fun f hf => ?_⟩
  obtain ⟨x, hx, rfl⟩ := List.mem_map.1 hf
  obtain ⟨hr, hf⟩ := (found_detected e p).mem x hx
  rw [(Rule.signs_of_mem_all x.1 (hrules hr)).rule_eq hf, found_of_knows hknows x hx]

variable (hdetect : ∀ rule k, e.faults.detect rule k = none)

include hdetect

/-- Rounds after the first find void elements only. -/
theorem rounds_extends (hp : Running p) (hknows : e.Knows (· ≠ Rule.selfClosingTag) p) (n : Nat) :
    Extends p (e.rounds true n p).1 := by
  have hfound : ∀ {p}, e.Knows (· ≠ Rule.selfClosingTag) p → Extends p (e.repaired p) := by
    intro p hknows
    obtain ⟨more, hs, hm⟩ := found_extends hrules hknows
    exact ⟨more, (repaired_seen e p).trans hs, hm⟩
  induction n generalizing p with
  | zero =>
    cases hr : e.faults.resolve (p.calls.resolve + 1) with
    | some message =>
      rw [rounds_of_fault hr]
      exact .refl p
    | none =>
      rw [rounds_zero hr]
      exact found_extends hrules hknows
  | succ n ih =>
    cases hr : e.faults.resolve (p.calls.resolve + 1) with
    | some message =>
      rw [rounds_of_fault hr]
      exact .refl p
    | none =>
      rw [rounds_succ hr]
      split_ifs
      · exact hfound hknows
      · obtain ⟨hrunning, hlate⟩ := repaired_late hdetect hrules hp
        exact (hfound hknows).trans (ih hrunning hlate)

/-- A run with repairs finds what its first round finds, and beyond that void elements only. -/
theorem rounds_extends_found (hp : Running p) (hr : e.faults.resolve (p.calls.resolve + 1) = none)
    (n : Nat) : Extends (e.found p).2 (e.rounds true n p).1 := by
  have hfound : Extends (e.found p).2 (e.repaired p) :=
    ⟨[], by rw [repaired_seen, List.append_nil], fun f hf => by cases hf⟩
  cases n with
  | zero =>
    rw [rounds_zero hr]
    exact .refl _
  | succ n =>
    rw [rounds_succ hr]
    split_ifs
    · exact hfound
    · obtain ⟨hrunning, hlate⟩ := repaired_late hdetect hrules hp
      exact hfound.trans (rounds_extends hrules hdetect hrunning hlate n)

/-- Three rounds are enough: the second collapses tags only, and the third makes no change. -/
theorem rounds_three (hp : Running p) :
    (∃ cs, (e.rounds true 2 p).1.changes = (e.rounds true 1 p).1.changes ++ cs ∧
      ∀ c ∈ cs, c.rule = Rule.selfClosingTag.id) ∧
    ∀ n, e.rounds true (n + 3) p = e.rounds true 3 p ∧
      (e.rounds true (n + 3) p).1.changes = (e.rounds true 2 p).1.changes := by
  obtain ⟨hrunning, hlate⟩ := repaired_late hdetect hrules hp
  obtain ⟨-, hall⟩ := repaired_quiet hdetect hrules hrunning hlate
  have hquiet := rounds_quiet hall
  refine ⟨?_, fun n => ⟨?_, ?_⟩⟩
  · refine rounds_lift (R := fun x y => ∃ cs, x.1.changes = y.1.changes ++ cs ∧
      ∀ c ∈ cs, c.rule = Rule.selfClosingTag.id)
      (fun x => ⟨[], (List.append_nil _).symm, fun c hc => by cases hc⟩) ?_
    obtain ⟨cs, hcs, hids⟩ := changes_late hrules hlate
    rw [rounds_zero_changes]
    cases hr : e.faults.resolve ((e.repaired p).calls.resolve + 1) with
    | some message =>
      rw [rounds_of_fault hr]
      exact ⟨[], (List.append_nil _).symm, fun c hc => by cases hc⟩
    | none =>
      rw [rounds_succ hr]
      split_ifs
      · exact ⟨cs, hcs, hids⟩
      · rw [rounds_zero_changes]
        exact ⟨cs, hcs, hids⟩
  · exact rounds_lift (R := Eq) (fun _ => rfl) (rounds_lift (R := Eq) (fun _ => rfl) (hquiet n).1)
  · refine rounds_lift (R := fun x y => x.1.changes = y.1.changes) (fun _ => rfl)
      (rounds_lift (R := fun x y => x.1.changes = y.1.changes) (fun _ => rfl) ?_)
    rw [(hquiet n).2, rounds_zero_changes]

end Run

/-! ### Outcomes -/

section Outcomes

variable {path text : String} {d : Document} {calls : Calls}

theorem read_regular (hplain : (e.grammar (.ofPath path) text).TagsPlain)
    (hnamed : (e.grammar (.ofPath path) text).TagsNamed)
    (hread : Document.read e.grammar path text = .ok d) (calls : Calls) :
    Running (.start d calls) :=
  ⟨.of_read hplain hnamed hread, rfl⟩

theorem rounds_error (hr : ∀ k, e.faults.resolve k = none) (fix : Bool) (n : Nat) (p : Progress) :
    (e.rounds fix n p).2 = none := by
  induction n generalizing p with
  | zero => rw [rounds_zero (hr _)]
  | succ n ih =>
    cases fix with
    | false => rw [rounds_false (hr _)]
    | true =>
      rw [rounds_succ (hr _)]
      split_ifs
      · rfl
      · exact ih _

theorem rounds_eq (hr : ∀ k, e.faults.resolve k = none) (fix : Bool) (n : Nat) (p : Progress) :
    e.rounds fix n p = ((e.rounds fix n p).1, none) :=
  Prod.ext rfl (rounds_error hr fix n p)

/-- An analysis of a source that reads well does not break down. -/
theorem analyse_error (hprint : ∀ c ∈ (e.grammar (.ofPath path) text).walk, c.Printable text)
    (hread : Document.read e.grammar path text = .ok d) (hrules : e.rules ⊆ Rule.all)
    (hr : ∀ k, e.faults.resolve k = none) (fix : Option Bool) (calls : Calls) :
    (e.analyse path text fix calls).1.error = none := by
  obtain ⟨forms, hp⟩ := rounds_printable hprint hread hrules (fix.getD e.fix) e.maxPasses calls
  obtain ⟨t, ht⟩ := hp.printText
  have herror := rounds_error hr (fix.getD e.fix) e.maxPasses (.start d calls)
  rw [analyse, hread]
  dsimp only
  generalize e.rounds (fix.getD e.fix) e.maxPasses (.start d calls) = result at ht herror
  obtain ⟨p, error⟩ := result
  cases herror
  dsimp only at ht ⊢
  rw [conclude, ht]
  split_ifs
  · rfl
  · cases e.faults.print <;> rfl

/-- The findings of an analysis that does not break down are those of its rounds. -/
theorem mem_findings (hread : Document.read e.grammar path text = .ok d) {fix : Option Bool}
    (herror : (e.analyse path text fix calls).1.error = none) :
    f ∈ (e.analyse path text fix calls).1.findings ↔
      f ∈ (e.rounds (fix.getD e.fix) e.maxPasses (.start d calls)).1.seen :=
  have hshows := (analyse_shows hread fix calls rfl).1
  ⟨hshows.findings f, hshows.complete herror f⟩

/-- An engine that may repair in so many rounds. -/
def withPasses (e : Engine) (passes : Nat) : Engine :=
  { e with maxPasses := passes }

/-- The greatest number of rounds plays no part but as the number of rounds. -/
theorem analyse_withPasses (hread : Document.read e.grammar path text = .ok d) {m n : Nat}
    (h : e.rounds true m (.start d calls) = e.rounds true n (.start d calls)) :
    (e.withPasses m).analyse path text (some true) calls =
      (e.withPasses n).analyse path text (some true) calls := by
  have hread' : ∀ n, Document.read (e.withPasses n).grammar path text = .ok d := fun _ => hread
  have hrounds : ∀ n, (e.withPasses n).rounds ((some true).getD (e.withPasses n).fix)
      (e.withPasses n).maxPasses (.start d calls) = e.rounds true n (.start d calls) := fun n =>
    rounds_withPasses e n true n _
  rw [analyse, analyse, hread', hread']
  dsimp only
  rw [hrounds, hrounds, h]
  rfl

theorem conclude_passes (e : Engine) (path : String) (p : Progress) :
    (e.conclude path p).passes = p.passes := by
  rw [conclude]
  split_ifs
  · rfl
  · split <;> rfl

/-- The rounds of repair that an outcome tells of. -/
theorem analyse_passes (hread : Document.read e.grammar path text = .ok d) (fix : Option Bool)
    (calls : Calls) : (e.analyse path text fix calls).1.passes =
      (e.rounds (fix.getD e.fix) e.maxPasses (.start d calls)).1.passes := by
  rw [analyse, hread]
  dsimp only
  rcases e.rounds (fix.getD e.fix) e.maxPasses (.start d calls) with ⟨p, _ | error⟩
  · exact conclude_passes e path p
  · rfl

theorem passes_of_unread {error : ReadError}
    (hread : Document.read e.grammar path text = .error error) (fix : Option Bool)
    (calls : Calls) : (e.analyse path text fix calls).1.passes = 0 := by
  rw [analyse, hread]
  cases error <;> rfl

/-- The fixing of a source comes to an end after three rounds. The second round of repairs collapses
tags only, the third changes nothing, and more rounds would give the same outcome. An analysis with
repairs finds all that one without them finds, and beyond that only void elements that repairs
emptied. -/
theorem analyse_converges (hplain : (e.grammar (.ofPath path) text).TagsPlain)
    (hnamed : (e.grammar (.ofPath path) text).TagsNamed)
    (hprint : ∀ c ∈ (e.grammar (.ofPath path) text).walk, c.Printable text)
    (hrules : e.rules ⊆ Rule.all) (hdetect : ∀ rule k, e.faults.detect rule k = none)
    (calls : Calls) :
    (∀ d, Document.read e.grammar path text = .ok d →
      (∃ cs, (e.rounds true 2 (.start d calls)).1.changes =
          (e.rounds true 1 (.start d calls)).1.changes ++ cs ∧
        ∀ c ∈ cs, c.rule = Rule.selfClosingTag.id) ∧
      ∀ n, (e.rounds true (n + 3) (.start d calls)).1.changes =
        (e.rounds true 2 (.start d calls)).1.changes) ∧
    (∀ n, (e.withPasses (n + 3)).analyse path text (some true) calls =
      (e.withPasses 3).analyse path text (some true) calls) ∧
    (e.analyse path text (some true) calls).1.passes ≤ 3 ∧
    ((∀ k, e.faults.resolve k = none) → ∀ calls',
      (e.analyse path text (some false) calls').1.findings ⊆
        (e.analyse path text (some true) calls).1.findings ∧
      ∀ f ∈ (e.analyse path text (some true) calls).1.findings,
        f ∈ (e.analyse path text (some false) calls').1.findings ∨
          f.rule = Rule.selfClosingTag.id) := by
  have hrunning := fun d (hread : Document.read e.grammar path text = .ok d) calls =>
    read_regular hplain hnamed hread calls
  have hthree := fun d hread => rounds_three hrules hdetect (hrunning d hread calls)
  cases hread : Document.read e.grammar path text with
  | error error =>
    refine ⟨fun d hd => (by cases hd), fun n => ?_, ?_, fun _ calls' => ?_⟩
    · have hread' : ∀ n, Document.read (e.withPasses n).grammar path text = .error error :=
        fun _ => hread
      rw [analyse, analyse, hread', hread']
      cases error <;> rfl
    · rw [passes_of_unread hread]
      exact Nat.zero_le 3
    · rw [findings_of_unread hread, findings_of_unread hread]
      exact ⟨List.Subset.refl _, fun f hf => by cases hf⟩
  | ok d =>
    obtain ⟨hsecond, hthird⟩ := hthree d hread
    refine ⟨?_, fun n => analyse_withPasses hread (hthird n).1, ?_, fun hresolve calls' => ?_⟩
    · rintro _ ⟨⟩
      exact ⟨hsecond, fun n => (hthird n).2⟩
    · have hpasses := analyse_passes hread (some true) calls
      rw [hpasses]
      obtain hle | ⟨n, hn⟩ : e.maxPasses ≤ 3 ∨ ∃ n, e.maxPasses = n + 3 :=
        (Nat.le_total e.maxPasses 3).imp_right fun h => ⟨e.maxPasses - 3, by omega⟩
      · have := rounds_passes e e.maxPasses (.start d calls)
        exact this.trans (by simpa [Progress.start] using hle)
      · rw [hn]
        exact (congrArg (·.1.passes) (hthird n).1).trans_le
          ((rounds_passes e 3 (.start d calls)).trans_eq (Nat.zero_add 3))
    · have hchecked := @findings_of_check e path text d calls' hread (some false) rfl (hresolve _)
      have hseen : (e.found (.start d calls')).2.seen = (e.found (.start d calls)).2.seen :=
        (found_gather hdetect (p := .start d calls') rfl).1.trans
          (found_gather hdetect (p := .start d calls) rfl).1.symm
      have hfixed : ∀ f, f ∈ (e.analyse path text (some true) calls).1.findings ↔
          f ∈ (e.rounds true e.maxPasses (.start d calls)).1.seen := fun f =>
        mem_findings hread (analyse_error hprint hread hrules hresolve (some true) calls)
      obtain ⟨more, hs, hmore⟩ := rounds_extends_found hrules hdetect (hrunning d hread calls)
        (hresolve _) e.maxPasses
      rw [hseen] at hchecked
      refine ⟨fun f hf => ?_, fun f hf => ?_⟩
      · rw [hfixed, hs]
        exact List.mem_append_left _ (hchecked.mem_iff.1 hf)
      · rw [hfixed, hs] at hf
        exact (List.mem_append.1 hf).imp hchecked.mem_iff.2 (hmore f)

/-- The emptied void element of `Concrete.hollowList` is collapsed in the second round, and no third
one changes anything. -/
theorem hollow_converges : (∀ d, Document.read hollow.grammar "A.jsx" hollowText = .ok d →
      (∃ cs, (hollow.rounds true 2 (.start d .none)).1.changes =
          (hollow.rounds true 1 (.start d .none)).1.changes ++ cs ∧
        ∀ c ∈ cs, c.rule = Rule.selfClosingTag.id) ∧
      ∀ n, (hollow.rounds true (n + 3) (.start d .none)).1.changes =
        (hollow.rounds true 2 (.start d .none)).1.changes) ∧
    (hollow.analyse "A.jsx" hollowText (some true) .none).1.passes ≤ 3 ∧
    (hollow.analyse "A.jsx" hollowText (some false) .none).1.findings ⊆
      (hollow.analyse "A.jsx" hollowText (some true) .none).1.findings :=
  have h := @analyse_converges hollow "A.jsx" hollowText (by decide +kernel) (by decide +kernel)
    (by decide +kernel) (List.Subset.refl _) (fun _ _ => rfl) .none
  ⟨h.1, h.2.2.1, (h.2.2.2 (fun _ => rfl) .none).1⟩

end Outcomes

end Engine
end JsxLint
