import JsxLint.Proofs.Analysis.Printing
import JsxLint.Proofs.Rule.Reports
import JsxLint.Run.File

/-!
# Accounts of findings

Every finding that its rule could repair is settled once, by a change or by a refusal, whatever
breaks down on the way. Left open are only the findings that the last detection brings, when all
rounds of repairs were used up before it. Taking changes back keeps the account: each becomes a
refusal.

* `Progress.settled`, `Outcome.settled`: what was done about findings;
* `Engine.canRepair`: the findings of rules that can repair;
* `Engine.lateFindings`: the findings that no round of repairs follows;
* `Engine.Balanced`: findings and what was settled of them, in balance after every round;
* `Outcome.Accounted`: the account of an outcome;
* `Engine.accounted_analyse`: every outcome has one, also when its text cannot be written.
-/

namespace JsxLint

/-- What was done about findings: who did it, and the finding. -/
def settledBy (changes : List Change) (refusals : List Refusal) : List (String × Finding) :=
  changes.map (fun c => (c.rule, c.finding)) ++ refusals.map fun r => (r.rule, r.finding)

/-- What was done so far about findings. -/
def Progress.settled (p : Progress) : List (String × Finding) :=
  settledBy p.changes p.refusals

/-- What was done about findings in the end. -/
def Outcome.settled (o : Outcome) : List (String × Finding) :=
  settledBy o.changes o.refusals

theorem settledBy_change (changes : List Change) (refusals : List Refusal) (c : Change) :
    (settledBy (changes ++ [c]) refusals).Perm (settledBy changes refusals ++ [(c.rule, c.finding)]) := by
  rw [settledBy, settledBy, List.map_append, List.append_assoc, List.append_assoc]
  exact List.Perm.append_left _ List.perm_append_comm

theorem settledBy_refusal (changes : List Change) (refusals : List Refusal) (r : Refusal) :
    settledBy changes (refusals ++ [r]) = settledBy changes refusals ++ [(r.rule, r.finding)] := by
  rw [settledBy, settledBy, List.map_append, List.append_assoc]
  rfl

/-- Changes that are taken back are settled all the same. -/
theorem Outcome.settled_abandon (o : Outcome) (reason : Reason) :
    (o.abandon reason).settled.Perm o.settled := by
  have hlost : (o.changes.map (lost reason)).map (fun r => (r.rule, r.finding)) =
      o.changes.map fun c => (c.rule, c.finding) := by
    rw [List.map_map]
    rfl
  rw [settled, settled, settledBy, settledBy, abandon, List.map_append, hlost, List.map_nil,
    List.nil_append]
  exact List.perm_append_comm

namespace Engine

variable {e : Engine} {w : Workspace} {p p' : Progress} {rule : Rule} {f : Finding}
  {new : List (Rule × Finding)}

/-- Whether a finding is one of a rule that can repair. -/
def canRepair (e : Engine) (f : Finding) : Bool :=
  e.rules.any fun rule => rule.id == f.rule && rule.isFixable

/-- The findings that no round of repairs follows; there are none when a round changes nothing. -/
def lateFindings (e : Engine) : Nat → Progress → List Finding
  | 0, p => (e.found p).1.map (·.2)
  | n + 1, p =>
    if (e.repaired p).changes.length = p.changes.length then []
    else e.lateFindings n (e.repaired p)

theorem canRepair_eq (hrules : e.rules ⊆ Rule.all) (hr : rule ∈ e.rules) (hf : f.rule = rule.id) :
    e.canRepair f = rule.isFixable := by
  rw [canRepair, Bool.eq_iff_iff, List.any_eq_true]
  simp only [Bool.and_eq_true, beq_iff_eq]
  constructor
  · rintro ⟨other, ho, hid, hfix⟩
    rwa [Rule.id_inj (hrules hr) (hrules ho) (hf.symm.trans hid.symm)]
  · exact fun hfix => ⟨rule, hr, hf.symm, hfix⟩

/-! ### One round -/

/-- A finding of a rule that can repair is settled by that rule, another one is not. -/
theorem repairOne_settled (e : Engine) (w : Workspace) (p : Progress) (hs : rule.Signs)
    (f : Finding) : (e.repairOne w p rule f).2.settled.Perm
      (p.settled ++ if rule.isFixable then [(rule.id, f)] else []) := by
  rw [repairOne, Rule.isFixable]
  cases hr : rule.repair? with
  | none => exact (List.append_nil _).symm ▸ .refl _
  | some repair =>
    rw [Option.isSome_some, if_pos rfl]
    dsimp only
    cases e.faults.repair rule.id (countCall rule.id p.calls.repair).1 with
    | some message => exact .of_eq (settledBy_refusal p.changes p.refusals _)
    | none =>
      dsimp only
      cases hok : repair w f with
      | error reason => exact .of_eq (settledBy_refusal p.changes p.refusals _)
      | ok result =>
        obtain ⟨hrule, hfinding⟩ := hs.change_eq hr hok
        have hchange := settledBy_change p.changes p.refusals result.1
        rw [hrule, hfinding] at hchange
        exact hchange

/-- The repairs of a round settle the findings that can be repaired, one after the other. -/
theorem repairAll_settled (e : Engine) (w : Workspace) (p : Progress)
    (hs : ∀ x ∈ new, x.1.Signs) : (e.repairAll w p new).settled.Perm
      (p.settled ++ (new.filter (·.1.isFixable)).map fun x => (x.1.id, x.2)) := by
  rw [repairAll]
  dsimp only
  show (new.foldl (fun (state : Workspace × Progress) x => e.repairOne state.1 state.2 x.1 x.2)
    (w, p)).2.settled.Perm _
  induction new generalizing w p with
  | nil => exact (List.append_nil _).symm ▸ .refl _
  | cons x new ih =>
    obtain ⟨rule, f⟩ := x
    have hone := repairOne_settled e w p (hs _ List.mem_cons_self) f
    have hrest := ih (e.repairOne w p rule f).1 (e.repairOne w p rule f).2
      fun y hy => hs y (List.mem_cons_of_mem _ hy)
    refine hrest.trans ((hone.append_right _).trans (.of_eq ?_))
    rw [List.append_assoc, List.filter_cons]
    split_ifs <;> rfl

/-! ### Balance -/

/-- What was settled of some findings in balance: of those that can be repaired, each one is that
is not late, and by its own rule. -/
structure Balanced (e : Engine) (late findings : List Finding) (settled : List (String × Finding)) :
    Prop where
  nodup : (findings.map Finding.key).Nodup
  signed : ∀ f ∈ findings, ∃ rule ∈ e.rules, f.rule = rule.id ∧ f.severity = rule.severity
  settled : settled.Perm
    ((findings.filter fun f => e.canRepair f && !late.contains f).map fun f => (f.rule, f))

theorem balanced_nil (e : Engine) (late : List Finding) : e.Balanced late [] [] :=
  ⟨List.nodup_nil, fun f hf => (by cases hf), .refl _⟩

theorem Balanced.perm {late findings findings' : List Finding} {settled settled' : List (String × Finding)}
    (h : e.Balanced late findings settled) (hf : findings'.Perm findings)
    (hs : settled'.Perm settled) : e.Balanced late findings' settled' where
  nodup := (hf.map _).nodup_iff.2 h.nodup
  signed f hm := h.signed f (hf.mem_iff.1 hm)
  settled := hs.trans (h.settled.trans ((hf.filter _).map _).symm)

/-- No finding is settled twice. -/
theorem Balanced.distinct {late findings : List Finding} {settled : List (String × Finding)}
    (h : e.Balanced late findings settled) : (settled.map (·.2.key)).Nodup := by
  have hkeys := h.settled.map (·.2.key)
  rw [List.map_map] at hkeys
  exact hkeys.nodup_iff.2 (h.nodup.sublist (List.filter_sublist.map _))

section Round

variable (hrules : e.rules ⊆ Rule.all) (h : e.Balanced [] p.seen p.settled)

include hrules h

theorem seen_found : ((e.found p).2.seen.map Finding.key).Nodup ∧
    ∀ f ∈ (e.found p).2.seen, ∃ rule ∈ e.rules, f.rule = rule.id ∧ f.severity = rule.severity := by
  have hd := found_detected e p
  rw [hd.seen]
  constructor
  · rw [List.map_append, List.map_map]
    refine List.nodup_append.2 ⟨h.nodup, hd.nodup, fun k hk l hl he => ?_⟩
    obtain ⟨g, hg, rfl⟩ := List.mem_map.1 hk
    obtain ⟨x, hx, rfl⟩ := List.mem_map.1 hl
    exact hd.unknown x hx (knows_iff.2 ⟨g, hg, he⟩)
  · intro f hf
    rcases List.mem_append.1 hf with hf | hf
    · exact h.signed f hf
    · obtain ⟨x, hx, rfl⟩ := List.mem_map.1 hf
      obtain ⟨hr, hx⟩ := hd.mem x hx
      have hs := Rule.signs_of_mem_all x.1 (hrules hr)
      exact ⟨x.1, hr, hs.rule_eq hx, hs.severity_eq hx⟩

/-- What a last detection finds is late. -/
theorem found_balanced :
    e.Balanced ((e.found p).1.map (·.2)) (e.found p).2.seen (e.found p).2.settled := by
  have hd := found_detected e p
  obtain ⟨hnodup, hsigned⟩ := seen_found hrules h
  refine ⟨hnodup, hsigned, ?_⟩
  have hold : p.seen.filter (fun f => e.canRepair f && !((e.found p).1.map (·.2)).contains f) =
      p.seen.filter fun f => e.canRepair f && !([] : List Finding).contains f := by
    refine List.filter_congr fun f hf => ?_
    have hnew : f ∉ (e.found p).1.map (·.2) := by
      intro hmem
      obtain ⟨x, hx, rfl⟩ := List.mem_map.1 hmem
      exact hd.unknown x hx (knows_iff.2 ⟨x.2, hf, rfl⟩)
    simp [hnew]
  have hlate : ((e.found p).1.map (·.2)).filter
      (fun f => e.canRepair f && !((e.found p).1.map (·.2)).contains f) = [] := by
    refine List.filter_eq_nil_iff.2 fun f hf => ?_
    simp [hf]
  rw [Progress.settled, hd.changes, hd.refusals, hd.seen, List.filter_append, hold, hlate,
    List.append_nil]
  exact h.settled

/-- A round of repairs settles what it found. -/
theorem repaired_balanced : e.Balanced [] (e.repaired p).seen (e.repaired p).settled := by
  have hd := found_detected e p
  obtain ⟨hnodup, hsigned⟩ := seen_found hrules h
  obtain ⟨-, -, -, -, -, hseen, -⟩ := repairAll_repairs e (.ofDocument p.document) (e.found p).2
    (e.found p).1
  have hsettled := repairAll_settled e (.ofDocument p.document) (e.found p).2 fun x hx =>
    Rule.signs_of_mem_all x.1 (hrules (hd.mem x hx).1)
  have hnew : ∀ x ∈ (e.found p).1, x.2.rule = x.1.id ∧ e.canRepair x.2 = x.1.isFixable := by
    intro x hx
    obtain ⟨hr, hf⟩ := hd.mem x hx
    have hid := (Rule.signs_of_mem_all x.1 (hrules hr)).rule_eq hf
    exact ⟨hid, canRepair_eq hrules hr hid⟩
  have hfilter : (((e.found p).1.map (·.2)).filter e.canRepair).map (fun f => (f.rule, f)) =
      ((e.found p).1.filter (·.1.isFixable)).map fun x => (x.1.id, x.2) := by
    have hsame : (e.found p).1.filter (e.canRepair ∘ (·.2)) =
        (e.found p).1.filter (·.1.isFixable) := List.filter_congr fun x hx => (hnew x hx).2
    rw [List.filter_map, List.map_map, hsame]
    exact List.map_congr_left fun x hx => Prod.ext (hnew x (List.mem_of_mem_filter hx)).1 rfl
  refine ⟨hseen ▸ hnodup, hseen ▸ hsigned, hsettled.trans ?_⟩
  have hbefore : (e.found p).2.settled = p.settled := by
    rw [Progress.settled, hd.changes, hd.refusals]
    rfl
  have hall : (fun f => e.canRepair f && !([] : List Finding).contains f) = e.canRepair := by
    funext f
    simp
  have hp := h.settled
  rw [hall] at hp
  rw [show (e.repaired p).seen = _ from hseen, hd.seen, hall, List.filter_append, List.map_append,
    hfilter, hbefore]
  exact hp.append_right _

end Round

/-! ### All rounds -/

/-- Rounds that come to an end leave their accounts balanced. -/
theorem rounds_balanced (hrules : e.rules ⊆ Rule.all) (n : Nat)
    (h : e.Balanced [] p.seen p.settled) (hp : e.rounds true n p = (p', none)) :
    e.Balanced (e.lateFindings n p) p'.seen p'.settled := by
  induction n generalizing p with
  | zero =>
    cases hf : e.faults.resolve (p.calls.resolve + 1) with
    | some message =>
      rw [rounds_of_fault hf] at hp
      cases hp
    | none =>
      rw [rounds_zero hf] at hp
      cases hp
      exact found_balanced hrules h
  | succ n ih =>
    cases hf : e.faults.resolve (p.calls.resolve + 1) with
    | some message =>
      rw [rounds_of_fault hf] at hp
      cases hp
    | none =>
      rw [rounds_succ hf] at hp
      rw [lateFindings]
      split_ifs at hp ⊢
      · cases hp
        exact repaired_balanced hrules h
      · exact ih (repaired_balanced hrules h) hp

end Engine

/-! ### Outcomes -/

/-- The account of an outcome: no finding is settled twice, each that is settled was found and can
be repaired by the rule that settles it, and of those that can be repaired all are settled that are
not late. So the issues are those that changed and those that are unresolved. -/
structure Outcome.Accounted (o : Outcome) (canRepair : Finding → Bool) (late : List Finding) :
    Prop where
  distinct : (o.settled.map (·.2.key)).Nodup
  settles : ∀ x ∈ o.settled, x.2 ∈ o.findings ∧ canRepair x.2 ∧ x.2.rule = x.1
  once : ∀ f ∈ o.findings, canRepair f → (o.settled.map (·.2)).count f = if f ∈ late then 0 else 1
  unresolved : o.unresolved.length + o.changes.length = o.issues.length

namespace Outcome

variable {o : Outcome} {late : List Finding}

/-- Elements with one of some keys, each of which an element has, are as many as the keys. -/
theorem length_filter_key {α β : Type} [BEq β] [LawfulBEq β] {g : α → β} {xs : List α}
    {ks : List β} (hxs : (xs.map g).Nodup) (hks : ks.Nodup) (hsub : ∀ k ∈ ks, ∃ x ∈ xs, g x = k) :
    (xs.filter fun x => !ks.contains (g x)).length + ks.length = xs.length := by
  have hperm : ((xs.filter fun x => ks.contains (g x)).map g).Perm ks := by
    refine (List.perm_ext_iff_of_nodup ?_ hks).2 fun k => ?_
    · exact hxs.sublist (List.filter_sublist.map g)
    · simp only [List.mem_map, List.mem_filter, List.contains_iff_mem]
      constructor
      · rintro ⟨x, ⟨-, hx⟩, rfl⟩
        exact hx
      · intro hk
        obtain ⟨x, hx, rfl⟩ := hsub k hk
        exact ⟨x, ⟨hx, hk⟩, rfl⟩
  have hlength := hperm.length_eq
  rw [List.length_map] at hlength
  have hsplit := List.length_eq_countP_add_countP (fun x => ks.contains (g x)) (l := xs)
  rw [List.countP_eq_length_filter, List.countP_eq_length_filter, hlength] at hsplit
  simp only [Bool.not_eq_true, Bool.decide_eq_false] at hsplit
  omega

/-- An outcome in balance is accounted for. -/
theorem accounted_of_balanced {e : Engine} (hrules : e.rules ⊆ Rule.all)
    (hb : e.Balanced late o.findings o.settled) : o.Accounted e.canRepair late := by
  have hdistinct := hb.distinct
  obtain ⟨hnodup, hsigned, h⟩ := hb
  have hfindings : (o.settled.map (·.2)).Perm
      (o.findings.filter fun f => e.canRepair f && !late.contains f) := by
    have := h.map (·.2)
    rwa [List.map_map, show ((·.2) ∘ fun f : Finding => (f.rule, f)) = id from rfl,
      List.map_id] at this
  have hsettles : ∀ x ∈ o.settled, x.2 ∈ o.findings ∧ e.canRepair x.2 ∧ x.2.rule = x.1 := by
    intro x hx
    obtain ⟨f, hf, rfl⟩ := List.mem_map.1 (h.mem_iff.1 hx)
    obtain ⟨hf, hc⟩ := List.mem_filter.1 hf
    exact ⟨hf, (Bool.and_eq_true_iff.1 hc).1, rfl⟩
  refine ⟨hdistinct, hsettles, fun f hf hc => ?_, ?_⟩
  · rw [hfindings.count_eq]
    split_ifs with hlate
    · exact List.count_eq_zero.2 fun hmem => by simp [hlate] at hmem
    · rw [List.count_filter (by simp [hc, hlate])]
      exact List.count_eq_one_of_mem hnodup.of_map hf
  · -- what can be repaired is an issue, so the changes are changes of issues
    have hissue : ∀ c ∈ o.changes, c.finding ∈ o.issues := by
      intro c hc
      obtain ⟨hf, hrepair, -⟩ := hsettles (c.rule, c.finding)
        (List.mem_append_left _ (List.mem_map_of_mem hc))
      obtain ⟨rule, hr, hid, hseverity⟩ := hsigned c.finding hf
      rw [Engine.canRepair_eq hrules hr hid] at hrepair
      refine List.mem_filter.2 ⟨hf, ?_⟩
      rw [Finding.isIssue, hseverity]
      exact bne_iff_ne.2 ((Rule.signs_of_mem_all rule (hrules hr)).issue hrepair)
    have hchanges : (o.changes.map (·.finding.key)).Nodup := by
      rw [settled, settledBy, List.map_append, List.map_map] at hdistinct
      exact hdistinct.of_append_left
    have hissues : (o.issues.map Finding.key).Nodup :=
      hnodup.sublist (List.filter_sublist.map _)
    have hlength := length_filter_key hissues hchanges fun k hk => by
      obtain ⟨c, hc, rfl⟩ := List.mem_map.1 hk
      exact ⟨c.finding, hissue c hc, rfl⟩
    rwa [List.length_map] at hlength

end Outcome

namespace Engine

variable {e : Engine} {path text : String} {d : Document} {p : Progress}

/-- An outcome has the findings of its rounds, and what was settled then is settled. -/
theorem conclude_cases (e : Engine) (path : String) (p : Progress) :
    (∃ error, e.conclude path p = broken path p error) ∨
      (e.conclude path p).findings.Perm p.seen ∧ (e.conclude path p).settled.Perm p.settled := by
  have hfound : (finished path p).findings.Perm p.seen := List.mergeSort_perm _ _
  rw [conclude]
  split_ifs
  · exact .inr ⟨hfound, .refl _⟩
  · split
    · exact .inr ⟨hfound, Outcome.settled_abandon _ _⟩
    · exact .inr ⟨hfound, .refl _⟩
    · exact .inl ⟨_, rfl⟩
    · exact .inr ⟨hfound, Outcome.settled_abandon _ _⟩

/-- Writing changes no finding, and what was settled before is settled after it. -/
theorem save_settled (f : Files) (p : Path) (o : Outcome) (fault : Files.WriteStep → Option String) :
    (save f p o fault).1.findings = o.findings ∧ (save f p o fault).1.settled.Perm o.settled := by
  rw [save]
  split
  · exact ⟨rfl, .refl _⟩
  · dsimp only
    split
    · exact ⟨rfl, Outcome.settled_abandon _ _⟩
    · exact ⟨rfl, .refl _⟩

/-- An analysis leaves its findings and what was settled of them in balance. -/
theorem analyse_balanced (hrules : e.rules ⊆ Rule.all)
    (hread : Document.read e.grammar path text = .ok d) {fix : Option Bool}
    (hfix : fix.getD e.fix = true) (calls : Calls) :
    e.Balanced (e.lateFindings e.maxPasses (.start d calls))
      (e.analyse path text fix calls).1.findings (e.analyse path text fix calls).1.settled := by
  rw [analyse, hread, hfix]
  dsimp only
  rcases hp : e.rounds true e.maxPasses (.start d calls) with ⟨p, _ | error⟩
  · have hb := rounds_balanced hrules e.maxPasses (balanced_nil e []) hp
    rcases conclude_cases e path p with ⟨error, hc⟩ | ⟨hf, hs⟩
    · dsimp only
      rw [hc]
      exact balanced_nil e _
    · exact hb.perm hf hs
  · exact balanced_nil e _

/-- In an analysis with repairs, every finding that its rule can repair is settled once unless it is
late. This is so whatever rules and repairs break down, whether or not the repaired tree can be
printed and the text be written, and it stays so when changes are taken back. -/
theorem accounted_analyse (hrules : e.rules ⊆ Rule.all)
    (hread : Document.read e.grammar path text = .ok d) (fix : Option Bool)
    (hfix : fix.getD e.fix = true) (calls : Calls) {o : Outcome}
    (ho : o = (e.analyse path text fix calls).1) :
    o.Accounted e.canRepair (e.lateFindings e.maxPasses (.start d calls)) ∧
    (∀ f p fault, (save f p o fault).1.Accounted e.canRepair
        (e.lateFindings e.maxPasses (.start d calls)) ∧
      (save f p o fault).1.findings = o.findings ∧
      (save f p o fault).1.settled.Perm o.settled) ∧
    ∀ reason, (o.abandon reason).settled.Perm o.settled ∧
      (o.abandon reason).refusals.length = o.refusals.length + o.changes.length := by
  have hb := analyse_balanced hrules hread hfix calls
  rw [← ho] at hb
  refine ⟨Outcome.accounted_of_balanced hrules hb, fun f p fault => ?_, fun reason => ⟨?_, ?_⟩⟩
  · obtain ⟨hf, hs⟩ := save_settled f p o fault
    exact ⟨Outcome.accounted_of_balanced hrules (hb.perm (.of_eq hf) hs), hf, hs⟩
  · exact o.settled_abandon reason
  · rw [Outcome.abandon, List.length_append, List.length_map]

/-- All rules at work on `Concrete.hollowList` for one round, in which the key cannot be put in. -/
def hurried : Engine :=
  { hollow with
    faults := { Faults.none with repair := fun rule _ => if rule = "missing-key" then some "" else none }
    maxPasses := 1 }

/-- Two changes and a refusal are three refusals when the text has no file to replace. The tag that
could be collapsed was found too late. -/
theorem hurried_accounted : ∃ d, Document.read hurried.grammar "A.jsx" hollowText = .ok d ∧
    (hurried.lateFindings 1 (.start d .none)).map (·.rule) = ["self-closing-tag"] ∧
    (hurried.analyse "A.jsx" hollowText none .none).1.settled.map (·.1) =
      ["empty-expression", "empty-expression", "missing-key"] ∧
    (save default (.ofString "A.jsx") (hurried.analyse "A.jsx" hollowText none .none).1
      fun _ => none).1.refusals.map (·.rule) =
        ["missing-key", "empty-expression", "empty-expression"] ∧
    (save default (.ofString "A.jsx") (hurried.analyse "A.jsx" hollowText none .none).1
      fun _ => none).1.Accounted hurried.canRepair (hurried.lateFindings 1 (.start d .none)) := by
  have hlate : (Document.read hurried.grammar "A.jsx" hollowText).map
      (fun d => (hurried.lateFindings 1 (.start d .none)).map (·.rule)) =
        .ok ["self-closing-tag"] := by decide +kernel
  obtain ⟨d, hd, hrules⟩ := Reading.map_eq_ok.1 hlate
  refine ⟨d, hd, hrules, by decide +kernel, by decide +kernel, ?_⟩
  have h := accounted_analyse (List.Subset.refl _) hd none rfl .none rfl
  exact (h.2.1 default (.ofString "A.jsx") fun _ => none).1

end Engine
end JsxLint
