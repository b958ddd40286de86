import JsxLint.Proofs.Rule.ComponentName
import JsxLint.Proofs.Rule.ListKey
import JsxLint.Rule.Registry

/-!
# What rules put their name to

Every finding of a rule and every change that repairs one carry the rule's id, and a finding has
the rule's severity. Only what asks for a repair can be repaired.

* `Rule.Reports`, `Rule.Changes`: rules that report, and repairs that change, under their own name;
* `Rule.Signs`: a rule that puts its name to all that it brings forth;
* `Rule.signs_of_mem_all`: every rule does;
* `Rule.id_inj`: rules with the same id are the same.
-/

namespace JsxLint.Rule

/-- Whether every finding of a rule is a report of the rule at some node. -/
def Reports (rule : Rule) : Prop :=
  ∀ w nodes, ∀ f ∈ rule.detect w nodes, ∃ n detail, f = rule.report w n detail

/-- Whether every change that a repair makes is a change of the rule for the finding at hand. -/
def Changes (info : RuleInfo) (repair : Repair) : Prop :=
  ∀ w f c w', repair w f = .ok (c, w') →
    ∃ kind before after action, c = info.change f kind before after action

/-- Whether all that a rule brings forth carries its id, and all that it can repair asks for it. -/
structure Signs (rule : Rule) : Prop where
  reports : rule.Reports
  changes : ∀ repair, rule.repair? = some repair → Changes rule.toRuleInfo repair
  issue : rule.isFixable → rule.severity ≠ .good

section Signs

variable {rule : Rule} {repair : Repair} {w w' : Workspace} {nodes : List Node} {f : Finding}
  {c : Change}

theorem Signs.rule_eq (h : rule.Signs) (hf : f ∈ rule.detect w nodes) : f.rule = rule.id := by
  obtain ⟨n, detail, rfl⟩ := h.reports w nodes f hf
  rfl

theorem Signs.severity_eq (h : rule.Signs) (hf : f ∈ rule.detect w nodes) :
    f.severity = rule.severity := by
  obtain ⟨n, detail, rfl⟩ := h.reports w nodes f hf
  rfl

theorem Signs.change_eq (h : rule.Signs) (hr : rule.repair? = some repair)
    (hok : repair w f = .ok (c, w')) : c.rule = rule.id ∧ c.finding = f := by
  obtain ⟨kind, before, after, action, rfl⟩ := h.changes repair hr w f c w' hok
  exact ⟨rfl, rfl⟩

/-- A rule that repairs nothing signs all that it brings forth when it reports under its name. -/
theorem Reports.signs (h : rule.Reports) (hn : rule.repair? = none) : rule.Signs where
  reports := h
  changes repair hr := by
    rw [hn] at hr
    cases hr
  issue hf := by
    rw [isFixable, hn] at hf
    cases hf

theorem Reports.signs_of_repair (h : rule.Reports) (hr : rule.repair? = some repair)
    (hc : Changes rule.toRuleInfo repair) (hs : rule.severity ≠ .good) : rule.Signs where
  reports := h
  changes other ho := by
    cases hr.symm.trans ho
    exact hc
  issue _ := hs

end Signs

/-! ### Rules that only report -/

section Watching

/-- What is kept of a list of places is reported when each report is. -/
theorem exists_of_filterMap {α : Type} {P : Finding → Prop} {g : α → Option Finding}
    {xs : List α} (h : ∀ x f, g x = some f → P f) : ∀ f ∈ xs.filterMap g, P f := by
  intro f hf
  obtain ⟨x, -, hx⟩ := List.mem_filterMap.1 hf
  exact h x f hx

theorem exists_of_map {α : Type} {P : Finding → Prop} {g : α → Finding} {xs : List α}
    (h : ∀ x, P (g x)) : ∀ f ∈ xs.map g, P f := by
  intro f hf
  obtain ⟨x, -, rfl⟩ := List.mem_map.1 hf
  exact h x

theorem nestedTernary_signs : nestedTernary.Signs := by
  refine Reports.signs (fun w nodes => exists_of_filterMap fun ⟨n, expression⟩ f hf => ?_) rfl
  dsimp only at hf
  split at hf <;> cases hf
  exact ⟨n, _, rfl⟩

theorem conditionalRendering_signs : conditionalRendering.Signs := by
  refine Reports.signs (fun w nodes => exists_of_filterMap fun ⟨n, expression⟩ f hf => ?_) rfl
  dsimp only at hf
  split at hf <;> cases hf <;> exact ⟨n, _, rfl⟩

theorem quoteConsistency_signs : quoteConsistency.Signs := by
  refine Reports.signs (fun w nodes => ?_) rfl
  dsimp only [quoteConsistency]
  split_ifs
  · exact fun f hf => by cases hf
  · exact exists_of_map fun n => ⟨n, _, rfl⟩
  · exact exists_of_map fun n => ⟨n, _, rfl⟩

theorem dangerousHtml_signs : dangerousHtml.Signs := by
  refine Reports.signs (fun w nodes => exists_of_filterMap fun ⟨n, name, value⟩ f hf => ?_) rfl
  dsimp only at hf
  split_ifs at hf
  cases hf
  exact ⟨n, _, rfl⟩

theorem safeInterpolation_signs : safeInterpolation.Signs := by
  refine Reports.signs (fun w nodes => exists_of_filterMap fun n f hf => ?_) rfl
  dsimp only at hf
  split at hf
  · split_ifs at hf
    cases hf
    exact ⟨n, _, rfl⟩
  · cases hf

theorem fragmentUsage_signs : fragmentUsage.Signs :=
  Reports.signs (fun _ _ => exists_of_map fun n => ⟨n, _, rfl⟩) rfl

theorem propsSpreading_signs : propsSpreading.Signs :=
  Reports.signs (fun _ _ => exists_of_map fun n => ⟨n, _, rfl⟩) rfl

theorem inlineFunction_signs : inlineFunction.Signs := by
  refine Reports.signs (fun w nodes => exists_of_filterMap fun ⟨n, name, value⟩ f hf => ?_) rfl
  dsimp only at hf
  split at hf
  · split_ifs at hf
    cases hf
    exact ⟨n, _, rfl⟩
  · cases hf

end Watching

/-! ### Rules that repair -/

theorem emptyExpression_signs : emptyExpression.Signs := by
  refine Reports.signs_of_repair (fun w nodes => exists_of_map fun n => ⟨n, _, rfl⟩) rfl
    (fun w f c w' hok => ?_) (by decide)
  obtain ⟨-, -, -, before, -, -, -, rfl, -⟩ := EmptyExpression.repair_eq_ok hok
  exact ⟨_, _, _, _, rfl⟩

theorem attributeSpelling_signs {info : RuleInfo} {names : List (String × String)}
    (h : info.severity ≠ .good) : (AttributeSpelling.rule info names).Signs := by
  refine Reports.signs_of_repair (fun w nodes => exists_of_filterMap fun ⟨n, name, value⟩ f hf => ?_)
    rfl (fun w f c w' hok => ?_) h
  · dsimp only at hf
    split_ifs at hf
    cases hf
    exact ⟨n, _, rfl⟩
  · obtain ⟨-, name, -, newName, -, -, -, -, rfl, -⟩ := AttributeSpelling.repair_eq_ok hok
    exact ⟨_, _, _, _, rfl⟩

theorem selfClosingTag_signs : selfClosingTag.Signs := by
  refine Reports.signs_of_repair (fun w nodes => exists_of_filterMap fun ⟨n, parts⟩ f hf => ?_)
    rfl (fun w f c w' hok => ?_) (by decide)
  · dsimp only at hf
    split_ifs at hf
    cases hf
    exact ⟨n, _, rfl⟩
  · obtain ⟨n, -, -, -, -, -, -, rfl, -⟩ := VoidElement.repair_eq_ok hok
    exact ⟨_, _, _, _, rfl⟩

theorem missingKey_signs : missingKey.Signs := by
  refine Reports.signs_of_repair (fun w nodes f hf => ?_) rfl (fun w f c w' hok => ?_) (by decide)
  · obtain ⟨callback, -, hf⟩ := List.mem_flatMap.1 hf
    obtain ⟨n, -, rfl⟩ := List.mem_map.1 hf
    exact ⟨n, _, rfl⟩
  · obtain ⟨p, rfl, -⟩ := ListKey.repair_eq_ok hok
    exact ⟨_, _, _, _, rfl⟩

theorem componentNaming_signs : componentNaming.Signs := by
  refine Reports.signs_of_repair (fun w nodes => exists_of_filterMap fun ⟨name, g⟩ f hf => ?_)
    rfl (fun w f c w' hok => ?_) (by decide)
  · dsimp only at hf
    split_ifs at hf
    cases hf
    exact ⟨name, _, rfl⟩
  · obtain ⟨-, b, binding, -, -, -, -, -, rfl, -⟩ := ComponentName.repair_eq_ok hok
    exact ⟨_, _, _, _, rfl⟩

/-! ### All rules -/

/-- Every rule puts its name to all that it brings forth. -/
theorem signs_of_mem_all : ∀ rule ∈ all, rule.Signs := by
  simp only [all, List.forall_mem_cons, List.not_mem_nil, false_imp_iff, implies_true, and_true]
  exact ⟨emptyExpression_signs, nestedTernary_signs, conditionalRendering_signs,
    quoteConsistency_signs, attributeSpelling_signs (by decide), attributeSpelling_signs (by decide),
    dangerousHtml_signs, safeInterpolation_signs, selfClosingTag_signs, fragmentUsage_signs,
    missingKey_signs, componentNaming_signs, propsSpreading_signs, inlineFunction_signs⟩

theorem ne_of_id_ne {rule other : Rule} (h : rule.id ≠ other.id) : rule ≠ other :=
  mt (congrArg fun r : Rule => r.id) h

theorem nodup_ids : (all.map (·.id)).Nodup := by
  decide

/-- Rules with the same id are the same. -/
theorem id_inj {rule other : Rule} (hrule : rule ∈ all) (hother : other ∈ all)
    (h : rule.id = other.id) : rule = other :=
  List.inj_on_of_nodup_map nodup_ids hrule hother h

end JsxLint.Rule
