import JsxLint.Proofs.Analysis.Accounts
import JsxLint.Proofs.Analysis.Remaining
import JsxLint.Proofs.Rule.Refused

/-!
# A second run

A run that had three rounds leaves a tree in which every finding that can be repaired was refused
once. A second run has the same findings, and it is refused what the first was refused, with one
exception: a finding is offered to its repair once in a run, and repairs that come later can do away
with the reason. Only what asks the table of scopes can be refused for such a reason, a key or a new
name for a component. So a second run changes nothing else.

* `Engine.repairAll_refusals`: where the refusals of a round come from;
* `Engine.Refused`, `Engine.Refusing`: refusals, and what holds of them as rounds go on;
* `Engine.exists_refusal`: after the rounds, what can still be repaired was refused;
* `Engine.rounds_again`: what a second run can change.
-/

namespace JsxLint

open Node

namespace Engine

variable {e : Engine} {w : Workspace} {p : Progress} {rule : Rule} {f : Finding} {r : Refusal}
  {new : List (Rule × Finding)}

/-! ### Refusals of a round -/

section Refusals

variable (hrepair : ∀ rule k, e.faults.repair rule k = none)

include hrepair

theorem repairOne_refusal (w : Workspace) (p : Progress) (rule : Rule) (f : Finding) :
    (e.repairOne w p rule f).2.refusals = p.refusals ∨
      ∃ repair reason, rule.repair? = some repair ∧ repair w f = .error reason ∧
        (e.repairOne w p rule f).1 = w ∧
        (e.repairOne w p rule f).2.refusals = p.refusals ++ [⟨rule.id, f, reason⟩] := by
  rw [repairOne]
  cases hr : rule.repair? with
  | none => exact .inl rfl
  | some repair =>
    dsimp only
    rw [hrepair]
    dsimp only
    cases hok : repair w f with
    | error reason => exact .inr ⟨repair, reason, rfl, hok, rfl, rfl⟩
    | ok result => exact .inl rfl

/-- A refusal of a round comes from one finding, with repairs before it and after it. -/
theorem repairAll_refusals (w : Workspace) (p : Progress) (new : List (Rule × Finding)) :
    ∀ r ∈ (e.repairAll w p new).refusals, r ∈ p.refusals ∨
      ∃ before rule after repair earlier later v w', new = before ++ (rule, r.finding) :: after ∧
        Repairs w before earlier v ∧ rule.repair? = some repair ∧ r.rule = rule.id ∧
        repair v r.finding = .error r.reason ∧ Repairs v after later w' ∧
        (e.repairAll w p new).document = w'.document := by
  induction new generalizing w p with
  | nil => exact fun r hr => .inl hr
  | cons x new ih =>
    obtain ⟨rule, f⟩ := x
    intro r hr
    -- the refusal is of this finding, or of one after it
    have hcons : e.repairAll w p ((rule, f) :: new) =
        e.repairAll (e.repairOne w p rule f).1 (e.repairOne w p rule f).2 new := rfl
    rw [hcons] at hr ⊢
    rcases ih _ _ r hr with hold | ⟨before, other, after, repair, earlier, later, v, w', rfl, hb, h⟩
    · rcases repairOne_refusal hrepair w p rule f with heq | ⟨repair, reason, hrule, herror, hw, heq⟩
      · exact .inl (heq ▸ hold)
      · rw [heq] at hold
        rcases List.mem_append.1 hold with hold | hnew
        · exact .inl hold
        · cases List.mem_singleton.1 hnew
          obtain ⟨later, w', hrest, hdocument, -⟩ := repairAll_repairs e (e.repairOne w p rule f).1
            (e.repairOne w p rule f).2 new
          rw [hw] at hrest
          exact .inr ⟨[], rule, new, repair, [], later, w, w', rfl, .nil w, hrule, rfl, herror, hrest,
            hdocument⟩
    · obtain ⟨-, -, -, ⟨hw, -⟩ | ⟨made, change, hrule, hok, -⟩⟩ := repairOne_cases e w p rule f
      · exact .inr ⟨(rule, f) :: before, other, after, repair, earlier, later, v, w', rfl,
          .skip _ (hw ▸ hb), h⟩
      · exact .inr ⟨(rule, f) :: before, other, after, repair, change :: earlier, later, v, w', rfl,
          .repair hrule hok hb, h⟩

end Refusals

/-! ### Refusals of a run -/

/-- Whether a refusal is one of a finding that a rule made in a tree that came from that of a
document, and that came to its repair before the rest of the repairs. -/
def Refused (e : Engine) (d : Document) (n : Node) (r : Refusal) : Prop :=
  ∃ rule ∈ e.rules, r.rule = rule.id ∧ ∃ repair d' w, rule.repair? = some repair ∧
    Alters True d.root d'.root ∧ rule.Offered d' w r.finding ∧
      repair w r.finding = .error r.reason ∧ Alters True w.document.root n

theorem Refused.alters {d : Document} {n n' : Node} (h : e.Refused d n r) (ha : Alters True n n') :
    e.Refused d n' r := by
  obtain ⟨rule, hrule, hid, repair, d', w, hr, hd, hoffered, herror, hw⟩ := h
  exact ⟨rule, hrule, hid, repair, d', w, hr, hd, hoffered, herror, hw.trans ha⟩

/-- What holds of the states of rounds that started with a document. -/
structure Refusing (e : Engine) (d : Document) (p : Progress) : Prop where
  mending : e.Mending d p
  refused : ∀ r ∈ p.refusals, e.Refused d p.document.root r

section Run

variable {d : Document} (hdetect : ∀ rule k, e.faults.detect rule k = none)
  (hrepair : ∀ rule k, e.faults.repair rule k = none) (hrules : e.rules ⊆ Rule.all)

include hdetect hrepair hrules

/-- What a round refuses it refuses for what the tree is then. -/
theorem Refusing.repaired (h : e.Refusing d p) : e.Refusing d (e.repaired p) := by
  have hd := h.mending.running.regular
  have hfound := found_detected e p
  obtain ⟨changes, w', hr, hdocument, -⟩ := repaired_repairs e p
  have ha : Alters True p.document.root (e.repaired p).document.root := by
    rw [hdocument]
    exact Document.alters_of_repairs hd hrules hfound.mem (fun _ _ _ => trivial) hr
  refine ⟨h.mending.repaired hdetect hrules, fun r hmem => ?_⟩
  rcases repairAll_refusals hrepair _ _ _ r hmem with
    hold | ⟨before, rule, after, repair, earlier, later, v, v', hnew, hbefore, hrule, hid, herror,
      hafter, hdocument'⟩
  · rw [hfound.refusals] at hold
    exact (h.refused r hold).alters ha
  · have hmem := hfound.mem
    rw [hnew] at hmem
    -- the repairs before the refusal lead to the tree it was made in, those after it go on from there
    obtain ⟨hv, hdv⟩ := Document.step_of_repairs hd hrules
      (fun y hy => hmem y (List.mem_append_left _ hy)) (fun _ _ _ => trivial)
      (.refl (Workspace.sound_ofDocument hd.formed)) (.refl True p.document.root) hbefore
    obtain ⟨-, hrest⟩ := Document.step_of_repairs hd hrules
      (fun y hy => hmem y (List.mem_append_right _ (List.mem_cons_of_mem _ hy)))
      (fun _ _ _ => trivial) hv hdv hafter
    obtain ⟨hmemRule, hf⟩ := hmem (rule, r.finding) (List.mem_append_right _ List.mem_cons_self)
    refine ⟨rule, hmemRule, hid, repair, p.document, v, hrule, h.mending.alters,
      ⟨hd.formed, hf, hv, hdv⟩, herror, ?_⟩
    rw [show (e.repaired p).document = v'.document from hdocument']
    exact hrest

theorem Refusing.rounds (fix : Bool) (n : Nat) (h : e.Refusing d p) :
    e.Refusing d (e.rounds fix n p).1 := by
  refine rounds_induction (motive := fun p p' => e.Refusing d p → e.Refusing d p') (fun p h => ?_)
    (fun p h => ?_) (fun p h => h.repaired hdetect hrepair hrules)
    (fun p p' hrest h => hrest (h.repaired hdetect hrepair hrules)) fix n p h
  · exact ⟨⟨⟨h.mending.running.regular, h.mending.running.failures⟩, h.mending.alters,
      h.mending.mended⟩, h.refused⟩
  · refine ⟨h.mending.found hdetect, ?_⟩
    rw [(found_detected e p).document, (found_detected e p).refusals]
    exact h.refused

end Run

/-! ### What is left to repair -/

/-- After three rounds no finding comes too late. -/
theorem lateFindings_eq_nil (hdetect : ∀ rule k, e.faults.detect rule k = none)
    (hrules : e.rules ⊆ Rule.all) (hp : Running p) {n : Nat} (hn : 3 ≤ n) :
    e.lateFindings n p = [] := by
  obtain ⟨n, rfl⟩ : ∃ m, n = m + 3 := ⟨n - 3, by omega⟩
  obtain ⟨hrunning, hlate⟩ := repaired_late hdetect hrules hp
  obtain ⟨-, hall⟩ := repaired_quiet hdetect hrules hrunning hlate
  rw [lateFindings, lateFindings, lateFindings, if_pos (congrArg List.length (changes_quiet hall))]
  split_ifs <;> rfl

section Run

variable {path text : String} {d : Document} {n : Nat} {calls : Calls}
  (hgrammar : e.grammar.Suits path text)
  (hread : Document.read e.grammar path text = .ok d) (hrules : e.rules ⊆ Rule.all)
  (hdetect : ∀ rule k, e.faults.detect rule k = none)
  (hresolve : ∀ k, e.faults.resolve k = none)

include hgrammar hread hrules hdetect hresolve

/-- After the rounds, all that is found and could be repaired by its rule was refused, unless it came
too late. -/
theorem exists_refusal (hlate : ∀ g ∈ e.lateFindings n (.start d calls), g.key ≠ f.key)
    (hp : p = (e.rounds true n (.start d calls)).1) (hrule : rule ∈ e.rules) (hfix : rule.isFixable)
    (hf : f ∈ rule.detect (.ofDocument p.document) p.document.root.walk) :
    ∃ r ∈ p.refusals, r.rule = rule.id ∧ r.finding.key = f.key := by
  have hstart := Mending.start hgrammar hread calls
  have hmending := hstart.rounds hdetect hrules true n
  have hknows := rounds_knows hdetect hresolve true n (p := .start d calls) rfl
  have hbalanced := rounds_balanced hrules n (balanced_nil e [])
    (hp ▸ rounds_eq hresolve true n (.start d calls))
  rw [← hp] at hmending hknows
  -- the finding is known under its key, so it was settled, and not by a change
  obtain ⟨g, hg, hkey⟩ := knows_iff.1 (hknows rule hrule trivial f hf)
  have hid : g.rule = rule.id := (congrArg Prod.fst hkey).trans
    ((Rule.signs_of_mem_all rule (hrules hrule)).rule_eq hf)
  have hrepair : e.canRepair g := (canRepair_eq hrules hrule hid).trans hfix
  have hnot : g ∉ e.lateFindings n (.start d calls) := fun hg => hlate g hg hkey
  have hsettled : (g.rule, g) ∈ p.settled := hbalanced.settled.mem_iff.2
    (List.mem_map.2 ⟨g, List.mem_filter.2 ⟨hg, by simp [hrepair, hnot]⟩, rfl⟩)
  rcases List.mem_append.1 hsettled with hchange | hrefusal
  · obtain ⟨c, hc, he⟩ := List.mem_map.1 hchange
    have hne := (hmending.mended c hc).key_ne hgrammar hread hrules hmending.alters hrule hf
    exact absurd (hkey.symm.trans (congrArg (·.2.key) he).symm) hne
  · obtain ⟨r, hr, he⟩ := List.mem_map.1 hrefusal
    exact ⟨r, hr, (congrArg Prod.fst he).trans hid, (congrArg (·.2.key) he).trans hkey⟩

omit hgrammar hread hdetect in
/-- Nothing is refused twice. -/
theorem nodup_refusals (hp : p = (e.rounds true n (.start d calls)).1) :
    (p.refusals.map (·.finding.key)).Nodup := by
  have hdistinct := (rounds_balanced hrules n (balanced_nil e [])
    (hp ▸ rounds_eq hresolve true n (.start d calls))).distinct
  rw [Progress.settled, settledBy, List.map_append, List.map_map, List.map_map] at hdistinct
  exact hdistinct.of_append_right

variable (hrepair : ∀ rule k, e.faults.repair rule k = none)

include hrepair

/-- A repair that can be made after the rounds was refused in them, unless it is for a finding that
came too late, and it is a key or a new name for a component. -/
theorem refusal_of_repair (hlate : ∀ g ∈ e.lateFindings n (.start d calls), g.key ≠ f.key)
    (hp : p = (e.rounds true n (.start d calls)).1) {repair : Repair} {w' : Workspace} {c : Change}
    (hrule : rule ∈ e.rules) (hr : rule.repair? = some repair) (h : rule.Offered p.document w f)
    (hok : repair w f = .ok (c, w')) :
    (rule = Rule.missingKey ∨ rule = Rule.componentNaming) ∧
      ∃ r ∈ p.refusals, r.rule = rule.id ∧ r.finding.key = f.key := by
  have hstart : e.Refusing d (.start d calls) :=
    ⟨.start hgrammar hread calls, fun r hr => by cases hr⟩
  have hrefusing := hstart.rounds hdetect hrepair hrules true n
  rw [← hp] at hrefusing
  have hfix := Rule.isFixable_of_repair? hr
  obtain ⟨r, hrmem, hid, hkey⟩ :=
    exists_refusal hgrammar hread hrules hdetect hresolve hlate hp hrule hfix h.found
  refine ⟨?_, r, hrmem, hid, hkey⟩
  obtain ⟨other, hother, hid', repair', d', v, hr', hd', hoffered, herror, ha⟩ :=
    hrefusing.refused r hrmem
  obtain rfl := Rule.id_inj (hrules hrule) (hrules hother) (hid.symm.trans hid')
  cases hr.symm.trans hr'
  by_contra hneither
  rw [not_or] at hneither
  -- the refusal would have been for a reason that the repairs after it left in the tree
  have hnode := node_eq_of_key_eq hgrammar hread (hrules hrule) hfix hrefusing.mending.alters hd'
    h.found hoffered.found hkey.symm
  obtain ⟨result, hresult⟩ := Rule.repairable_of_alters (hrules hrule) hr hneither.1 hneither.2
    hoffered h (ha.trans h.alters) hnode hok
  rw [herror] at hresult
  cases hresult

end Run

/-! ### The second run -/

/-- The findings that repairs were made for, without the others. -/
theorem Repairs.exists_made {w' : Workspace} {changes : List Change}
    (h : Repairs w new changes w') : ∃ made, Repairs w made changes w' ∧ ∀ x ∈ made, x ∈ new ∧
      ∃ c ∈ changes, ∃ repair v v', x.1.repair? = some repair ∧ repair v x.2 = .ok (c, v') := by
  induction h with
  | nil w => exact ⟨[], .nil w, fun x hx => by cases hx⟩
  | skip x _ ih =>
    obtain ⟨made, hmade, hof⟩ := ih
    exact ⟨made, hmade, fun y hy => ⟨List.mem_cons_of_mem _ (hof y hy).1, (hof y hy).2⟩⟩
  | @repair w w' w'' new changes rule f repair change hr hok _ ih =>
    obtain ⟨made, hmade, hof⟩ := ih
    refine ⟨(rule, f) :: made, .repair hr hok hmade, fun y hy => ?_⟩
    rcases List.mem_cons.1 hy with rfl | hy
    · exact ⟨List.mem_cons_self, change, List.mem_cons_self, repair, w, w', hr, hok⟩
    · obtain ⟨hnew, c, hc, hc'⟩ := hof y hy
      exact ⟨List.mem_cons_of_mem _ hnew, c, List.mem_cons_of_mem _ hc, hc'⟩

section Run

variable {path text : String} {d : Document} {n : Nat} {calls calls' : Calls} {q : Progress}
  (hgrammar : e.grammar.Suits path text)
  (hread : Document.read e.grammar path text = .ok d) (hrules : e.rules ⊆ Rule.all)
  (hdetect : ∀ rule k, e.faults.detect rule k = none)
  (hrepair : ∀ rule k, e.faults.repair rule k = none)
  (hresolve : ∀ k, e.faults.resolve k = none)

include hgrammar hread hrules hdetect hrepair hresolve

/-- The first round of a second run makes only changes that the first run was refused, and they are
keys and new names for components. After it nothing is left to find. -/
theorem repaired_again (hn : 3 ≤ n) (hp : p = (e.rounds true n (.start d calls)).1)
    (hq : q = e.repaired (.start p.document calls')) :
    (∀ c ∈ q.changes, (c.rule = Rule.missingKey.id ∨ c.rule = Rule.componentNaming.id) ∧
      ∃ r ∈ p.refusals, r.rule = c.rule ∧ r.finding.key = c.finding.key) ∧
    e.Knows (fun _ => True) q := by
  have hmending := (Mending.start hgrammar hread calls).rounds hdetect hrules true n
  rw [← hp] at hmending
  have hd := hmending.running.regular
  have hlate : ∀ g, g ∉ e.lateFindings n (.start d calls) := by
    rw [lateFindings_eq_nil hdetect hrules (Mending.start hgrammar hread calls).running hn]
    exact fun _ => List.not_mem_nil
  have hfound := (found_detected e (.start p.document calls')).mem
  obtain ⟨changes, w', hr, hdocument, hc, -⟩ := repaired_repairs e (.start p.document calls')
  have hchanges : ∀ c ∈ changes, (c.rule = Rule.missingKey.id ∨
      c.rule = Rule.componentNaming.id) ∧
        ∃ r ∈ p.refusals, r.rule = c.rule ∧ r.finding.key = c.finding.key := by
    intro c hmem
    obtain ⟨before, x, after, repair, earlier, later, v, v', hnew, hbefore, hrule, hok, -⟩ :=
      hr.split hmem
    rw [hnew] at hfound
    obtain ⟨hx, hf⟩ := hfound x (List.mem_append_right _ List.mem_cons_self)
    obtain ⟨hv, hdv⟩ := Document.step_of_repairs hd hrules
      (fun y hy => hfound y (List.mem_append_left _ hy)) (fun _ _ _ => trivial)
      (.refl (Workspace.sound_ofDocument hd.formed)) (.refl True p.document.root) hbefore
    obtain ⟨hid, hfinding⟩ := (Rule.signs_of_mem_all x.1 (hrules hx)).change_eq hrule hok
    obtain ⟨hwhich, r, hrefused, hrid, hkey⟩ := refusal_of_repair hgrammar hread hrules hdetect
      hresolve hrepair (fun g hg => absurd hg (hlate g)) hp hx hrule ⟨hd.formed, hf, hv, hdv⟩ hok
    rw [hid, hfinding]
    exact ⟨hwhich.imp (fun h => by rw [h]) (fun h => by rw [h]), r, hrefused, hrid, hkey⟩
  subst hq
  refine ⟨fun c hmem => hchanges c ?_, ?_⟩
  · rw [hc] at hmem
    exact hmem
  · -- no braces went, so no element lost its content
    obtain ⟨made, hmade, hof⟩ := hr.exists_made
    have hcuts : ∀ x ∈ made, x.1 = Rule.emptyExpression → False := by
      intro x hx he
      obtain ⟨hnew, c, hmem, repair, v, v', hrule, hok⟩ := hof x hx
      have hid := ((Rule.signs_of_mem_all x.1 (hrules (hfound x hnew).1)).change_eq hrule hok).1
      rw [he] at hid
      rcases (hchanges c hmem).1 with h | h <;> exact absurd (hid.symm.trans h) (by decide)
    have hrunning : Running (.start p.document calls') := ⟨hd, rfl⟩
    have hknows := (repaired_knows_of_repairs hdetect hrules hrunning (fun x hx => (hof x hx).1)
      hmade hdocument hcuts).2
    exact fun rule hrule _ => hknows rule hrule fun _ => not_false

/-- A second run on the tree that a run of three rounds or more left changes only what the first run
was refused, and of this only keys and new names for components, for which a later repair of the
first run can have made room. If none of these was refused, it changes nothing. -/
theorem rounds_again (hn : 3 ≤ n) (m : Nat) (hp : p = (e.rounds true n (.start d calls)).1)
    (hq : q = (e.rounds true m (.start p.document calls')).1) :
    (∀ c ∈ q.changes, (c.rule = Rule.missingKey.id ∨ c.rule = Rule.componentNaming.id) ∧
      ∃ r ∈ p.refusals, r.rule = c.rule ∧ r.finding.key = c.finding.key) ∧
    ((∀ r ∈ p.refusals, r.rule ≠ Rule.missingKey.id ∧ r.rule ≠ Rule.componentNaming.id) →
      q.changes = [] ∧ q.document = p.document) := by
  generalize hs : Progress.start p.document calls' = s at hq
  have hbegin : s.changes = [] ∧ s.document = p.document := hs ▸ ⟨rfl, rfl⟩
  have hagain := repaired_again hgrammar hread hrules hdetect hrepair hresolve hn hp
    (congrArg e.repaired hs.symm)
  obtain ⟨hchanges, hknows⟩ := hagain
  cases m with
  | zero =>
    rw [rounds_zero (hresolve _)] at hq
    have hnone : q.changes = [] := by rw [hq, (found_detected e s).changes, hbegin.1]
    refine ⟨fun c hc => ?_, fun _ => ⟨hnone, ?_⟩⟩
    · rw [hnone] at hc
      cases hc
    · rw [hq, (found_detected e s).document, hbegin.2]
  | succ m =>
    rw [rounds_succ (hresolve _)] at hq
    have hsame : q.changes = (e.repaired s).changes := by
      rw [hq]
      split_ifs
      · rfl
      · -- in the rounds after the first nothing is new
        cases m with
        | zero => exact rounds_zero_changes e _
        | succ m => exact (rounds_quiet hknows m).2
    refine ⟨hsame ▸ hchanges, fun hrefusals => ?_⟩
    have hnone : (e.repaired s).changes = [] := by
      refine List.eq_nil_iff_forall_not_mem.2 fun c hc => ?_
      obtain ⟨hwhich, r, hr, hid, -⟩ := hchanges c hc
      rw [← hid] at hwhich
      exact hwhich.elim (hrefusals r hr).1 (hrefusals r hr).2
    have hlength : (e.repaired s).changes.length = s.changes.length := by rw [hnone, hbegin.1]
    rw [if_pos hlength] at hq
    exact ⟨hsame.trans hnone, by rw [hq, document_of_changes hlength, hbegin.2]⟩

end Run

end Engine

/-! ### A list in which the name for the index is taken -/

namespace Concrete

/-- The tree of `const index = () => <b />;` and `items.map(x => <i>\x7bindex()\x7d</i>);` on two
lines. -/
def takenList : Concrete :=
  rule "program" 0 61 none
    [rule "lexical_declaration" 0 26 none
      [token "const" 0 5,
        rule "variable_declarator" 6 25 none
          [rule "identifier" 6 11 (some "name") [], token "=" 12 13,
            rule "arrow_function" 14 25 (some "value")
              [rule "formal_parameters" 14 16 (some "parameters") [token "(" 14 15, token ")" 15 16],
                token "=>" 17 19,
                rule "jsx_self_closing_element" 20 25 (some "body")
                  [token "<" 20 21, rule "identifier" 21 22 (some "name") [], token "/>" 23 25]]],
        token ";" 25 26],
      rule "expression_statement" 27 60 none
        [rule "call_expression" 27 59 none
          [rule "member_expression" 27 36 (some "function")
              [rule "identifier" 27 32 (some "object") [], token "." 32 33,
                rule "property_identifier" 33 36 (some "property") []],
            rule "arguments" 36 59 (some "arguments")
              [token "(" 36 37,
                rule "arrow_function" 37 58 none
                  [rule "identifier" 37 38 (some "parameter") [], token "=>" 39 41,
                    rule "jsx_element" 42 58 (some "body")
                      [rule "jsx_opening_element" 42 45 (some "open_tag")
                          [token "<" 42 43, rule "identifier" 43 44 (some "name") [],
                            token ">" 44 45],
                        rule "jsx_expression" 45 54 none
                          [token "\x7b" 45 46,
                            rule "call_expression" 46 53 none
                              [rule "identifier" 46 51 (some "function") [],
                                rule "arguments" 51 53 (some "arguments")
                                  [token "(" 51 52, token ")" 52 53]],
                            token "\x7d" 53 54],
                        rule "jsx_closing_element" 54 58 (some "close_tag")
                          [token "</" 54 56, rule "identifier" 56 57 (some "name") [],
                            token ">" 57 58]]],
                token ")" 58 59]],
          token ";" 59 60]]

end Concrete

namespace Engine

/-- All rules at work on `Concrete.takenList`. -/
def taken : Engine :=
  ⟨Rule.all, fun _ _ => Concrete.takenList, .none, true, 3⟩

/-- The text of `Concrete.takenList`. -/
def takenText : String :=
  "const index = () => <b />;\nitems.map(x => <i>\x7bindex()\x7d</i>);\n"

/-- A key is refused while the name for the index is that of a component. The first run gives the
component another name after that, and the second one puts in the key. -/
theorem taken_again : ∃ d p q, Document.read taken.grammar "A.jsx" takenText = .ok d ∧
    p = (taken.rounds true 3 (.start d .none)).1 ∧
    q = (taken.rounds true 3 (.start p.document .none)).1 ∧
    p.changes.map (·.rule) = ["component-naming"] ∧ p.refusals.map (·.rule) = ["missing-key"] ∧
    q.changes.map (·.rule) = ["missing-key"] ∧
    ∀ c ∈ q.changes, ∃ r ∈ p.refusals, r.rule = c.rule ∧ r.finding.key = c.finding.key := by
  have hruns : (Document.read taken.grammar "A.jsx" takenText).map (fun d =>
      let p := (taken.rounds true 3 (.start d .none)).1
      let q := (taken.rounds true 3 (.start p.document .none)).1
      (p.changes.map (·.rule), p.refusals.map (·.rule), q.changes.map (·.rule))) =
        .ok (["component-naming"], ["missing-key"], ["missing-key"]) := by decide +kernel
  obtain ⟨d, hd, hrules⟩ := Reading.map_eq_ok.1 hruns
  have hsuits : taken.grammar.Suits "A.jsx" takenText :=
    ⟨by decide +kernel, by decide +kernel, by decide +kernel, by decide +kernel, by decide +kernel⟩
  simp only [Prod.mk.injEq] at hrules
  generalize hp : (taken.rounds true 3 (.start d .none)).1 = p at hrules
  generalize hq : (taken.rounds true 3 (.start p.document .none)).1 = q at hrules
  have h := rounds_again hsuits hd (List.Subset.refl _) (fun _ _ => rfl) (fun _ _ => rfl)
    (fun _ => rfl) (Nat.le_refl 3) 3 hp.symm hq.symm
  exact ⟨d, p, q, hd, hp.symm, hq.symm, hrules.1, hrules.2.1, hrules.2.2, fun c hc => (h.1 c hc).2⟩

end Engine
end JsxLint
