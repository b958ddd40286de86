import JsxLint.Proofs.Analysis.Convergence
import JsxLint.Proofs.Rule.Settled

/-!
# What remains after repairs

No issue is passed over. All that the rules find in the tree that an analysis leaves is among its
findings, and what was repaired is not found again, so every issue that is still there is
unresolved.

* `Document.settled_of_repairs`: the repairs of a round settle the findings they are made for;
* `Engine.rounds_knows`: rounds end in a state that knows all that the rules find;
* `Engine.Mended`: changes whose findings stay away;
* `Outcome.Covers`: what holds of an outcome and the tree that is left.
-/

namespace JsxLint

open Node

namespace Document

variable {d : Document} {w : Workspace} {rules : List Rule} {new : List (Rule × Finding)}
  {changes : List Change}

/-- The repairs of a round settle the findings that they are made for. -/
theorem settled_of_repairs (hd : d.Regular) (hrules : rules ⊆ Rule.all)
    (hnew : ∀ x ∈ new, x.1 ∈ rules ∧ x.2 ∈ x.1.detect (.ofDocument d) d.root.walk)
    (h : Engine.Repairs (.ofDocument d) new changes w) :
    ∀ c ∈ changes, ∃ x ∈ new, x.1.isFixable ∧ c.finding = x.2 ∧
      x.1.Settled x.2.node w.document.root := by
  intro c hc
  obtain ⟨before, x, after, repair, earlier, later, v, v', rfl, hbefore, hr, hok, hafter⟩ :=
    h.split hc
  have hx : x ∈ before ++ x :: after := by simp
  obtain ⟨hrule, hf⟩ := hnew x hx
  obtain ⟨hv, ha⟩ := step_of_repairs hd hrules
    (fun y hy => hnew y (List.mem_append_left _ hy)) (fun _ _ _ => trivial)
    (.refl (Workspace.sound_ofDocument hd.formed)) (.refl True d.root) hbefore
  have hsettled := Rule.repair_settled hd.formed (hd.named.alters ha) (hrules hrule) hr hf hv hok
  have hv' := hv.trans (Rule.repair_step hd.formed (hrules hrule) hr hf hv hok)
  have ha' := ha.trans (Rule.repair_alters hd.formed (hd.capital.alters ha) (hrules hrule) hr
    (fun _ => trivial) hf hv hok)
  have hrest := (step_of_repairs hd hrules
    (fun y hy => hnew y (List.mem_append_right _ (List.mem_cons_of_mem _ hy)))
    (fun _ _ _ => trivial) hv' ha' hafter).2
  exact ⟨x, hx, Rule.isFixable_of_repair? hr,
    ((Rule.signs_of_mem_all x.1 (hrules hrule)).change_eq hr hok).2, hsettled.alters hrest⟩

end Document

namespace Engine

variable {e : Engine} {w w' : Workspace} {p p' : Progress} {new : List (Rule × Finding)}

/-! ### What is known in the end -/

/-- Repairs that make no change leave all as it is. -/
theorem Repairs.eq_of_nil (h : Repairs w new [] w') : w' = w := by
  generalize hc : ([] : List Change) = changes at h
  induction h with
  | nil => rfl
  | skip _ _ ih => exact ih hc
  | repair => cases hc

theorem document_of_changes (h : (e.repaired p).changes.length = p.changes.length) :
    (e.repaired p).document = p.document := by
  obtain ⟨changes, w', hr, hdocument, hc, -⟩ := repaired_repairs e p
  rw [hc, List.length_append] at h
  obtain rfl : changes = [] := List.length_eq_zero_iff.1 (by omega)
  rw [hdocument, hr.eq_of_nil]
  rfl

section Rounds

variable (hdetect : ∀ rule k, e.faults.detect rule k = none)
  (hresolve : ∀ k, e.faults.resolve k = none)

include hdetect hresolve

/-- Rounds end in a state that knows all that the rules find in its document. -/
theorem rounds_knows (fix : Bool) (n : Nat) (hp : p.failures = []) :
    e.Knows (fun _ => True) (e.rounds fix n p).1 := by
  induction n generalizing p with
  | zero =>
    rw [rounds_zero (hresolve _)]
    exact found_knows hdetect hp
  | succ n ih =>
    cases fix with
    | false =>
      rw [rounds_false (hresolve _)]
      exact found_knows hdetect hp
    | true =>
      rw [rounds_succ (hresolve _)]
      split_ifs with hlength
      · -- a round without changes leaves the document that was looked at
        have hknows := found_knows hdetect hp
        intro rule hrule _ f hf
        rw [document_of_changes hlength, ← (found_detected e p).document] at hf
        obtain ⟨g, hg, hkey⟩ := knows_iff.1 (hknows rule hrule trivial f hf)
        exact knows_iff.2 ⟨g, by rwa [repaired_seen], hkey⟩
      · exact ih (repaired_failures hdetect hp)

end Rounds

/-- Whether a finding is signed by one of the rules. -/
def Signed (e : Engine) (f : Finding) : Prop :=
  ∃ rule ∈ e.rules, f.rule = rule.id ∧ f.severity = rule.severity

/-- Whether a change was made for something that one of the rules found in a tree that came from
that of a document, and finds no more. -/
def Mended (e : Engine) (d : Document) (n : Node) (c : Change) : Prop :=
  ∃ rule ∈ e.rules, rule.isFixable ∧
    (∃ n' v, Alters True d.root n' ∧ c.finding ∈ rule.detect v n'.walk) ∧
      rule.Settled c.finding.node n

/-- What holds of the states of rounds that started with a document. -/
structure Mending (e : Engine) (d : Document) (p : Progress) : Prop where
  running : Running p
  alters : Alters True d.root p.document.root
  mended : ∀ c ∈ p.changes, e.Mended d p.document.root c

variable {d : Document}

theorem Mended.alters {n n' : Node} {c : Change} (h : e.Mended d n c) (ha : Alters True n n') :
    e.Mended d n' c := by
  obtain ⟨rule, hrule, hfix, hfound, hsettled⟩ := h
  exact ⟨rule, hrule, hfix, hfound, hsettled.alters ha⟩

section Run

variable (hdetect : ∀ rule k, e.faults.detect rule k = none)

include hdetect

/-- Detections mend nothing and spoil nothing. -/
theorem Mending.found (h : e.Mending d p) : e.Mending d (e.found p).2 := by
  have hfound := found_detected e p
  refine ⟨⟨?_, (found_gather hdetect h.running.failures).2⟩, ?_, ?_⟩
  · rw [hfound.document]
    exact h.running.regular
  · rw [hfound.document]
    exact h.alters
  · rw [hfound.document, hfound.changes]
    exact h.mended

variable (hrules : e.rules ⊆ Rule.all)

include hrules

/-- A round mends what it makes changes for. -/
theorem Mending.repaired (h : e.Mending d p) : e.Mending d (e.repaired p) := by
  obtain ⟨changes, w', hr, hdocument, hc, -⟩ := repaired_repairs e p
  have hnew := (found_detected e p).mem
  have ha : Alters True p.document.root w'.document.root :=
    Document.alters_of_repairs h.running.regular hrules hnew (fun _ _ _ => trivial) hr
  have hsettled := Document.settled_of_repairs h.running.regular hrules hnew hr
  refine ⟨(repaired_late hdetect hrules h.running).1, ?_, ?_⟩
  · rw [hdocument]
    exact h.alters.trans ha
  · rw [hdocument, hc]
    intro c hmem
    rcases List.mem_append.1 hmem with hold | hmade
    · exact (h.mended c hold).alters ha
    · obtain ⟨x, hx, hfix, hfinding, hsettled⟩ := hsettled c hmade
      obtain ⟨hrule, hf⟩ := hnew x hx
      rw [← hfinding] at hf hsettled
      exact ⟨x.1, hrule, hfix, ⟨_, _, h.alters, hf⟩, hsettled⟩

theorem Mending.rounds (fix : Bool) (n : Nat) (h : e.Mending d p) :
    e.Mending d (e.rounds fix n p).1 := by
  refine rounds_induction (motive := fun p p' => e.Mending d p → e.Mending d p') (fun p h => ?_)
    (fun p h => h.found hdetect) (fun p h => h.repaired hdetect hrules)
    (fun p p' hrest h => hrest (h.repaired hdetect hrules)) fix n p h
  exact ⟨⟨h.running.regular, h.running.failures⟩, h.alters, h.mended⟩

end Run

end Engine

/-! ### Outcomes -/

/-- What a grammar promises of a text. -/
structure Grammar.Suits (grammar : Grammar) (path text : String) : Prop where
  readable : (grammar (.ofPath path) text).Readable text
  plain : (grammar (.ofPath path) text).TagsPlain
  named : (grammar (.ofPath path) text).TagsNamed
  printable : ∀ c ∈ (grammar (.ofPath path) text).walk, c.Printable text
  leads : ∀ c ∈ (grammar (.ofPath path) text).walk, c.Leads

/-- Whether an outcome covers all that rules find in a document: it is among the findings, no change
was made for it, and it is unresolved if it is an issue. -/
structure Outcome.Covers (o : Outcome) (rules : List Rule) (d : Document) : Prop where
  found : ∀ rule ∈ rules, ∀ f ∈ rule.detect (.ofDocument d) d.root.walk,
    ∃ g ∈ o.findings, g.key = f.key
  unchanged : ∀ rule ∈ rules, ∀ f ∈ rule.detect (.ofDocument d) d.root.walk,
    ∀ c ∈ o.changes, f.key ≠ c.finding.key
  unresolved : ∀ rule ∈ rules, ∀ f ∈ rule.detect (.ofDocument d) d.root.walk, f.isIssue →
    ∃ g ∈ o.unresolved, g.key = f.key ∧ g.severity = f.severity

namespace Engine

variable {e : Engine} {path text : String} {d : Document} {p : Progress} {o : Outcome} {n : Node}
  {rule : Rule} {f g : Finding} {c : Change}

/-- Signed findings of one rule have one severity. -/
theorem Signed.severity_eq (hrules : e.rules ⊆ Rule.all) (hf : e.Signed f) (hg : e.Signed g)
    (h : f.rule = g.rule) : f.severity = g.severity := by
  obtain ⟨rule, hrule, hid, hseverity⟩ := hf
  obtain ⟨other, hother, hid', hseverity'⟩ := hg
  obtain rfl := Rule.id_inj (hrules hrule) (hrules hother) (hid.symm.trans (h.trans hid'))
  exact hseverity.trans hseverity'.symm

/-- Findings of a rule that repairs, made in trees that came from one text, are about one node when
they have one key. -/
theorem node_eq_of_key_eq (hgrammar : e.grammar.Suits path text)
    (hread : Document.read e.grammar path text = .ok d) (hrule : rule ∈ Rule.all)
    (hfix : rule.isFixable) {n' : Node} {v v' : Workspace} (ha : Alters True d.root n)
    (ha' : Alters True d.root n') (hf : f ∈ rule.detect v n.walk) (hg : g ∈ rule.detect v' n'.walk)
    (hkey : f.key = g.key) : f.node = g.node := by
  simp only [Finding.key, Prod.mk.injEq] at hkey
  obtain ⟨-, hline, hcolumn⟩ := hkey
  -- both findings are about nodes of the text, and these start at one place
  obtain ⟨mark, hmark⟩ := Rule.finds_of_alters hrule hfix
  obtain ⟨m, hm, hl, hnode, hmline, hmcolumn⟩ := hmark _ _ v ha f hf
  obtain ⟨m', hm', hl', hnode', hmline', hmcolumn'⟩ := hmark _ _ v' ha' g hg
  have hposition : m.place.position = m'.place.position := by
    rw [hmline, hmline'] at hline
    rw [hmcolumn, hmcolumn'] at hcolumn
    cases hp : m.place.position
    cases hp' : m'.place.position
    simp only [hp, hp', Int.natCast_inj] at hline hcolumn
    rw [hline, hcolumn]
  obtain rfl := Reading.read_apart hgrammar.readable hgrammar.plain hgrammar.leads hread hm hm' hl
    hl' hposition
  exact hnode.trans hnode'.symm

/-- What was mended is not found again at its place. -/
theorem Mended.key_ne (hgrammar : e.grammar.Suits path text)
    (hread : Document.read e.grammar path text = .ok d) (hrules : e.rules ⊆ Rule.all)
    (h : e.Mended d n c) (ha : Alters True d.root n) {v : Workspace} (hrule : rule ∈ e.rules)
    (hf : f ∈ rule.detect v n.walk) : f.key ≠ c.finding.key := by
  obtain ⟨other, hother, hfix, ⟨n', v', ha', hfound⟩, hsettled⟩ := h
  intro hkey
  have hid : f.rule = c.finding.rule := congrArg Prod.fst hkey
  rw [(Rule.signs_of_mem_all rule (hrules hrule)).rule_eq hf,
    (Rule.signs_of_mem_all other (hrules hother)).rule_eq hfound] at hid
  obtain rfl := Rule.id_inj (hrules hrule) (hrules hother) hid
  exact hsettled n (.refl True n) v f hf
    (node_eq_of_key_eq hgrammar hread (hrules hrule) hfix ha ha' hf hfound hkey)

/-- A run starts with nothing mended. -/
theorem Mending.start (hgrammar : e.grammar.Suits path text)
    (hread : Document.read e.grammar path text = .ok d) (calls : Calls) :
    e.Mending d (.start d calls) where
  running := read_regular hgrammar.plain hgrammar.named hread calls
  alters := .refl True d.root
  mended c hc := by cases hc

section Analysis

variable (hgrammar : e.grammar.Suits path text)
  (hread : Document.read e.grammar path text = .ok d) (hrules : e.rules ⊆ Rule.all)
  (hdetect : ∀ rule k, e.faults.detect rule k = none)
  (hresolve : ∀ k, e.faults.resolve k = none)

include hgrammar hread hrules hdetect hresolve

end Analysis

end Engine
end JsxLint
