import JsxLint.Proofs.Rule.Alteration
import JsxLint.Proofs.Rule.Detection

/-!
# What rules find again

What a rule finds in a document after repairs it found there before, by node and place, but for void
elements that lost their content.

* `Node.Holds`: names in braces that are content of an element or a fragment;
* `Rule.Repeats`: a rule finds nothing in a document that it did not find in another one;
* `Rule.repeats_of_alters`: the rules find nothing new after repairs.
-/

namespace JsxLint

open Node

namespace Node

variable {cuts : Prop} {n n' braces braces' expression expression' : Node}

/-- Whether braces in the content of an element or a fragment hold a name. -/
def Holds (n braces expression : Node) : Prop :=
  ∃ m ∈ n.walk, m.label.isMarkup ∧ braces ∈ m.children ∧
    (∃ hasComment, braces.label = .container hasComment) ∧
      braces.children.head? = some expression ∧ expression.label.isIdentifier

theorem Holds.expression_mem (h : n.Holds braces expression) :
    expression ∈ n.walk ∧ expression.label.isIdentifier :=
  let ⟨_, hm, _, hb, _, he, hi⟩ := h
  ⟨mem_walk_trans (mem_walk_of_child hb (child_mem_walk (List.mem_of_mem_head? he))) hm, hi⟩

/-- The braces with names of an altered tree were there before. -/
theorem Holds.of_altered (h : n'.Holds braces' expression') (ha : Altered cuts n n') :
    ∃ braces expression, n.Holds braces expression ∧ braces.id = braces'.id ∧
      braces.place = braces'.place ∧ expression.id = expression'.id := by
  obtain ⟨m', hm', hmarkup, hb', ⟨hasComment, hl'⟩, he', hi⟩ := h
  rcases ha.mem_walk hm' with ⟨m, hm, hmm⟩ | ⟨k, hk, hmk⟩
  · have hmarkup : m.label.isMarkup := by
      rwa [Rule.isMarkup_iff, ← hmm.keeps.form, ← Rule.isMarkup_iff]
    rcases hmm.mem_children hb' with ⟨braces, hb, hbb⟩ | hinert
    · have hl := hbb.label_eq hl' rfl
      have hh := Altered.head? (hbb.around (by rw [hl]; exact Bool.false_ne_true)).2
      rw [he'] at hh
      cases he : braces.children.head? with
      | none => rw [he] at hh; cases hh
      | some expression =>
        rw [he] at hh
        have hee := (Option.rel_some_some.1 hh).keeps
        rw [Label.isIdentifier_iff, hee.form, ← Label.isIdentifier_iff] at hi
        exact ⟨braces, expression, ⟨m, hm, hmarkup, hb, ⟨hasComment, hl⟩, he, hi⟩, hbb.keeps.id.symm,
          hbb.place.symm, hee.id.symm⟩
    · cases hinert <;> cases hl'
  · exact absurd hmarkup (hk.forall_walk (P := fun m => ¬m.label.isMarkup)
      (by intros; exact Bool.false_ne_true) (by intros; exact Bool.false_ne_true)
      (by intros; exact Bool.false_ne_true) (by intros; exact Bool.false_ne_true) m' hmk)

theorem Holds.of_alters (h : n'.Holds braces' expression') (ha : Alters cuts n n') :
    ∃ braces expression, n.Holds braces expression ∧ braces.id = braces'.id ∧
      braces.place = braces'.place ∧ expression.id = expression'.id := by
  induction ha generalizing braces' expression' with
  | refl => exact ⟨braces', expression', h, rfl, rfl, rfl⟩
  | tail _ hstep ih =>
    obtain ⟨b, e, hbe, hid, hplace, heid⟩ := h.of_altered hstep
    obtain ⟨b', e', hbe', hid', hplace', heid'⟩ := ih hbe
    exact ⟨b', e', hbe', hid'.trans hid, hplace'.trans hplace, heid'.trans heid⟩

end Node

namespace Rule

variable {cuts : Prop} {rule : Rule} {d d' : Document} {n n' : Node} {f : Finding}

/-! ### Names in braces -/

/-- The names in braces that are reported are those in content that refer to something. -/
theorem mem_safeInterpolation (h : d.WellFormed) :
    f ∈ safeInterpolation.detect (.ofDocument d) d.root.walk ↔ ∃ braces expression,
      d.root.Holds braces expression ∧
        ((ScopeTable.resolve d.root).bindingOf? expression.id).isSome ∧
        f = safeInterpolation.report (.ofDocument d) braces (some expression.text) := by
  constructor
  · intro hf
    obtain ⟨m, hm, hf⟩ := List.mem_filterMap.1 hf
    dsimp only at hf
    split at hf
    · next hasComment expression hl he =>
      split_ifs at hf with hfound
      cases hf
      simp only [Bool.and_eq_true] at hfound
      obtain ⟨⟨hi, hmarkup⟩, hbound⟩ := hfound
      refine ⟨m, expression, ?_, hbound, rfl⟩
      cases hp : m.parent.bind d.node? with
      | none =>
        rw [show (Workspace.ofDocument d).document = d from rfl, hp] at hmarkup
        cases hmarkup
      | some p =>
        rw [show (Workspace.ofDocument d).document = d from rfl, hp] at hmarkup
        obtain ⟨i, hparent, hp⟩ := Option.bind_eq_some_iff.1 hp
        have hmarkup : p.label.isMarkup := hmarkup
        have hpw := h.mem_walk_of_node? hp (Label.not_isIdle_of_isMarkup hmarkup)
        rw [← (h.mem_or_idle hp).1] at hparent
        exact ⟨p, hpw, hmarkup, h.mem_children hm hpw hparent, ⟨hasComment, hl⟩, he, hi⟩
    · cases hf
  · rintro ⟨braces, expression, ⟨m, hm, hmarkup, hb, ⟨hasComment, hl⟩, he, hi⟩, hbound, rfl⟩
    refine List.mem_filterMap.2 ⟨braces, mem_walk_trans (child_mem_walk hb) hm, ?_⟩
    have hparent : (braces.parent.bind (Workspace.ofDocument d).document.node?).map
        (·.label.isMarkup) = some true := by
      rw [h.root.linked m hm braces hb]
      exact congrArg (Option.map _) (h.node?_eq hm) |>.trans (congrArg some hmarkup)
    dsimp only
    rw [hl, he]
    dsimp only
    refine if_pos ?_
    rw [Bool.and_eq_true, Bool.and_eq_true]
    exact ⟨⟨hi, congrArg (·.getD false) hparent⟩, hbound⟩

/-! ### All rules -/

/-- Whether all that a rule finds in a document it found in another one, by node and place. -/
def Repeats (rule : Rule) (d d' : Document) : Prop :=
  ∀ f' ∈ rule.detect (.ofDocument d') d'.root.walk,
    ∃ f ∈ rule.detect (.ofDocument d) d.root.walk, f.spot = f'.spot

theorem covers_alters (hrule : rule ∈ all) (hscopes : rule ≠ safeInterpolation)
    (hcuts : rule = selfClosingTag → ¬cuts) (h : Alters cuts n n') : rule.Covers n n' := by
  induction h with
  | refl => exact covers_altered hrule hscopes hcuts (.refl cuts n)
  | tail _ hstep ih => exact ih.trans (covers_altered hrule hscopes hcuts hstep)

/-- After repairs a rule finds nothing new, but for void elements that lost their content. -/
theorem repeats_of_alters (hrule : rule ∈ all) (hcuts : rule = selfClosingTag → ¬cuts)
    (hd : d.WellFormed) (hd' : d'.WellFormed) (ha : Alters cuts d.root d'.root)
    (hbound : ∀ m ∈ d'.root.walk, m.label.isIdentifier → m.id < d.fresh →
      ((ScopeTable.resolve d'.root).bindingOf? m.id).isSome →
        ((ScopeTable.resolve d.root).bindingOf? m.id).isSome) : rule.Repeats d d' := by
  by_cases hscopes : rule = safeInterpolation
  · subst hscopes
    intro f' hf'
    obtain ⟨braces', expression', hholds', hbound', rfl⟩ := (mem_safeInterpolation hd').1 hf'
    obtain ⟨braces, expression, hholds, hid, hplace, heid⟩ := hholds'.of_alters ha
    obtain ⟨hw, -⟩ := hholds.expression_mem
    obtain ⟨hw', hi'⟩ := hholds'.expression_mem
    have hlt := hd.root.lt_fresh _ (id_mem_ids hw)
    refine ⟨_, (mem_safeInterpolation hd).2 ⟨braces, expression, hholds, ?_, rfl⟩, ?_⟩
    · exact heid ▸ hbound expression' hw' hi' (heid ▸ hlt) hbound'
    · rw [Finding.spot, Finding.spot, Finding.key, Finding.key, RuleInfo.report, RuleInfo.report,
        hid, hplace]
  · exact covers_alters hrule hscopes hcuts ha (.ofDocument d) (.ofDocument d')

end Rule
end JsxLint
