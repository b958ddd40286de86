import JsxLint.Proofs.Rule.Settled
import JsxLint.Proofs.Rule.Survival

/-!
# Findings that last

Repairs take away what they are made for. A rule that has none finds after any repairs what it found
before, because what it looks at is not idle and keeps its shape.

* `Rule.Finds`: whether a rule finds something at a spot of a tree, whatever is in scope there;
* `Rule.Firm.lasts`, `Rule.lasts_of_alters`: findings that no repair takes away;
* `Rule.spot_eq_of_node_eq`: findings of one rule about one node are at one spot;
* `Node.Alters.named`: functions keep having names.
-/

namespace JsxLint

open Node

namespace Rule

variable {cuts : Prop} {rule : Rule} {n n' root : Node} {u v : Workspace} {f g : Finding}

/-! ### Spots -/

/-- Whether a rule finds something at the spot of a finding, with any table of scopes. -/
def Finds (rule : Rule) (n : Node) (f : Finding) : Prop :=
  ∀ v, ∃ g ∈ rule.detect v n.walk, g.spot = f.spot

theorem Finds.congr (h : rule.Finds n f) (hs : f.spot = g.spot) : rule.Finds n g :=
  fun v => let ⟨k, hk, he⟩ := h v; ⟨k, hk, he.trans hs⟩

theorem Covers.finds (h : rule.Covers n' n) (hf : f ∈ rule.detect u n.walk) : rule.Finds n' f :=
  fun v => h v u f hf

/-- Rules that do not look at scopes find the same with all of them. -/
theorem finds_of_mem (hrule : rule ∈ all) (hscopes : rule ≠ safeInterpolation)
    (hf : f ∈ rule.detect u n.walk) : rule.Finds n f :=
  (covers_altered hrule hscopes (fun _ => not_false) (.refl False n)).finds hf

/-- What a rule that repairs finds about one node, in trees that came from one tree, it finds at one
spot. -/
theorem spot_eq_of_node_eq (hd : root.ids.Nodup) (hrule : rule ∈ all) (hfix : rule.isFixable)
    (ha : Alters True root n) (ha' : Alters True root n') (hf : f ∈ rule.detect u n.walk)
    (hg : g ∈ rule.detect v n'.walk) (hnode : f.node = g.node) : f.spot = g.spot := by
  obtain ⟨mark, hmark⟩ := finds_of_alters hrule hfix
  obtain ⟨m, hm, -, hfm, hline, hcolumn⟩ := hmark root n u ha f hf
  obtain ⟨m', hm', -, hgm, hline', hcolumn'⟩ := hmark root n' v ha' g hg
  obtain rfl := eq_of_id_eq hd hm hm' (hfm.symm.trans (hnode.trans hgm))
  have hsigns := signs_of_mem_all rule hrule
  rw [Finding.spot, Finding.spot, Finding.key, Finding.key, hsigns.rule_eq hf, hsigns.rule_eq hg,
    hnode, hline, hline', hcolumn, hcolumn']

/-! ### Rules without a repair -/

/-- What a firm rule finds lasts. -/
theorem Firm.lasts (h : rule.Firm cuts) (ha : Altered cuts n n') : rule.Covers n' n := by
  intro w' w f hf
  obtain ⟨m, hm, hf⟩ := (h.single w _ f).1 hf
  have hi : ¬m.Idle := fun hi => by
    rw [h.idle w m hi] at hf
    cases hf
  obtain ⟨m', hm', hmm⟩ := ha.survives hm hi
  obtain ⟨f', hf', hspot⟩ := exists_of_forall₂ (h.altered hmm w w').flip hf
  exact ⟨f', (h.single w' _ f').2 ⟨m', hm', hf'⟩, hspot.symm⟩

/-- What a rule without a repair finds to be an issue lasts. -/
theorem lasts_of_altered (hrule : rule ∈ all) (hissue : rule.severity ≠ .good)
    (hfix : rule.isFixable = false) (ha : Altered cuts n n') : rule.Covers n' n := by
  simp only [all, List.mem_cons, List.not_mem_nil, or_false] at hrule
  rcases hrule with rfl | rfl | rfl | rfl | rfl | rfl | rfl | rfl | rfl | rfl | rfl | rfl | rfl |
    rfl <;> try first
      | exact absurd rfl hissue
      | cases hfix
  · exact nestedTernary_firm.lasts ha
  · intro w' w f hf
    obtain ⟨f', hf', hspot⟩ := exists_of_forall₂ (quoteConsistency_altered ha w w').flip hf
    exact ⟨f', hf', hspot.symm⟩
  · exact dangerousHtml_firm.lasts ha
  · exact propsSpreading_firm.lasts ha
  · exact inlineFunction_firm.lasts ha

theorem lasts_of_alters (hrule : rule ∈ all) (hissue : rule.severity ≠ .good)
    (hfix : rule.isFixable = false) (ha : Alters cuts n n') : rule.Covers n' n := by
  induction ha with
  | refl => exact lasts_of_altered hrule hissue hfix (.refl cuts n)
  | tail _ hstep ih => exact (lasts_of_altered hrule hissue hfix hstep).trans ih

end Rule

/-! ### Names of functions -/

namespace Node

open Rule ComponentName

variable {cuts : Prop} {n n' : Node} {x : Node × Node}

theorem mem_namedFunctions {nodes : List Node} :
    x ∈ namedFunctions nodes ↔ ∃ n ∈ nodes, x ∈ namedFunctions [n] := by
  simp only [namedFunctions, List.mem_filterMap, List.mem_append, List.mem_singleton]
  grind

/-- A function that has a name goes on to have one. -/
theorem Altered.named (h : Altered cuts n n') (hx : x ∈ namedFunctions n.walk) :
    ∃ x' ∈ namedFunctions n'.walk, NamesAltered cuts x x' := by
  obtain ⟨p, hp, hx⟩ := mem_namedFunctions.1 hx
  obtain ⟨q, hq, hnaming, -⟩ := exists_naming hx
  cases List.mem_singleton.1 hq
  have hi : ¬p.Idle := fun hi => by
    have hidle := hi p p.self_mem_walk
    cases hl : p.label <;> rw [hl] at hnaming hidle <;> first
      | exact absurd hnaming Bool.false_ne_true
      | exact absurd hidle Bool.false_ne_true
  obtain ⟨p', hp', hpp⟩ := h.survives hp hi
  obtain ⟨x', hx', hxx⟩ := exists_of_forall₂ (namedFunctions_altered hpp).flip hx
  exact ⟨x', mem_namedFunctions.2 ⟨p', hp', hx'⟩, hxx⟩

/-- A function that has a name keeps having one, and it gives back markup just when it did. -/
theorem Alters.named (h : Alters cuts n n') (hx : x ∈ namedFunctions n.walk) :
    ∃ x' ∈ namedFunctions n'.walk, Alters cuts x.1 x'.1 ∧
      x'.2.returnsMarkup = x.2.returnsMarkup := by
  induction h with
  | refl => exact ⟨x, hx, .refl cuts _, rfl⟩
  | tail _ hstep ih =>
    obtain ⟨x₁, hx₁, hname₁, hmarkup₁⟩ := ih
    obtain ⟨x', hx', hname, hfunction⟩ := hstep.named hx₁
    exact ⟨x', hx', hname₁.tail hname, (returnsMarkup_altered hfunction).trans hmarkup₁⟩

end Node
end JsxLint
