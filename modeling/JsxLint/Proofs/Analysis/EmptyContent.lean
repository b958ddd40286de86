import JsxLint.Proofs.Analysis.Edits
import JsxLint.Proofs.Analysis.Printing
import JsxLint.Proofs.Reading.Tags
import JsxLint.Proofs.Rule.Braces
import JsxLint.Proofs.Rule.Lasting

/-!
# Empty content goes

A run in which empty braces are repaired takes them out of the content of all elements and
fragments, one by one, in its first round. Those in other places are refused once each, and no other
braces are touched.

* `Engine.Emptied`: what repairs leave of the braces of a tree;
* `Engine.lateFindings_rule`: after one round only void elements come too late;
* `Engine.analyse_emptyContent`: what an analysis leaves of empty braces.
-/

namespace JsxLint

open Node

namespace Engine

variable {e : Engine} {path text : String} {d : Document} {p : Progress} {w w' : Workspace}
  {rule : Rule} {f g : Finding} {n m : Node} {changes : List Change} {c : Change}

/-! ### One repair -/

/-- What repairs leave of the braces of a tree: with every pair of empty braces that a change was
made for one is gone from the content of elements and fragments, and all others are as they were. -/
structure Emptied (n n' : Node) (changes : List Change) : Prop where
  bare : n'.TagsBare
  count : n'.emptyContent.length +
    (changes.filter (·.rule == Rule.emptyExpression.id)).length = n.emptyContent.length
  subset : n'.emptyContent.map (·.id) ⊆ n.emptyContent.map (·.id)
  kept : ∀ m ∈ n.walk, ∀ hasComment, m.label = .container hasComment → m ∉ n.emptyContent →
    n'.site? m.id = some m.site

theorem Emptied.refl (hd : n.ids.Nodup) (hb : n.TagsBare) : Emptied n n [] where
  bare := hb
  count := rfl
  subset := List.Subset.refl _
  kept _ hm _ _ _ := site?_of_mem hd hm

theorem Emptied.edit (hd : n.ids.Nodup) (h : Emptied n w.document.root changes)
    (he : rule.Edit f d w w') (hc : c.rule = rule.id) :
    Emptied n w'.document.root (changes ++ [c]) := by
  have hsound := he.before.sound
  have hlength := he.effect.length_emptyContent hsound h.bare he.step.sound he.alters he.mem
  have hmem := he.effect.mem_emptyContent_iff hsound h.bare he.step.sound he.alters
  refine ⟨h.bare.alters he.alters, ?_, fun k hk => h.subset ((hmem k).1 hk).1, ?_⟩
  · rw [← h.count, ← hlength, List.filter_append, List.length_append, List.filter_cons,
      List.filter_nil, hc]
    by_cases hr : rule.id = Rule.emptyExpression.id
    · simp only [hr, beq_self_eq_true, if_true, List.length_singleton]
      omega
    · simp only [beq_eq_false_iff_ne.2 hr, Bool.false_eq_true, if_false, hr, List.length_nil]
      omega
  · intro m hm hasComment hl hout
    obtain ⟨m₁, hm₁, hid, hsite⟩ := (site?_eq_some_iff hsound.formed.root.nodup).1
      (h.kept m hm hasComment hl hout)
    rw [← hsite, ← hid]
    refine he.effect.braces_site? hsound h.bare hm₁ ((congrArg Site.label hsite).trans hl)
      he.step.sound ?_
    rintro ⟨hr, hi⟩
    obtain ⟨e⟩ := he.effect.removal hr
    obtain ⟨m₂, hm₂, hid₂⟩ := List.mem_map.1 (h.subset (e.mem_emptyContent hsound))
    have hsame := eq_of_id_eq hd (List.mem_filter.1 hm₂).1 hm (hid₂.trans (hi.symm.trans hid))
    exact hout (hsame ▸ hm₂)

/-! ### Rounds -/

section Late

variable (hdetect : ∀ rule k, e.faults.detect rule k = none) (hrules : e.rules ⊆ Rule.all)

include hdetect hrules

theorem lateFindings_of_knows (hp : Running p) (hknows : e.Knows (· ≠ Rule.selfClosingTag) p)
    (k : Nat) : ∀ g ∈ e.lateFindings k p, g.rule = Rule.selfClosingTag.id := by
  induction k generalizing p with
  | zero =>
    intro g hg
    obtain ⟨x, hx, rfl⟩ := List.mem_map.1 hg
    obtain ⟨hrule, hf⟩ := (found_detected e p).mem x hx
    rw [(Rule.signs_of_mem_all x.1 (hrules hrule)).rule_eq hf, found_of_knows hknows x hx]
  | succ k ih =>
    rw [lateFindings]
    split_ifs
    · exact fun g hg => by cases hg
    · obtain ⟨hrunning, hall⟩ := repaired_quiet hdetect hrules hp hknows
      exact ih hrunning fun rule hrule _ => hall rule hrule trivial

/-- After one round only void elements come too late. -/
theorem lateFindings_rule (hp : Running p) {k : Nat} (hk : 0 < k) :
    ∀ g ∈ e.lateFindings k p, g.rule = Rule.selfClosingTag.id := by
  obtain ⟨k, rfl⟩ := Nat.exists_eq_succ_of_ne_zero hk.ne'
  rw [lateFindings]
  split_ifs
  · exact fun g hg => by cases hg
  · obtain ⟨hrunning, hknows⟩ := repaired_late hdetect hrules hp
    exact lateFindings_of_knows hdetect hrules hrunning hknows k

theorem key_ne_of_late (hp : Running p) {k : Nat} (hk : 0 < k)
    (hf : f.rule ≠ Rule.selfClosingTag.id) : ∀ g ∈ e.lateFindings k p, g.key ≠ f.key :=
  fun g hg hkey => hf ((congrArg Prod.fst hkey).symm.trans
    (lateFindings_rule hdetect hrules hp hk g hg))

end Late

/-- An outcome whose text is printed has the changes, the refusals and the findings of its rounds. -/
theorem conclude_printed (hprint : e.faults.print = none) {t : String}
    (ht : p.document.printText = .ok t) :
    (e.conclude path p).changes = p.changes ∧ (e.conclude path p).refusals = p.refusals ∧
      (e.conclude path p).findings = p.seen.mergeSort findingLe := by
  rw [conclude, hprint, ht]
  split_ifs <;> exact ⟨rfl, rfl, rfl⟩

section Run

variable {calls : Calls} {k : Nat} (hgrammar : e.grammar.Suits path text)
  (hread : Document.read e.grammar path text = .ok d) (hrules : e.rules ⊆ Rule.all)

include hgrammar hread hrules

/-- When the rounds of an analysis come to an end, the outcome has their changes, refusals and
findings. -/
theorem analyse_printed (hprint : e.faults.print = none) (fix : Option Bool) {o : Outcome}
    (ho : o = (e.analyse path text fix calls).1)
    (hp : e.rounds (fix.getD e.fix) e.maxPasses (.start d calls) = (p, none)) :
    o.changes = p.changes ∧ o.refusals = p.refusals ∧ o.findings = p.seen.mergeSort findingLe := by
  obtain ⟨forms, hprintable⟩ := rounds_printable hgrammar.printable hread hrules
    (fix.getD e.fix) e.maxPasses calls
  obtain ⟨t, ht⟩ := hprintable.printText
  rw [hp] at ht
  rw [analyse, hread] at ho
  dsimp only at ho
  rw [hp] at ho
  subst ho
  exact conclude_printed hprint ht

theorem rounds_emptied (fix : Bool) (hp : p = (e.rounds fix k (.start d calls)).1) :
    p.document.Regular ∧ Emptied d.root p.document.root p.changes := by
  have hd : d.Regular := .of_read hgrammar.plain hgrammar.named hread
  subst hp
  exact rounds_edits (p := .start d calls) (J := fun d' cs => Emptied d.root d'.root cs) hrules
    (fun _ _ _ _ _ _ _ _ he hc _ h => h.edit hd.formed.root.nodup he hc) fix k hd
    (.refl hd.formed.root.nodup (Reading.read_tagsBare hgrammar.plain hread))

variable (hdetect : ∀ rule k, e.faults.detect rule k = none)
  (hrepair : ∀ rule k, e.faults.repair rule k = none)
  (hresolve : ∀ k, e.faults.resolve k = none)

include hdetect hrepair hresolve

/-- What is still found in the end and is not late was refused once. -/
theorem refused_once (hrule : rule ∈ e.rules) (hfix : rule.isFixable)
    (hp : p = (e.rounds true k (.start d calls)).1)
    (hlate : ∀ g ∈ e.lateFindings k (.start d calls), g.key ≠ f.key)
    (hf : f ∈ rule.detect (.ofDocument p.document) p.document.root.walk) :
    (p.refusals.filter fun r => r.rule == rule.id && r.finding.node == f.node).length = 1 := by
  have hstart := Mending.start hgrammar hread calls
  have hrefusing := Refusing.rounds hdetect hrepair hrules true k (p := .start d calls) (d := d)
    ⟨hstart, fun r hr => by cases hr⟩
  rw [← hp] at hrefusing
  have hall := hrules hrule
  have halters := hrefusing.mending.alters
  have hid := (Rule.signs_of_mem_all rule hall).rule_eq hf
  -- a refusal by the rule is about the node just when it has the key of the finding
  have hsame : ∀ r ∈ p.refusals, (r.rule == rule.id && r.finding.node == f.node) =
      (r.finding.key == f.key) := by
    intro r hr
    obtain ⟨other, hother, hrid, -, d', v, -, hd', hoffered, -⟩ := hrefusing.refused r hr
    have hid' := (Rule.signs_of_mem_all other (hrules hother)).rule_eq hoffered.found
    rw [Bool.eq_iff_iff, Bool.and_eq_true, beq_iff_eq, beq_iff_eq, beq_iff_eq, hrid]
    constructor
    · rintro ⟨hsame, hnode⟩
      obtain rfl := Rule.id_inj (hrules hother) hall hsame
      exact congrArg Prod.snd (Rule.spot_eq_of_node_eq hstart.running.regular.formed.root.nodup hall
        hfix hd' halters hoffered.found hf hnode)
    · intro hkey
      obtain rfl := Rule.id_inj (hrules hother) hall
        (hid'.symm.trans ((congrArg Prod.fst hkey).trans hid))
      exact ⟨rfl, node_eq_of_key_eq hgrammar hread hall hfix hd' halters hoffered.found hf hkey⟩
  obtain ⟨r, hr, -, hkey⟩ :=
    exists_refusal hgrammar hread hrules hdetect hresolve hlate hp hrule hfix hf
  calc (p.refusals.filter fun r => r.rule == rule.id && r.finding.node == f.node).length
      = (p.refusals.map (·.finding.key)).count f.key := by
        rw [List.filter_congr hsame, List.count, List.countP_map, List.countP_eq_length_filter]
        rfl
    _ = 1 := List.count_eq_one_of_mem (nodup_refusals hrules hresolve hp)
        (List.mem_map.2 ⟨r, hr, hkey⟩)

variable (hrule : Rule.emptyExpression ∈ e.rules) (hk : 0 < k)

include hrule hk

/-- Rounds leave no empty braces in content. -/
theorem rounds_emptyContent (hp : p = (e.rounds true k (.start d calls)).1) :
    p.document.root.emptyContent = [] := by
  refine List.eq_nil_iff_forall_not_mem.2 fun m hm => ?_
  have hd := (rounds_emptied hgrammar hread hrules true hp).1
  obtain ⟨hempty, q, hq, hmarkup, hc⟩ := hd.formed.mem_emptyContent_iff.1 hm
  obtain ⟨⟨_, hl⟩, -⟩ := emptyContainer_leaf hempty
  have hf : Rule.EmptyExpression.info.report (.ofDocument p.document) m none ∈
      Rule.emptyExpression.detect (.ofDocument p.document) p.document.root.walk :=
    List.mem_map_of_mem (List.mem_filter.2 ⟨mem_walk_trans (child_mem_walk hc) hq, hempty⟩)
  have hsound := Workspace.sound_ofDocument hd.formed
  -- they could go, so what was found there was refused, but not for good
  obtain ⟨⟨change, w'⟩, hok⟩ := Rule.EmptyExpression.exists_repair (w := .ofDocument p.document)
    (f := Rule.EmptyExpression.info.report (.ofDocument p.document) m none) hsound hq hmarkup hc hl
    rfl
  have hlate := key_ne_of_late hdetect hrules (Mending.start hgrammar hread calls).running hk
    (f := Rule.EmptyExpression.info.report (.ofDocument p.document) m none)
    (by show Rule.emptyExpression.id ≠ _; decide)
  obtain ⟨hwhich, -⟩ := refusal_of_repair hgrammar hread hrules hdetect hresolve hrepair hlate hp
    hrule rfl ⟨hd.formed, hf, .refl hsound, .refl True _⟩ hok
  rcases hwhich with h | h <;> exact absurd h (Rule.ne_of_id_ne (by decide))

/-- Empty braces that are not in content are refused once. -/
theorem refusals_of_braces (hp : p = (e.rounds true k (.start d calls)).1) (hm : m ∈ d.root.walk)
    (hempty : m.isEmptyContainer) (hout : m ∉ d.root.emptyContent) :
    (p.refusals.filter fun r =>
      r.rule == Rule.emptyExpression.id && r.finding.node == m.id).length = 1 := by
  obtain ⟨hd, hemptied⟩ := rounds_emptied hgrammar hread hrules true hp
  -- the braces are still there, so they are found in the end
  obtain ⟨⟨_, hl⟩, -⟩ := emptyContainer_leaf hempty
  obtain ⟨m', hm', hid, hsite⟩ := (site?_eq_some_iff hd.formed.root.nodup).1
    (hemptied.kept m hm _ hl hout)
  have hf : Rule.EmptyExpression.info.report (.ofDocument p.document) m' none ∈
      Rule.emptyExpression.detect (.ofDocument p.document) p.document.root.walk :=
    List.mem_map_of_mem (List.mem_filter.2 ⟨hm', by rw [isEmptyContainer_congr hsite, hempty]⟩)
  have hlate := key_ne_of_late hdetect hrules (Mending.start hgrammar hread calls).running hk
    (f := Rule.EmptyExpression.info.report (.ofDocument p.document) m' none)
    (by show Rule.emptyExpression.id ≠ _; decide)
  rw [← hid]
  exact refused_once hgrammar hread hrules hdetect hrepair hresolve hrule rfl hp hlate hf

end Run

/-- An analysis with repairs takes all empty braces out of the content of elements and fragments, one
change for each. Empty braces in other places stay and are refused once each, and braces around an
expression or a comment stay. -/
theorem analyse_emptyContent (hgrammar : e.grammar.Suits path text)
    (hread : Document.read e.grammar path text = .ok d) (hrules : e.rules ⊆ Rule.all)
    (hrule : Rule.emptyExpression ∈ e.rules) (hdetect : ∀ rule k, e.faults.detect rule k = none)
    (hrepair : ∀ rule k, e.faults.repair rule k = none)
    (hresolve : ∀ k, e.faults.resolve k = none) (hprint : e.faults.print = none)
    (hpasses : 0 < e.maxPasses) {fix : Option Bool} (hfix : fix.getD e.fix = true) (calls : Calls)
    {o : Outcome} (ho : o = (e.analyse path text fix calls).1)
    (hp : p = (e.rounds true e.maxPasses (.start d calls)).1) :
    p.document.root.emptyContent = [] ∧
    (o.changes.filter (·.rule == Rule.emptyExpression.id)).length =
      d.root.emptyContent.length ∧
    (∀ m ∈ d.root.walk, m.isEmptyContainer → m ∉ d.root.emptyContent →
      p.document.root.site? m.id = some m.site ∧
      (o.refusals.filter fun r =>
        r.rule == Rule.emptyExpression.id && r.finding.node == m.id).length = 1) ∧
    ∀ m ∈ d.root.walk, ∀ hasComment, m.label = .container hasComment → ¬m.isEmptyContainer →
      p.document.root.site? m.id = some m.site := by
  have hrounds : e.rounds (fix.getD e.fix) e.maxPasses (.start d calls) = (p, none) := by
    rw [hfix, hp]
    exact rounds_eq hresolve true e.maxPasses (.start d calls)
  obtain ⟨hchanges, hrefusals, -⟩ := analyse_printed hgrammar hread hrules hprint fix ho hrounds
  have hemptied := (rounds_emptied hgrammar hread hrules true hp).2
  have hnone := rounds_emptyContent hgrammar hread hrules hdetect hrepair hresolve hrule hpasses hp
  have hcount := hemptied.count
  rw [hnone, List.length_nil, Nat.zero_add, ← hchanges] at hcount
  refine ⟨hnone, hcount, fun m hm hempty hout => ?_, fun m hm hasComment hl hfull => ?_⟩
  · obtain ⟨⟨_, hl⟩, -⟩ := emptyContainer_leaf hempty
    rw [hrefusals]
    exact ⟨hemptied.kept m hm _ hl hout, refusals_of_braces hgrammar hread hrules hdetect hrepair
      hresolve hrule hpasses hp hm hempty hout⟩
  · exact hemptied.kept m hm hasComment hl fun hin =>
      hfull (Bool.and_eq_true_iff.1 (List.mem_filter.1 hin).2).1

end Engine

/-! ### Four pairs of braces -/

namespace Concrete

/-- The tree of `<p a=\x7b\x7d>\x7b\x7d\x7bx\x7d\x7b/**/\x7d</p>;`. -/
def bracedTag : Concrete :=
  rule "program" 0 25 none
    [rule "expression_statement" 0 24 none
      [rule "jsx_element" 0 23 none
          [rule "jsx_opening_element" 0 8 (some "open_tag")
              [token "<" 0 1, rule "identifier" 1 2 (some "name") [],
                rule "jsx_attribute" 3 7 (some "attribute")
                  [rule "property_identifier" 3 4 none [], token "=" 4 5,
                    rule "jsx_expression" 5 7 none [token "\x7b" 5 6, token "\x7d" 6 7]],
                token ">" 7 8],
            rule "jsx_expression" 8 10 none [token "\x7b" 8 9, token "\x7d" 9 10],
            rule "jsx_expression" 10 13 none
              [token "\x7b" 10 11, rule "identifier" 11 12 none [], token "\x7d" 12 13],
            rule "jsx_expression" 13 19 none
              [token "\x7b" 13 14, rule "comment" 14 18 none [], token "\x7d" 18 19],
            rule "jsx_closing_element" 19 23 (some "close_tag")
              [token "</" 19 21, rule "identifier" 21 22 (some "name") [], token ">" 22 23]],
        token ";" 23 24]]

end Concrete

namespace Engine

/-- All rules at work on `Concrete.bracedTag`. -/
def braced : Engine :=
  ⟨Rule.all, fun _ _ => Concrete.bracedTag, .none, true, 3⟩

/-- The text of `Concrete.bracedTag`. -/
def bracedText : String :=
  "<p a=\x7b\x7d>\x7b\x7d\x7bx\x7d\x7b/**/\x7d</p>;\n"

/-- Of two pairs of empty braces the one in content goes, and the one that is a value is refused. -/
theorem braced_emptyContent : ∃ d m p o, Document.read braced.grammar "A.jsx" bracedText = .ok d ∧
    p = (braced.rounds true 3 (.start d .none)).1 ∧
    o = (braced.analyse "A.jsx" bracedText none .none).1 ∧
    d.root.emptyContent.length = 1 ∧ p.document.root.emptyContent = [] ∧
    (o.changes.filter (·.rule == Rule.emptyExpression.id)).length = 1 ∧
    m ∈ d.root.walk ∧ m.isEmptyContainer ∧ p.document.root.site? m.id = some m.site ∧
    (o.refusals.filter fun r =>
      r.rule == Rule.emptyExpression.id && r.finding.node == m.id).length = 1 := by
  have hfacts : (Document.read braced.grammar "A.jsx" bracedText).map (fun d =>
      d.root.emptyContent.length == 1 && d.root.walk.any fun m =>
        m.isEmptyContainer && !d.root.isEmptyContent m) = .ok true := by decide +kernel
  obtain ⟨d, hread, hvalues⟩ := Reading.map_eq_ok.1 hfacts
  obtain ⟨hlength, hvalues⟩ := Bool.and_eq_true_iff.1 hvalues
  rw [beq_iff_eq] at hlength
  obtain ⟨m, hm, hvalues⟩ := List.any_eq_true.1 hvalues
  obtain ⟨hempty, hout⟩ := Bool.and_eq_true_iff.1 hvalues
  have hsuits : braced.grammar.Suits "A.jsx" bracedText :=
    ⟨by decide +kernel, by decide +kernel, by decide +kernel, by decide +kernel, by decide +kernel⟩
  generalize hp : (braced.rounds true 3 (.start d .none)).1 = p
  generalize ho : (braced.analyse "A.jsx" bracedText none .none).1 = o
  obtain ⟨hnone, hcount, hothers, -⟩ := analyse_emptyContent hsuits hread (List.Subset.refl _)
    (by simp [braced, Rule.all]) (fun _ _ => rfl) (fun _ _ => rfl) (fun _ => rfl) rfl (by decide)
    rfl .none ho.symm hp.symm
  obtain ⟨hsite, hrefused⟩ := hothers m hm hempty fun hin => by
    rw [(List.mem_filter.1 hin).2] at hout
    cases hout
  exact ⟨d, m, p, o, hread, hp.symm, rfl, hlength, hnone, hcount.trans hlength, hm, hempty, hsite,
    hrefused⟩

end Engine
end JsxLint
