import JsxLint.Proofs.Analysis.EmptyContent
import JsxLint.Proofs.Analysis.Persistence

/-!
# Unresolved findings

An issue that no change was made for is in the tree that a run leaves, and its rule reports it there
again. One kind of finding is an exception: a variable may be declared twice, both times as a
component with a small letter. The new name that the first declaration gets is the name of the
second one too, and the change is one for the first only. The finding at the second one is
unresolved, and not to be found again.

* `Document.BindingRenamed`: identifiers whose binding was renamed for another one of them;
* `Engine.Leaves`, `Engine.Leaves.edit`: what repairs leave of issues;
* `Engine.Remaining`: what holds of the states of rounds;
* `Engine.analyse_unresolved`: the unresolved findings of an analysis.
-/

namespace JsxLint

open Node

/-- Whether the binding that a node belongs to in a document got a new name, by a change that was
made for its declaration. -/
def Document.BindingRenamed (d : Document) (changes : List Change) (k : NodeId) : Prop :=
  ∃ c ∈ changes, c.rule = Rule.componentNaming.id ∧
    (ScopeTable.resolve d.root).declaration? k = some c.finding.node

/-! ### One repair -/

namespace Rule

variable {d d' : Document} {u v w : Workspace} {rule other : Rule} {f g : Finding}

/-- In any round, the nodes that findings are about have the declaration that they had at first. -/
theorem Edit.declaration?_eq (he : rule.Edit f d' v w) (hd : d.WellFormed) (hk : d.Kept d')
    (ha : Alters True d.root v.document.root) (hother : other ∈ all) (hfix : other.isFixable)
    (hg : g ∈ other.detect u v.document.root.walk) :
    v.scopes.declaration? g.node = (ScopeTable.resolve d.root).declaration? g.node := by
  obtain ⟨mark, hmark⟩ := finds_of_alters hother hfix
  obtain ⟨m, hm, -, hnode, -⟩ := hmark _ _ u (.refl True _) g hg
  obtain ⟨m₀, hm₀, -, hnode₀, -⟩ := hmark _ _ u ha g hg
  have hlt : m.id < d.fresh := by
    rw [← hnode, hnode₀]
    exact hd.root.lt_fresh _ (id_mem_ids hm₀)
  have hlt' := Nat.lt_of_lt_of_le hlt hk.follows.fresh
  obtain ⟨l, hl, hid, -⟩ := he.before.follows.node m hm hlt'
  rw [hnode, he.before.declaration? m.id hlt', ← hid]
  exact hk.node l hl (hid ▸ hlt)

end Rule

namespace Engine

variable {e : Engine} {path text : String} {d d' : Document} {v w : Workspace} {rule : Rule}
  {f : Finding} {n : Node} {c : Change} {seen : List Finding} {changes : List Change}
  {p : Progress}

/-- What repairs leave of the issues of a run: each that no change was made for is found, but for
names of components whose binding was renamed, and these are not. -/
structure Leaves (d : Document) (seen : List Finding) (n : Node) (changes : List Change) : Prop where
  alters : Alters True d.root n
  bare : n.TagsBare
  found : ∀ g ∈ seen, ∀ rule ∈ Rule.all, rule.id = g.rule → rule.severity ≠ .good →
    rule.Finds n g ∨ (∃ c ∈ changes, c.finding.key = g.key) ∨
      rule = Rule.componentNaming ∧ d.BindingRenamed changes g.node
  away : ∀ v, ∀ g ∈ Rule.componentNaming.detect v n.walk, ¬d.BindingRenamed changes g.node

theorem Leaves.start (hb : d.root.TagsBare) : Leaves d [] d.root [] where
  alters := .refl True d.root
  bare := hb
  found _ hg := by cases hg
  away := by
    rintro v g - ⟨c, hc, -⟩
    cases hc

/-- Findings are there when they are made. -/
theorem Leaves.detect {new : List (Rule × Finding)} (h : Leaves d seen n changes)
    (hnew : ∀ x ∈ new, x.1 ∈ Rule.all ∧ x.2 ∈ x.1.detect v n.walk) :
    Leaves d (seen ++ new.map (·.2)) n changes where
  alters := h.alters
  bare := h.bare
  found g hg rule hrule hid hissue := by
    rcases List.mem_append.1 hg with hg | hg
    · exact h.found g hg rule hrule hid hissue
    · obtain ⟨x, hx, rfl⟩ := List.mem_map.1 hg
      obtain ⟨hother, hg⟩ := hnew x hx
      obtain rfl := Rule.id_inj hrule hother
        (hid.trans ((Rule.signs_of_mem_all _ hother).rule_eq hg))
      refine .inl (Rule.finds_of_mem hrule ?_ hg)
      intro hscopes
      rw [hscopes] at hissue
      exact hissue rfl
  away := h.away

/-- What is left of the issues after one more repair. -/
theorem Leaves.edit (h : Leaves d seen v.document.root changes) (he : rule.Edit f d' v w)
    (hd : d.WellFormed) (hk : d.Kept d') (hc : c.rule = rule.id) (hf : c.finding = f) :
    Leaves d seen w.document.root (changes ++ [c]) where
  alters := h.alters.trans he.alters
  bare := h.bare.alters he.alters
  found g hg other hother hid hissue := by
    rcases h.found g hg other hother hid hissue with hfinds | ⟨c', hc', hkey⟩ | ⟨hr, c', hc', hren⟩
    · obtain ⟨k, hk', hspot⟩ := hfinds v
      obtain ⟨hnode, hkey⟩ := Prod.ext_iff.1 hspot
      rcases he.finds h.bare hother hissue hk' with
        hfinds' | ⟨rfl, hnode'⟩ | ⟨rfl, rfl, hdeclaration⟩
      · exact .inl (hfinds'.congr hspot)
      · have hsame := Rule.spot_eq_of_node_eq he.regular.formed.root.nodup he.mem
          he.effect.isFixable (.refl True _) he.reached he.found hk' hnode'.symm
        refine .inr (.inl ⟨c, List.mem_append_right _ (List.mem_singleton_self c), ?_⟩)
        rw [hf]
        exact (congrArg Prod.snd hsame).trans hkey
      · refine .inr (.inr ⟨rfl, c, List.mem_append_right _ (List.mem_singleton_self c), hc, ?_⟩)
        rw [hf, ← hdeclaration, he.declaration?_eq hd hk h.alters hother rfl hk']
        exact congrArg _ (Eq.symm hnode)
    · exact .inr (.inl ⟨c', List.mem_append_left _ hc', hkey⟩)
    · exact .inr (.inr ⟨hr, c', List.mem_append_left _ hc', hren⟩)
  away := by
    rintro u g hg ⟨c', hc', hid, hdeclaration⟩
    have hnaming : Rule.componentNaming ∈ Rule.all := by simp [Rule.all]
    obtain ⟨k, hk', hspot⟩ := Rule.covers_alters hnaming (Rule.ne_of_id_ne (by decide))
      (fun h => absurd h (Rule.ne_of_id_ne (by decide))) he.alters v u g hg
    have hnode : k.node = g.node := congrArg Prod.fst hspot
    rcases List.mem_append.1 hc' with hold | hnew
    · exact h.away v k hk' ⟨c', hold, hid, hnode ▸ hdeclaration⟩
    · cases List.mem_singleton.1 hnew
      have hr := Rule.id_inj he.mem hnaming (hc.symm.trans hid)
      refine he.declaration?_ne hr hg ?_
      rw [← hnode, he.declaration?_eq hd hk h.alters hnaming rfl hk', hnode, hdeclaration, hf]

/-! ### All rounds -/

/-- What holds of the states of rounds that started with a document. -/
structure Remaining (e : Engine) (d : Document) (p : Progress) : Prop where
  regular : p.document.Regular
  kept : d.Kept p.document
  detected : ∀ f ∈ p.seen, ∃ rule ∈ e.rules, ∃ n v, Alters True d.root n ∧ f ∈ rule.detect v n.walk
  leaves : Leaves d p.seen p.document.root p.changes

section Rounds

variable (hrules : e.rules ⊆ Rule.all)

include hrules

theorem Remaining.found (h : e.Remaining d p) : e.Remaining d (e.found p).2 := by
  have hfound := found_detected e p
  refine ⟨hfound.document ▸ h.regular, hfound.document ▸ h.kept, fun f hf => ?_, ?_⟩
  · rw [hfound.seen] at hf
    rcases List.mem_append.1 hf with hf | hf
    · exact h.detected f hf
    · obtain ⟨x, hx, rfl⟩ := List.mem_map.1 hf
      obtain ⟨hrule, hf⟩ := hfound.mem x hx
      exact ⟨x.1, hrule, _, _, h.leaves.alters, hf⟩
  · rw [hfound.document, hfound.changes, hfound.seen]
    exact h.leaves.detect fun x hx => ⟨hrules (hfound.mem x hx).1, (hfound.mem x hx).2⟩

theorem Remaining.repaired (hd : d.WellFormed) (h : e.Remaining d p) :
    e.Remaining d (e.repaired p) := by
  have hfound := found_detected e p
  have hnext := h.found hrules
  obtain ⟨made, w', hr, hdocument, hchanges, -⟩ := repaired_repairs e p
  have hseen := repaired_seen e p
  have hround := hr.edits (J := fun v cs => Leaves d (e.found p).2.seen v.document.root cs)
    h.regular hrules hfound.mem (fun v v' cs c rule _ f he hc hf hleaves =>
      hleaves.edit he hd h.kept hc hf) (hfound.document ▸ hfound.changes ▸ hnext.leaves)
  refine ⟨?_, ?_, hseen ▸ hnext.detected, ?_⟩
  · rw [hdocument]
    exact (Document.repeats_of_repairs h.regular hrules hfound.mem (fun _ _ _ => trivial) hr).1
  · rw [hdocument]
    exact h.kept.trans (Document.kept_of_repairs h.regular.formed hrules hfound.mem hr)
  · rw [hdocument, hchanges, hseen]
    exact hround

theorem Remaining.rounds (hd : d.WellFormed) (fix : Bool) (k : Nat) (h : e.Remaining d p) :
    e.Remaining d (e.rounds fix k p).1 :=
  rounds_induction (motive := fun p p' => e.Remaining d p → e.Remaining d p')
    (fun _ h => ⟨h.regular, h.kept, h.detected, h.leaves⟩) (fun _ h => h.found hrules)
    (fun _ h => h.repaired hrules hd) (fun _ _ hrest h => hrest (h.repaired hrules hd)) fix k p h

end Rounds

/-! ### Outcomes -/

section Analysis

variable (hgrammar : e.grammar.Suits path text)
  (hread : Document.read e.grammar path text = .ok d)

include hgrammar hread

theorem Remaining.start (calls : Calls) : e.Remaining d (.start d calls) :=
  have hd : d.Regular := .of_read hgrammar.plain hgrammar.named hread
  ⟨hd, .refl hd.formed, fun f hf => (by cases hf),
    .start (Reading.read_tagsBare hgrammar.plain hread)⟩

/-- An issue that no change was made for is reported again, just when it is not the name of a
component whose binding was renamed. -/
theorem Remaining.reported_iff (hrules : e.rules ⊆ Rule.all) (h : e.Remaining d p)
    (hf : f ∈ p.seen) (hissue : f.isIssue) (hkey : ∀ c ∈ p.changes, c.finding.key ≠ f.key) :
    (∃ rule ∈ e.rules, rule.id = f.rule ∧
      ∃ g ∈ rule.detect (.ofDocument p.document) p.document.root.walk, g.key = f.key) ↔
      ¬(f.rule = Rule.componentNaming.id ∧ d.BindingRenamed p.changes f.node) := by
  obtain ⟨other, hother, n, v, ha, hfound⟩ := h.detected f hf
  have hsigns := Rule.signs_of_mem_all other (hrules hother)
  have hid := hsigns.rule_eq hfound
  constructor
  · rintro ⟨rule, hrule, hrid, g, hg, hgf⟩ ⟨hname, hrenamed⟩
    have hnaming : Rule.componentNaming ∈ Rule.all := by simp [Rule.all]
    obtain rfl := Rule.id_inj (hrules hrule) hnaming (hrid.trans hname)
    obtain rfl := Rule.id_inj (hrules hother) (hrules hrule) (hid.symm.trans hrid.symm)
    have hnode := node_eq_of_key_eq hgrammar hread hnaming rfl ha h.leaves.alters hfound hg hgf.symm
    exact h.leaves.away _ g hg (hnode ▸ hrenamed)
  · intro hnot
    have hsevere : other.severity ≠ .good := by
      rw [← hsigns.severity_eq hfound]
      exact bne_iff_ne.1 hissue
    rcases h.leaves.found f hf other (hrules hother) hid.symm hsevere with
      hfinds | ⟨c, hc, hcf⟩ | ⟨rfl, hrenamed⟩
    · obtain ⟨g, hg, hspot⟩ := hfinds (.ofDocument p.document)
      exact ⟨other, hother, hid.symm, g, hg, congrArg Prod.snd hspot⟩
    · exact absurd hcf (hkey c hc)
    · exact absurd ⟨hid, hrenamed⟩ hnot

/-- When the rounds of an analysis come to an end, the unresolved findings are the issues that no
change was made for. -/
theorem mem_unresolved_iff (hrules : e.rules ⊆ Rule.all) (hprint : e.faults.print = none)
    (fix : Option Bool) (calls : Calls) {o : Outcome} (ho : o = (e.analyse path text fix calls).1)
    (hp : e.rounds (fix.getD e.fix) e.maxPasses (.start d calls) = (p, none)) :
    o.changes = p.changes ∧ (f ∈ o.unresolved ↔
      f ∈ p.seen ∧ f.isIssue ∧ ∀ c ∈ p.changes, c.finding.key ≠ f.key) := by
  obtain ⟨hchanges, -, hfindings⟩ := analyse_printed hgrammar hread hrules hprint fix ho hp
  refine ⟨hchanges, ?_⟩
  simp only [Outcome.unresolved, Outcome.issues, List.mem_filter, hfindings, hchanges,
    (List.mergeSort_perm p.seen findingLe).mem_iff, Bool.not_eq_true', List.contains_eq_mem,
    decide_eq_false_iff_not, List.mem_map, not_exists, not_and, and_assoc]

/-- An unresolved finding of an analysis is reported again, with its rule and place, when its rule
looks at the tree that the analysis leaves, with the scopes of that tree. The one exception is a
redeclared component: when the binding that its name belongs to was renamed for the first
declaration, the finding is unresolved, and it is not reported again. -/
theorem analyse_unresolved (hrules : e.rules ⊆ Rule.all) (hprint : e.faults.print = none)
    (fix : Option Bool) (calls : Calls) {o : Outcome} (ho : o = (e.analyse path text fix calls).1)
    (hp : p = (e.rounds (fix.getD e.fix) e.maxPasses (.start d calls)).1) (hf : f ∈ o.unresolved) :
    (∃ rule ∈ e.rules, rule.id = f.rule ∧
      ∃ g ∈ rule.detect (.ofDocument p.document) p.document.root.walk, g.key = f.key) ↔
      ¬(f.rule = Rule.componentNaming.id ∧ d.BindingRenamed o.changes f.node) := by
  have hd : d.Regular := .of_read hgrammar.plain hgrammar.named hread
  have hremaining := (Remaining.start hgrammar hread calls).rounds hrules hd.formed
    (fix.getD e.fix) e.maxPasses
  rw [← hp] at hremaining
  cases herror : (e.rounds (fix.getD e.fix) e.maxPasses (.start d calls)).2 with
  | some error =>
    -- an analysis that breaks down has no findings
    rw [analyse, hread] at ho
    dsimp only at ho
    rw [show e.rounds (fix.getD e.fix) e.maxPasses (.start d calls) = (p, some error) from
      Prod.ext hp.symm herror] at ho
    rw [ho] at hf
    cases hf
  | none =>
    obtain ⟨hchanges, hiff⟩ := mem_unresolved_iff (f := f) hgrammar hread hrules hprint fix calls ho
      (Prod.ext hp.symm herror)
    obtain ⟨hseen, hissue, hkey⟩ := hiff.1 hf
    rw [hchanges]
    exact hremaining.reported_iff hgrammar hread hrules hseen hissue hkey

end Analysis

end Engine

/-! ### A component that is declared twice -/

namespace Concrete

/-- The tree of two declarations of one component, with an attribute on the second that cannot get its
other spelling. -/
def redeclaredComponent : Concrete :=
  rule "program" 0 64 none
    [rule "variable_declaration" 0 23 none
      [token "var" 0 3,
        rule "variable_declarator" 4 22 none
          [rule "identifier" 4 8 (some "name") [], token "=" 9 10,
            rule "arrow_function" 11 22 (some "value")
              [rule "formal_parameters" 11 13 (some "parameters") [token "(" 11 12, token ")" 12 13],
                token "=>" 14 16,
                rule "jsx_self_closing_element" 17 22 (some "body")
                  [token "<" 17 18, rule "identifier" 18 19 (some "name") [], token "/>" 20 22]]],
        token ";" 22 23],
      rule "variable_declaration" 24 63 none
        [token "var" 24 27,
          rule "variable_declarator" 28 62 none
            [rule "identifier" 28 32 (some "name") [], token "=" 33 34,
              rule "arrow_function" 35 62 (some "value")
                [rule "formal_parameters" 35 37 (some "parameters")
                    [token "(" 35 36, token ")" 36 37],
                  token "=>" 38 40,
                  rule "jsx_self_closing_element" 41 62 (some "body")
                    [token "<" 41 42, rule "identifier" 42 43 (some "name") [],
                      rule "jsx_attribute" 44 49 (some "attribute")
                        [rule "property_identifier" 44 49 none []],
                      rule "jsx_attribute" 50 59 (some "attribute")
                        [rule "property_identifier" 50 59 none []],
                      token "/>" 60 62]]],
          token ";" 62 63]]

end Concrete

namespace Engine

/-- All rules at work on `Concrete.redeclaredComponent`. -/
def redeclared : Engine :=
  ⟨Rule.all, fun _ _ => Concrete.redeclaredComponent, .none, true, 3⟩

/-- The text of `Concrete.redeclaredComponent`. -/
def redeclaredText : String :=
  "var card = () => <b />;\nvar card = () => <i class className />;\n"

theorem redeclared_suits : redeclared.grammar.Suits "A.jsx" redeclaredText :=
  ⟨by decide +kernel, by decide +kernel, by decide +kernel, by decide +kernel, by decide +kernel⟩

/-- The second declaration gets its new name by the change for the first one. Its finding is
unresolved, and no rule reports it in the tree that is left. -/
theorem redeclared_gone : ∃ d p o, Document.read redeclared.grammar "A.jsx" redeclaredText = .ok d ∧
    p = (redeclared.rounds true 3 (.start d .none)).1 ∧
    o = (redeclared.analyse "A.jsx" redeclaredText none .none).1 ∧ o.changes.length = 1 ∧
    ¬∀ f ∈ o.unresolved, ∃ rule ∈ redeclared.rules, rule.id = f.rule ∧
      ∃ g ∈ rule.detect (.ofDocument p.document) p.document.root.walk, g.key = f.key := by
  have hfacts : (Document.read redeclared.grammar "A.jsx" redeclaredText).map (fun d =>
      let p := (redeclared.rounds true 3 (.start d .none)).1
      p.changes.length == 1 && p.seen.any fun f =>
        f.isIssue && p.changes.all (·.finding.key != f.key) && redeclared.rules.all fun rule =>
          (rule.detect (.ofDocument p.document) p.document.root.walk).all (·.key != f.key)) =
        .ok true := by decide +kernel
  obtain ⟨d, hread, hvalues⟩ := Reading.map_eq_ok.1 hfacts
  obtain ⟨hlength, hvalues⟩ := Bool.and_eq_true_iff.1 hvalues
  obtain ⟨f, hf, hvalues⟩ := List.any_eq_true.1 hvalues
  simp only [Bool.and_eq_true, List.all_eq_true, bne_iff_ne] at hvalues
  obtain ⟨⟨hissue, hkey⟩, hnone⟩ := hvalues
  obtain ⟨hchanges, hiff⟩ := mem_unresolved_iff (f := f) redeclared_suits hread (List.Subset.refl _)
    rfl none .none rfl (rounds_eq (fun _ => rfl) true 3 _)
  refine ⟨d, _, _, hread, rfl, rfl, by rw [hchanges, beq_iff_eq.1 hlength], fun hall => ?_⟩
  obtain ⟨rule, hrule, -, g, hg, hgf⟩ := hall f (hiff.2 ⟨hf, hissue, hkey⟩)
  exact hnone rule hrule g hg hgf

/-- Of the two findings that are unresolved, the one about the attribute is reported again, and the
one about the name is not. -/
theorem redeclared_unresolved : ∃ d p o f g,
    Document.read redeclared.grammar "A.jsx" redeclaredText = .ok d ∧
    p = (redeclared.rounds true 3 (.start d .none)).1 ∧
    o = (redeclared.analyse "A.jsx" redeclaredText none .none).1 ∧
    f ∈ o.unresolved ∧ f.rule = "reserved-prop" ∧
    (∃ rule ∈ redeclared.rules, rule.id = f.rule ∧
      ∃ g ∈ rule.detect (.ofDocument p.document) p.document.root.walk, g.key = f.key) ∧
    g ∈ o.unresolved ∧ g.rule = "component-naming" ∧ d.BindingRenamed o.changes g.node ∧
    ¬∃ rule ∈ redeclared.rules, rule.id = g.rule ∧
      ∃ k ∈ rule.detect (.ofDocument p.document) p.document.root.walk, k.key = g.key := by
  have hfacts : (Document.read redeclared.grammar "A.jsx" redeclaredText).map (fun d =>
      let p := (redeclared.rounds true 3 (.start d .none)).1
      let l := p.seen.filter fun f => f.isIssue && p.changes.all (·.finding.key != f.key)
      l.any (·.rule == "reserved-prop") && l.any fun g =>
        g.rule == "component-naming" && p.changes.any fun c =>
          c.rule == "component-naming" &&
            (ScopeTable.resolve d.root).declaration? g.node == some c.finding.node) = .ok true := by
    decide +kernel
  obtain ⟨d, hread, hvalues⟩ := Reading.map_eq_ok.1 hfacts
  have hrounds := rounds_eq (e := redeclared) (fun _ => rfl) true 3 (.start d .none)
  generalize hp : (redeclared.rounds true 3 (.start d .none)).1 = p at hvalues hrounds
  generalize ho : (redeclared.analyse "A.jsx" redeclaredText none .none).1 = o
  have hunresolved := fun f => mem_unresolved_iff (f := f) redeclared_suits hread
    (List.Subset.refl _) rfl none .none ho.symm hrounds
  have hiff := fun f hf => analyse_unresolved (f := f) redeclared_suits hread (List.Subset.refl _)
    rfl none .none ho.symm hp.symm hf
  simp only [Bool.and_eq_true, List.any_eq_true, List.mem_filter, List.all_eq_true, bne_iff_ne,
    beq_iff_eq] at hvalues
  obtain ⟨⟨f, hf, hrule⟩, g, hg, hname, c, hc, hrenamed⟩ := hvalues
  have hrenamed : d.BindingRenamed o.changes g.node :=
    ⟨c, by rw [(hunresolved g).1]; exact hc, hrenamed⟩
  have hf := (hunresolved f).2.2 hf
  have hg := (hunresolved g).2.2 hg
  refine ⟨d, p, o, f, g, hread, hp.symm, rfl, hf, hrule, (hiff f hf).2 ?_, hg, hname, hrenamed,
    fun h => (hiff g hg).1 h ⟨hname, hrenamed⟩⟩
  rintro ⟨h, -⟩
  exact absurd (hrule.symm.trans h) (by decide)

end Engine
end JsxLint
