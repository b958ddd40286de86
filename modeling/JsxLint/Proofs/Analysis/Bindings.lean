import JsxLint.Proofs.Analysis.Rounds
import JsxLint.Proofs.Reading.WellFormed
import JsxLint.Proofs.Rule.Alteration

/-!
# Names through all rounds

No repair changes what an identifier of the source refers to, in whatever order the rules come and
however often they are run.

* `Document.Kept`: documents that agree on what the nodes of the first refer to;
* `Engine.rounds_declaration?`: all rounds keep what names refer to.
-/

namespace JsxLint

open Node

/-! ### Documents that agree -/

namespace Document

variable {d d' d'' : Document}

/-- Whether a document follows another one and agrees with it on what nodes refer to that were
there. -/
structure Kept (d d' : Document) : Prop where
  formed : d'.WellFormed
  follows : d.Follows d'
  node : ∀ m ∈ d'.root.walk, m.id < d.fresh →
    (ScopeTable.resolve d'.root).declaration? m.id = (ScopeTable.resolve d.root).declaration? m.id

theorem Kept.refl (h : d.WellFormed) : d.Kept d :=
  ⟨h, .refl d, fun _ _ _ => rfl⟩

/-- Documents that agree give identifiers the same declaration. -/
theorem Kept.declaration? (h : d.Kept d') (u : Use) (hu : u ∈ d'.uses)
    (hlt : u.identifier < d.fresh) : (ScopeTable.resolve d'.root).declaration? u.identifier =
      (ScopeTable.resolve d.root).declaration? u.identifier := by
  obtain ⟨above, m, hp, -, hid, -⟩ := exists_of_mem_uses hu
  exact hid ▸ h.node m hp.mem_walk (hid ▸ hlt)

theorem Kept.trans (h : d.Kept d') (h' : d'.Kept d'') : d.Kept d'' where
  formed := h'.formed
  follows := h.follows.trans h'.follows
  node m hm hlt := by
    have hlt' := Nat.lt_of_lt_of_le hlt h.follows.fresh
    obtain ⟨l, hl, he, -⟩ := h'.follows.node m hm hlt'
    rw [h'.node m hm hlt', ← he, h.node l hl (he ▸ hlt)]

/-- The repairs of a round keep what names refer to. -/
theorem kept_of_repairs {rules : List Rule} {new : List (Rule × Finding)} {changes : List Change}
    {w : Workspace} (hd : d.WellFormed) (hrules : rules ⊆ Rule.all)
    (hnew : ∀ x ∈ new, x.1 ∈ rules ∧ x.2 ∈ x.1.detect (.ofDocument d) d.root.walk)
    (h : Engine.Repairs (.ofDocument d) new changes w) : d.Kept w.document := by
  have hsound := Workspace.sound_ofDocument hd
  have hstep : Workspace.Step d.fresh (.ofDocument d) w := by
    refine h.invariant (I := Workspace.Step d.fresh (.ofDocument d)) ?_ (.refl hsound)
    intro x hx repair hr v hv change v' hok
    obtain ⟨hrule, hf⟩ := hnew x hx
    exact hv.trans (Rule.repair_step hd (hrules hrule) hr hf hv hok)
  refine ⟨hstep.sound.formed, hstep.follows, fun m hm hlt => ?_⟩
  have hfresh := Workspace.sound_ofDocument hstep.sound.formed
  have hcongr := hstep.sound.declaration?_node hfresh rfl hm hlt
    (Nat.lt_of_lt_of_le hlt hstep.follows.fresh)
  exact hcongr.trans (hstep.declaration? m.id hlt)

end Document

/-! ### All rounds -/

namespace ScopeTable.Lists

variable {t : ScopeTable} {ds : List Declaration} {i j : NodeId}

/-- Identifiers belong to one binding just when they have one declaration. -/
theorem bindingOf?_eq_iff (h : t.Lists ds) :
    t.bindingOf? i = t.bindingOf? j ↔ t.declaration? i = t.declaration? j := by
  refine ⟨fun he => by rw [declaration?, declaration?, he], fun he => ?_⟩
  have hback : ∀ {i k : NodeId}, t.declaration? i = some k → t.bindingOf? k = t.bindingOf? i := by
    intro i k hk
    obtain ⟨b, hb, hk⟩ := Option.bind_eq_some_iff.1 hk
    obtain ⟨B, hB, rfl⟩ := Option.map_eq_some_iff.1 hk
    rw [hb]
    exact (h.member B.declaration b).2 ⟨B, hB, .inl rfl⟩
  cases hi : t.declaration? i with
  | none => rw [h.declaration?_eq_none.1 hi, h.declaration?_eq_none.1 (he ▸ hi)]
  | some k => rw [← hback hi, ← hback (he.symm.trans hi)]

end ScopeTable.Lists

namespace Engine

variable {e : Engine} {path text : String} {d : Document}

/-- All rounds keep what the identifiers of the source refer to that are still there: each has the
declaration that it had, or still has none, and two belong to one binding just when they did. -/
theorem rounds_declaration? (hg : (e.grammar (.ofPath path) text).TagsPlain)
    (hread : Document.read e.grammar path text = .ok d) (hrules : e.rules ⊆ Rule.all) (fix : Bool)
    (n : Nat) (calls : Calls) {d' : Document}
    (hd : d' = (e.rounds fix n (.start d calls)).1.document) {m : Node} (hm : m ∈ d.root.walk)
    (hi : m.label.isIdentifier) (hm' : m.id ∈ d'.root.ids) :
    (ScopeTable.resolve d'.root).declaration? m.id =
        (ScopeTable.resolve d.root).declaration? m.id ∧
      (m.id ∈ (ScopeTable.resolve d'.root).unresolved ↔
        (ScopeTable.resolve d'.root).declaration? m.id = none) ∧
      (m.id ∈ (ScopeTable.resolve d.root).unresolved ↔
        (ScopeTable.resolve d.root).declaration? m.id = none) ∧
      ∀ k ∈ d.root.walk, k.label.isIdentifier → k.id ∈ d'.root.ids →
        ((ScopeTable.resolve d'.root).bindingOf? m.id = (ScopeTable.resolve d'.root).bindingOf? k.id ↔
          (ScopeTable.resolve d.root).bindingOf? m.id =
            (ScopeTable.resolve d.root).bindingOf? k.id) := by
  have hformed := Reading.read_wellFormed hg hread
  have hkept : d.Kept d' := by
    rw [hd]
    refine rounds_invariant (I := d.Kept) (fun d₁ h₁ new changes w' hnew hr => ?_) fix n
      (.refl hformed)
    exact h₁.trans (Document.kept_of_repairs h₁.formed hrules hnew hr)
  have huse : ∀ k ∈ d.root.walk, k.label.isIdentifier → k.id ∈ d'.root.ids →
      ∃ u ∈ d'.uses, u.identifier = k.id ∧ u.identifier < d.fresh := by
    intro k hk hki hk'
    have hlt := hformed.root.lt_fresh _ (id_mem_ids hk)
    obtain ⟨k', hkw, hid⟩ := mem_ids.1 hk'
    obtain ⟨l, hl, hlid, hform, -⟩ := hkept.follows.node k' hkw (hid ▸ hlt)
    cases eq_of_id_eq hformed.root.nodup hl hk (hlid.trans hid)
    rw [Label.isIdentifier_iff, ← hform, ← Label.isIdentifier_iff] at hki
    obtain ⟨u, hu, he, -⟩ := Document.exists_use hkw hki
    exact ⟨u, hu, he.trans hid, (he.trans hid) ▸ hlt⟩
  have hsame : ∀ k ∈ d.root.walk, k.label.isIdentifier → k.id ∈ d'.root.ids →
      (ScopeTable.resolve d'.root).declaration? k.id =
        (ScopeTable.resolve d.root).declaration? k.id := by
    intro k hk hki hk'
    obtain ⟨u, hu, he, hlt⟩ := huse k hk hki hk'
    exact he ▸ hkept.declaration? u hu hlt
  have hsound := Workspace.sound_ofDocument hformed
  have hsound' := Workspace.sound_ofDocument hkept.formed
  refine ⟨hsame m hm hi hm', ?_, ?_, fun k hk hki hk' => ?_⟩
  · obtain ⟨u, hu, he, hlt⟩ := huse m hm hi hm'
    exact he ▸ hsound'.unresolved_iff hu (Nat.lt_of_lt_of_le hlt hkept.follows.fresh)
  · obtain ⟨u, hu, he, -⟩ := Document.exists_use hm hi
    exact he ▸ hsound.unresolved_iff hu (he ▸ hformed.root.lt_fresh _ (id_mem_ids hm))
  · have h1 := hsound'.lists.bindingOf?_eq_iff (i := m.id) (j := k.id)
    have h2 := hsound.lists.bindingOf?_eq_iff (i := m.id) (j := k.id)
    rw [show (Workspace.ofDocument d').scopes.declaration? m.id = _ from hsame m hm hi hm',
      show (Workspace.ofDocument d').scopes.declaration? k.id = _ from hsame k hk hki hk'] at h1
    exact h1.trans h2.symm

end Engine

/-! ### A list without keys -/

namespace Concrete

/-- The tree of `const app = () => <b />;` and `items.map(x => <i />);` on two lines. -/
def keylessList : Concrete :=
  rule "program" 0 48 none
    [rule "lexical_declaration" 0 24 none
      [token "const" 0 5,
        rule "variable_declarator" 6 23 none
          [rule "identifier" 6 9 (some "name") [], token "=" 10 11,
            rule "arrow_function" 12 23 (some "value")
              [rule "formal_parameters" 12 14 (some "parameters") [token "(" 12 13, token ")" 13 14],
                token "=>" 15 17,
                rule "jsx_self_closing_element" 18 23 (some "body")
                  [token "<" 18 19, rule "identifier" 19 20 (some "name") [], token "/>" 21 23]]],
        token ";" 23 24],
      rule "expression_statement" 25 47 none
        [rule "call_expression" 25 46 none
          [rule "member_expression" 25 34 (some "function")
              [rule "identifier" 25 30 (some "object") [], token "." 30 31,
                rule "property_identifier" 31 34 (some "property") []],
            rule "arguments" 34 46 (some "arguments")
              [token "(" 34 35,
                rule "arrow_function" 35 45 none
                  [rule "identifier" 35 36 (some "parameter") [], token "=>" 37 39,
                    rule "jsx_self_closing_element" 40 45 (some "body")
                      [token "<" 40 41, rule "identifier" 41 42 (some "name") [],
                        token "/>" 43 45]],
                token ")" 45 46]],
          token ";" 46 47]]

end Concrete

namespace Engine

/-- All rules at work on `Concrete.keylessList`. -/
def keyless : Engine :=
  ⟨Rule.all, fun _ _ => Concrete.keylessList, .none, true, 3⟩

/-- The text of `Concrete.keylessList`. -/
def keylessText : String :=
  "const app = () => <b />;\nitems.map(x => <i />);\n"

/-- A new key and a new name of a component leave every identifier its declaration. -/
theorem keyless_declaration? : ∃ d, Document.read keyless.grammar "A.jsx" keylessText = .ok d ∧
    (keyless.rounds true 3 (.start d .none)).1.changes.map (·.rule) =
      ["missing-key", "component-naming"] ∧
    ∀ m ∈ d.root.walk, m.label.isIdentifier →
      m.id ∈ (keyless.rounds true 3 (.start d .none)).1.document.root.ids →
        (ScopeTable.resolve (keyless.rounds true 3 (.start d .none)).1.document.root).declaration?
          m.id = (ScopeTable.resolve d.root).declaration? m.id := by
  have hrules : (Document.read keyless.grammar "A.jsx" keylessText).map
      (fun d => (keyless.rounds true 3 (.start d .none)).1.changes.map (·.rule)) =
        .ok ["missing-key", "component-naming"] := by decide +kernel
  obtain ⟨d, hd, hchanges⟩ := Reading.map_eq_ok.1 hrules
  exact ⟨d, hd, hchanges, fun m hm hi hm' => (rounds_declaration? (by decide +kernel) hd
    (List.Subset.refl _) true 3 .none rfl hm hi hm').1⟩

end Engine
end JsxLint
