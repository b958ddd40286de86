import JsxLint.Proofs.Reading.WellFormed
import JsxLint.Proofs.Rule.Alteration

/-!
# The names of tags that are read

The names of tags that refer to something start with a capital letter, when the grammar puts nothing
but a name there: other plain names are those of intrinsic tags.

* `Concrete.TagsNamed`: what a grammar promises of the names of opening tags;
* `Reading.read_tagsHaveNames`: opening tags that are read have a name;
* `Reading.read_tagsCapital`: the names of tags that are read as identifiers are capital;
* `Reading.read_tagsBare`: closing tags that are read hold names and nothing else.
-/

namespace JsxLint

/-! ### Opening tags -/

/-- The opening tag of an element. -/
def Concrete.openingTag? (c : Concrete) : Option Concrete :=
  if c.kind = "jsx_element" then Reading.openTag? c
  else if c.kind = "jsx_self_closing_element" then some c
  else none

/-- What a grammar promises of the opening tag of a node, when it is an element. -/
def Concrete.TagNamed (c : Concrete) : Prop :=
  ∀ tag ∈ c.openingTag?, ∀ name ∈ tag.field? "name", name.kind ∈ tagNameKinds

/-- What a grammar promises of opening tags: names of some kinds only. -/
def Concrete.TagsNamed (c : Concrete) : Prop :=
  ∀ b ∈ c.walk, b.TagNamed

instance (c : Concrete) : Decidable c.TagNamed :=
  inferInstanceAs (Decidable (∀ tag ∈ c.openingTag?, ∀ name ∈ tag.field? "name",
    name.kind ∈ tagNameKinds))

instance (c : Concrete) : Decidable c.TagsNamed :=
  inferInstanceAs (Decidable (∀ b ∈ c.walk, b.TagNamed))

namespace Reading

open Concrete

variable {s : Source} {b c tag : Concrete} {p q : Part} {n m : Node} {selfClosing : Bool}

/-- The opening tags among the parts of a node are those of elements. -/
theorem nodeOutline_opening (h : .opening selfClosing tag ∈ (nodeOutline s c).2) :
    tag ∈ c.openingTag? := by
  rcases mem_nodeOutline h with ⟨-, name, h, -⟩ | ⟨-, hp⟩
  · cases h
  · cases hp with
    | opening hk h => rw [openingTag?, if_pos hk, h]; rfl
    | selfClosing hk => rw [openingTag?, hk]; rfl

/-- Only opening tags and attributes are read under the labels of tags. -/
theorem kind_of_tagged (h : (nodeOutline s c).1.isTagged) : c.kind = "jsx_attribute" := by
  rw [nodeOutline] at h
  split at h
  case h_32 hk => exact hk
  case h_17 =>
    rw [binaryOutline] at h
    split at h <;> cases h
  case h_18 =>
    rw [parenthesizedOutline] at h
    split at h <;> cases h
  case h_24 =>
    rw [exportOutline] at h
    split at h <;> cases h
  case h_25 =>
    rw [specifierOutline.eq_def] at h
    split at h
    · cases h
    · split at h <;> cases h
  case h_29 =>
    rw [elementOutline.eq_def] at h
    split at h <;> cases h
  all_goals cases h

/-- Whether a part, when it is an opening tag, has a name as grammars promise it. -/
def Part.Named (p : Part) : Prop :=
  ∀ selfClosing tag, p = .opening selfClosing tag →
    ∀ name ∈ tag.field? "name", name.kind ∈ tagNameKinds

theorem tagPart_cases (s : Source) (c : Concrete) :
    tagPart s c = .node c ∨ tagPart s c = .markupName c := by
  rw [tagPart]
  split_ifs <;> simp

/-- Whether a part is an opening tag or a closing tag. -/
def Part.isTag : Part → Bool
  | .opening .. | .closing _ => true
  | _ => false

/-- The tags among the parts of a part are those of a node. -/
theorem exists_nodeOutline (hq : q ∈ (p.outline s).2) (ht : q.isTag) :
    ∃ b ∈ p.nodes, q ∈ (nodeOutline s b).2 := by
  have hnodes : ∀ cs : List Concrete, q ∉ cs.map Part.node := fun cs hq => by
    obtain ⟨b, -, rfl⟩ := List.mem_map.1 hq
    cases ht
  have htag : ∀ o : Option Concrete, q ∉ o.toList.map (tagPart s) := fun o hq => by
    obtain ⟨b, -, rfl⟩ := List.mem_map.1 hq
    rcases tagPart_cases s b with h | h <;> rw [h] at ht <;> cases ht
  cases p with
  | node b => exact ⟨b, List.mem_cons_self, hq⟩
  | className n b =>
    rw [Part.outline] at hq
    split_ifs at hq
    · exact ⟨b, List.mem_cons_of_mem _ List.mem_cons_self, hq⟩
    · cases hq
  | parameters b =>
    rw [Part.outline] at hq
    split_ifs at hq
    · exact absurd hq (hnodes _)
    · cases List.mem_singleton.1 hq
      cases ht
  | opening closing b =>
    rcases List.mem_append.1 hq with hq | hq
    · exact absurd hq (htag _)
    · obtain ⟨a, -, ha⟩ := List.mem_filterMap.1 hq
      rw [attributePart] at ha
      split_ifs at ha
      · cases ha
        cases ht
      · split at ha <;> cases ha <;> cases ht
  | closing b => exact absurd hq (htag _)
  | spread b inner =>
    have hq := List.mem_singleton.1 hq
    split at hq <;> cases hq <;> cases ht
  | _ => cases hq

/-- The opening tags among the parts of a part have names as grammars promise them. -/
theorem outline_named {root : Concrete} (hroot : root.TagsNamed) (hp : p.Among (· ∈ root.walk)) :
    ∀ q ∈ (p.outline s).2, q.Named := by
  rintro q hq selfClosing tag rfl
  obtain ⟨b, hb, hq⟩ := exists_nodeOutline hq rfl
  exact hroot b (hp b hb) tag (nodeOutline_opening hq)

/-- An attribute is read as no identifier. -/
theorem attribute_not_identifier (hq : attributePart c = some q) (h : ReadAs s q n) :
    n.label.isIdentifier = false := by
  rw [h.label_eq]
  rw [attributePart] at hq
  split_ifs at hq with hk hk
  · cases hq
    rw [Part.outline, nodeOutline.eq_def, hk]
    rfl
  · cases hq
    split
    · rw [Part.outline, nodeOutline.eq_def, hk]
      rfl
    · rfl

/-- The name of a tag is read as an identifier only when it starts with a capital letter. -/
theorem tagPart_capital (hc : c.kind ∈ tagNameKinds) (h : ReadAs s (tagPart s c) n)
    (hi : n.label.isIdentifier) : Letter.startsUpper n.text := by
  rw [Node.text, h.label_eq]
  rw [h.label_eq] at hi
  clear h
  rw [tagPart] at hi ⊢
  split_ifs at hi ⊢ with hk hu hk'
  · rw [Part.outline, nodeOutline.eq_def, hk]
    exact hu
  · cases hi
  · cases hi
  · exfalso
    simp only [tagNameKinds, List.mem_cons, List.not_mem_nil, or_false] at hc
    rw [Part.outline, nodeOutline.eq_def] at hi
    rcases hc with h | h | h | h | h | h | h | h | h <;> rw [h] at hi <;>
      first | exact hk h | exact Bool.false_ne_true hi

/-- Opening tags that are read have a name. -/
theorem read_tagsHaveNames {grammar : Grammar} {path text : String} {d : Document}
    (h : Document.read grammar path text = .ok d) : d.root.TagsHaveNames := by
  intro m hm hform
  obtain ⟨q, -, hq⟩ := (read_readAs h).2.exists_part (I := fun _ => True) (fun _ _ _ _ => trivial)
    trivial hm
  exact hq.opening_children hform

/-- The names of tags that are read as identifiers start with a capital letter. -/
theorem read_tagsCapital {grammar : Grammar} {path text : String} {d : Document}
    (hc : (grammar (.ofPath path) text).TagsNamed)
    (h : Document.read grammar path text = .ok d) : d.root.TagsCapital := by
  have hr := (read_readAs h).2
  generalize hroot : grammar (.ofPath path) text = root at hc hr
  have hwalk := downward_walk root
  intro m hm htag c hcm hi
  obtain ⟨q, ⟨hin, hnamed⟩, hq⟩ := hr.exists_part
    (I := fun p => p.Among (· ∈ root.walk) ∧ p.Named)
    (fun p hp q hq => ⟨outline_among hwalk hp.1 q hq, outline_named hc hp.1 q hq⟩)
    ⟨among_node (Concrete.self_mem_walk _), fun _ _ h => by cases h⟩ hm
  have hl := hq.label_eq
  rw [hl] at htag
  obtain ⟨_, hk⟩ := hq
  cases q with
  | node b =>
    rw [Part.outline, nodeOutline.eq_def, kind_of_tagged htag] at hk
    cases hs : b.significant with
    | nil =>
      rw [hs] at hk
      cases hk
      cases hcm
    | cons name rest =>
      rw [hs] at hk
      cases hk with
      | cons hname _ =>
        cases hcm
        rw [hname.label_eq] at hi
        cases hi
  | className n b =>
    rw [Part.outline] at htag
    split_ifs at htag with hn
    · simp [isNamed, kind_of_tagged htag, nameKinds] at hn
    · cases htag
  | opening selfClosing tag =>
    rw [Part.outline] at hk
    dsimp only at hk
    cases ht : tag.field? "name" with
    | some name =>
      rw [ht] at hk
      cases hk with
      | cons hname _ =>
        cases hcm
        exact tagPart_capital (hnamed selfClosing tag rfl name ht) hname hi
    | none =>
      rw [ht] at hk
      obtain ⟨p, hp, hpc⟩ := exists_of_forall₂ hk (List.mem_of_mem_head? hcm)
      obtain ⟨b, -, hb⟩ := List.mem_filterMap.1 hp
      rw [attribute_not_identifier hb hpc] at hi
      cases hi
  | parameters b =>
    rw [Part.outline] at htag
    split_ifs at htag <;> cases htag
  | _ => cases htag

/-! ### Closing tags -/

/-- The closing tags among the parts of a node are those of elements. -/
theorem nodeOutline_closing (h : .closing tag ∈ (nodeOutline s c).2) :
    c.kind = "jsx_element" ∧ tag ∈ closeTag? c := by
  rcases mem_nodeOutline h with ⟨-, name, h, -⟩ | ⟨-, hp⟩
  · cases h
  · cases hp with
    | closing hk h => exact ⟨hk, h⟩

/-- Only closing tags are read as closing tags. -/
theorem closing_of_label (h : (p.outline s).1 = .closingTag) : ∃ tag, p = .closing tag := by
  have hnode : ∀ c, (nodeOutline s c).1 ≠ .closingTag := fun c hc =>
    absurd (@kind_of_form s c ["JSXClosingElement"] [] (by rw [hc]; decide) (by decide) (by decide))
      List.not_mem_nil
  cases p with
  | closing tag => exact ⟨tag, rfl⟩
  | node c => exact absurd h (hnode c)
  | className m c =>
    rw [Part.outline] at h
    split_ifs at h
    exact absurd h (hnode c)
  | parameters c =>
    rw [Part.outline] at h
    split_ifs at h
  | _ => cases h

/-- Whether a part, when it is a closing tag, has a name as grammars promise it. -/
def Part.ClosesPlain (p : Part) : Prop :=
  ∀ tag, p = .closing tag → ∀ name ∈ tag.field? "name", ∀ a ∈ name.walk, a.kind ∈ tagNameKinds

/-- The closing tags among the parts of a part have names as grammars promise them. -/
theorem outline_closesPlain {root : Concrete} (hroot : root.TagsPlain)
    (hp : p.Among (· ∈ root.walk)) : ∀ q ∈ (p.outline s).2, q.ClosesPlain := by
  rintro q hq tag rfl
  obtain ⟨b, hb, hq⟩ := exists_nodeOutline hq rfl
  obtain ⟨hk, ht⟩ := nodeOutline_closing hq
  exact hroot b (hp b hb) hk tag ht

/-- Closing tags that are read hold names and nothing else. -/
theorem read_tagsBare {grammar : Grammar} {path text : String} {d : Document}
    (hc : (grammar (.ofPath path) text).TagsPlain)
    (h : Document.read grammar path text = .ok d) : d.root.TagsBare := by
  have hwalk := downward_walk (grammar (.ofPath path) text)
  intro m hm hl
  obtain ⟨q, ⟨-, hplain⟩, hq⟩ := (read_readAs h).2.exists_part
    (I := fun p => p.Among (· ∈ (grammar (.ofPath path) text).walk) ∧ p.ClosesPlain)
    (fun p hp q hq => ⟨outline_among hwalk hp.1 q hq, outline_closesPlain hc hp.1 q hq⟩)
    ⟨among_node (Concrete.self_mem_walk _), fun _ h => by cases h⟩ hm
  obtain ⟨tag, rfl⟩ := closing_of_label (hq.label_eq ▸ hl)
  exact closing_bare hq (hplain tag rfl)

end Reading
end JsxLint
