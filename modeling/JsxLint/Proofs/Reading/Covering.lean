import JsxLint.Proofs.Reading.Kept

/-!
# The names that reading reaches

The parts that a node is read from cover the names that it does not lose: a name below the node is
spelled by the node itself or stands below one of the parts, and what a part loses the node loses.

* `spelledBy`: the name that a node is an identifier of;
* `Part.Valid`, `Part.Hides`: where parts stand, and the names that are lost below them;
* `Covers`: parts of a node that cover the names that it does not lose;
* `nodeOutline_covers`: the parts of every node cover it.
-/

namespace JsxLint.Reading

open Concrete

/-! ### Spelled names -/

section Spelled

variable {s : Source} {c x : Concrete} {p : Part}

/-- The name that a node is an identifier of. -/
def spelledBy (c : Concrete) : Option Concrete :=
  if c.isName then some c
  else if c.kind = "export_specifier" ∧ (c.field? "alias").isNone then
    (c.field? "name").filter (·.kind == "identifier")
  else none

/-- The name that a part is an identifier of. -/
def Part.spelled? : Part → Option Concrete
  | .node c => spelledBy c
  | .name c => some c
  | .className named c => if isNamed c then spelledBy c else some named
  | _ => none

theorem isName_iff : c.isName ↔ c.kind = "identifier" ∨ c.kind = "shorthand_property_identifier" ∨
    c.kind = "shorthand_property_identifier_pattern" := by
  rw [isName, nameKinds]
  simp

theorem nodeOutline_of_isName (h : c.isName) :
    ∃ shorthand, nodeOutline s c = (.identifier (textOf s c) (textOf s c) shorthand, []) := by
  rcases isName_iff.1 h with hk | hk | hk <;> exact ⟨_, by rw [nodeOutline]; simp only [hk]; rfl⟩

theorem nodeOutline_of_spelledBy (h : spelledBy c = some x) :
    ∃ shorthand, nodeOutline s c = (.identifier (textOf s x) (textOf s x) shorthand, []) := by
  rw [spelledBy] at h
  split_ifs at h with hn hk
  · cases h
    exact nodeOutline_of_isName hn
  · refine ⟨some .exported, ?_⟩
    rw [nodeOutline_specifier hk.1, specifierOutline, h]
    dsimp only
    rw [if_pos hk.2]

/-- A part that spells a name has its label. -/
theorem Part.outline_of_spelled? (h : p.spelled? = some x) :
    ∃ shorthand, (p.outline s).1 = .identifier (textOf s x) (textOf s x) shorthand := by
  cases p with
  | node c =>
    obtain ⟨shorthand, ho⟩ := nodeOutline_of_spelledBy (s := s) h
    exact ⟨shorthand, congrArg Prod.fst ho⟩
  | name c => cases h; exact ⟨none, rfl⟩
  | className named c =>
    rw [Part.spelled?] at h
    rw [Part.outline]
    split_ifs at h ⊢
    · obtain ⟨shorthand, ho⟩ := nodeOutline_of_spelledBy (s := s) h
      exact ⟨shorthand, congrArg Prod.fst ho⟩
    · cases h
      exact ⟨none, rfl⟩
  | _ => cases h

theorem spelledBy_of_isNamed (h : isNamed c) : ∃ x, spelledBy c = some x := by
  rw [spelledBy]
  split_ifs with hn hk
  · exact ⟨c, rfl⟩
  · rw [isNamed, show nameKinds.contains c.kind = c.isName from rfl, Bool.eq_false_iff.2 hn] at h
    simp only [Bool.false_or, Bool.and_eq_true] at h
    exact Option.isSome_iff_exists.1 h.1.2
  · rw [isNamed, show nameKinds.contains c.kind = c.isName from rfl, Bool.eq_false_iff.2 hn] at h
    simp only [Bool.false_or, Bool.and_eq_true, beq_iff_eq] at h
    exact absurd ⟨h.1.1, h.2⟩ hk

/-- Only parts that spell a name have the label of an identifier. -/
theorem Part.spelled?_of_isIdentifier (h : (p.outline s).1.isIdentifier) :
    ∃ x, p.spelled? = some x := by
  cases p with
  | node c => exact spelledBy_of_isNamed (by rwa [← isIdentifier_nodeOutline (s := s)])
  | name c => exact ⟨c, rfl⟩
  | className named c =>
    rw [Part.spelled?]
    split_ifs with hn
    · exact spelledBy_of_isNamed hn
    · exact ⟨named, rfl⟩
  | parameters c =>
    rw [Part.outline] at h
    split_ifs at h <;> cases h
  | _ => cases h

end Spelled

/-! ### Covered names -/

section Covered

variable {s : Source} {b c x : Concrete} {p q : Part} {qs : List Part} {sp : Option Concrete}

/-- Whether a part is read where its kind may stand. -/
def Part.Valid : Part → Prop
  | .node c | .parameters c => c.NamesShaped ∧ parentKinds? c.kind = none
  | .name c => c.NamesShaped ∧ c.isName
  | .className named c => named = c ∧ c.NamesShaped ∧ c.children = []
  | .opening selfClosing c => c.NamesShaped ∧
      c.kind = if selfClosing then "jsx_self_closing_element" else "jsx_opening_element"
  | .closing c => c.NamesShaped ∧ c.kind = "jsx_closing_element"
  | .spread c inner => c.NamesShaped ∧ c.kind = "jsx_expression" ∧
      c.significant.head? = some inner ∧ inner.kind = "spread_element"
  | .markupName _ | .nothing _ | .noParameters => True

/-- Whether reading a part loses a name: names of markup are no names of the program. -/
def Part.Hides (s : Source) : Part → Concrete → Prop
  | .node c, x | .name c, x | .className _ c, x | .parameters c, x | .opening _ c, x
  | .closing c, x | .spread c _, x => c.Loses s x
  | .markupName _, _ | .nothing _, _ | .noParameters, _ => True

/-- Whether a node stands at or below the node that a part is read from. -/
def Part.Holds (p : Part) (x : Concrete) : Prop :=
  ∃ c ∈ p.concrete?, x ∈ c.walk

/-- A part below a node that loses the names that the node loses there. -/
structure Under (s : Source) (c : Concrete) (q : Part) : Prop where
  valid : q.Valid
  inside : ∀ b ∈ q.concrete?, b ∈ c.walk
  hides : ∀ x, x.isName → q.Holds x → (c.Loses s x ↔ q.Hides s x)

/-- Parts below a node that, together with what it spells itself, cover what it does not lose. -/
structure Covers (s : Source) (c : Concrete) (sp : Option Concrete) (qs : List Part) : Prop where
  under : ∀ q ∈ qs, Under s c q
  covered : ∀ x ∈ c.walk, x.isName → ¬c.Loses s x → sp = some x ∨ ∃ q ∈ qs, q.Holds x

/-- A part that is read from a node and loses what the node loses. -/
structure Reads (s : Source) (b : Concrete) (q : Part) : Prop where
  valid : q.Valid
  concrete : q.concrete? = some b
  hides : ∀ x, q.Hides s x ↔ b.Loses s x

theorem Reads.node (h : b.NamesShaped) (hf : parentKinds? b.kind = none) : Reads s b (.node b) :=
  ⟨⟨h, hf⟩, rfl, fun _ => .rfl⟩

theorem Under.trans (h : c.NamesShaped) (hb : b ∈ c.children) (hk : b ∈ c.kept s)
    (hq : Under s b q) : Under s c q := by
  refine ⟨hq.valid, fun a ha => mem_walk.2 (.inr ⟨b, hb, hq.inside a ha⟩), fun x hn hx => ?_⟩
  rw [← hq.hides x hn hx]
  obtain ⟨a, ha, hxa⟩ := hx
  exact loses_kept h hb hk (mem_walk_trans hxa (hq.inside a ha)) hn

theorem Reads.under_self (hq : Reads s b q) : Under s b q := by
  refine ⟨hq.valid, fun a ha => ?_, fun x _ _ => (hq.hides x).symm⟩
  rw [hq.concrete] at ha
  cases ha
  exact b.self_mem_walk

theorem Reads.under (hq : Reads s b q) (h : c.NamesShaped) (hb : b ∈ c.children)
    (hk : b ∈ c.kept s) : Under s c q :=
  hq.under_self.trans h hb hk

theorem under_noParameters : Under s c .noParameters :=
  ⟨trivial, fun _ ha => (by cases ha), fun x _ ⟨_, ha, _⟩ => (by cases ha)⟩

/-- The name of markup at a child that is not kept. -/
theorem under_markupName (hb : b ∈ c.children) (hk : ∀ x ∈ b.walk, x.isName → c.Loses s x) :
    Under s c (.markupName b) := by
  refine ⟨trivial, fun a ha => ?_, fun x hn ⟨a, ha, hx⟩ => ?_⟩
  · cases ha
    exact mem_walk.2 (.inr ⟨b, hb, b.self_mem_walk⟩)
  · cases ha
    exact iff_of_true (hk x hx hn) trivial

/-- Parts that hold what is below the kept children of a node cover it. -/
theorem covers_of_holds (h : c.NamesShaped) (hn : c.isName = false) (hu : ∀ q ∈ qs, Under s c q)
    (hr : ∀ b ∈ c.kept s, b ∈ c.children → ∀ x ∈ b.walk, x.isName → ¬b.Loses s x →
      ∃ q ∈ qs, q.Holds x) : Covers s c sp qs := by
  refine ⟨hu, fun x hx hxn hl => .inr ?_⟩
  rcases mem_walk.1 hx with rfl | ⟨b, hb, hxb⟩
  · rw [hn] at hxn
    cases hxn
  · rw [loses_child h hb hxb hxn, not_or, not_not] at hl
    exact hr b hl.1 hb x hxb hxn hl.2

/-- Parts that are read from the kept children of a node cover it. -/
theorem covers_of_reads (h : c.NamesShaped) (hn : c.isName = false)
    (hu : ∀ q ∈ qs, Under s c q) (hr : ∀ b ∈ c.kept s, ∃ q ∈ qs, q.concrete? = some b) :
    Covers s c sp qs :=
  covers_of_holds h hn hu fun b hb _ _ hx _ _ =>
    let ⟨q, hq, hqb⟩ := hr b hb
    ⟨q, hq, b, hqb, hx⟩

/-- A node whose kept children are read by their kinds. -/
theorem covers_nodes {cs : List Concrete} (h : c.NamesShaped) (hn : c.isName = false)
    (hk : c.kept s = cs) (hs : ∀ b ∈ cs, b ∈ c.children)
    (hf : ∀ b ∈ cs, parentKinds? b.kind = none) : Covers s c sp (cs.map .node) := by
  subst hk
  refine covers_of_reads h hn (fun q hq => ?_) fun b hb => ⟨.node b, List.mem_map_of_mem hb, rfl⟩
  obtain ⟨b, hb, rfl⟩ := List.mem_map.1 hq
  have hc := hs b hb
  exact (Reads.node (h.child hc) (hf b hb)).under h hc hb

/-! ### Places -/

/-- The kinds with parts that stand in some places only. -/
def parents : List String :=
  "jsx_element" :: "jsx_attribute" :: tagKinds ++
    ["import_statement", "import_clause", "named_imports"]

theorem mem_parents_of_parentKinds? {kind : String} {kinds : List String}
    (h : parentKinds? kind = some kinds) : ∀ k ∈ kinds, k ∈ parents := by
  rw [parentKinds?.eq_def] at h
  split at h <;> cases h <;> decide

theorem parentKinds?_child (h : c.NamesShaped) (hc : c.kind ∉ parents) (hb : b ∈ c.children) :
    parentKinds? b.kind = none := by
  cases hk : parentKinds? b.kind with
  | none => rfl
  | some kinds =>
    exact absurd (mem_parents_of_parentKinds? hk _ (h.shape.placed b hb kinds hk)) hc

theorem parentKinds?_content (h : c.NamesShaped) (hc : c.kind = "jsx_element")
    (hb : b ∈ contentOf c) : parentKinds? b.kind = none := by
  obtain ⟨hb, hk⟩ := List.mem_filter.1 hb
  have hp := h.shape.placed b (c.namedChildren_sublist.subset hb)
  rw [hc] at hp
  simp only [Bool.and_eq_true, bne_iff_ne] at hk
  rw [parentKinds?.eq_def] at hp ⊢
  split at hp
  · exact absurd ‹_› hk.1
  · exact absurd ‹_› hk.2
  · exact absurd (hp _ rfl) (by decide)
  · exact absurd (hp _ rfl) (by decide)
  · exact absurd (hp _ rfl) (by decide)
  · exact absurd (hp _ rfl) (by decide)
  · exact absurd (hp _ rfl) (by decide)
  · rfl

/-- The parts of markup that are read by their kinds are no namespaced names. -/
theorem parentKinds?_markup (h : c.NamesShaped) (hc : c.kind ∈ "jsx_attribute" :: tagKinds)
    (hb : b ∈ c.children) (hk : b.kind ≠ "jsx_namespace_name") : parentKinds? b.kind = none := by
  have hp := h.shape.placed b hb
  rw [parentKinds?.eq_def] at hp ⊢
  split at hp
  case h_3 => exact absurd ‹_› hk
  case h_8 => rfl
  all_goals
    rw [List.mem_singleton.1 (hp _ rfl)] at hc
    exact absurd hc (by decide)

theorem parentKinds?_identifier (h : b.kind = "identifier") : parentKinds? b.kind = none := by
  rw [h]
  rfl

/-! ### The parts of each kind -/

theorem mem_filling {fields : List String} :
    b ∈ c.filling fields ↔ ∃ field ∈ fields, c.field? field = some b := by
  simp [filling]

theorem filling_subset {fields : List String} (hb : b ∈ c.filling fields) : b ∈ c.children := by
  obtain ⟨field, -, hf⟩ := mem_filling.1 hb
  exact mem_of_field? hf

theorem map_filling (fields : List String) :
    (c.filling fields).map .node = fields.flatMap (fieldPart c) := by
  rw [filling, List.map_flatMap]
  rfl

/-- Nodes whose kept children may have any kind. -/
theorem covers_children {cs : List Concrete} (h : c.NamesShaped) (hc : c.kind ∉ parents)
    (hn : c.isName = false) (hk : c.kept s = cs) (hs : ∀ b ∈ cs, b ∈ c.children) :
    Covers s c sp (cs.map .node) :=
  covers_nodes h hn hk hs fun b hb => parentKinds?_child h hc (hs b hb)

theorem covers_fields {fields : List String} (h : c.NamesShaped) (hc : c.kind ∉ parents)
    (hn : c.isName = false) (hk : c.kept s = c.filling fields) :
    Covers s c sp (fields.flatMap (fieldPart c)) := by
  rw [← map_filling]
  exact covers_children h hc hn hk fun b => filling_subset

theorem under_fieldPart {field : String} (h : c.NamesShaped) (hc : c.kind ∉ parents)
    (hk : ∀ b, c.field? field = some b → b ∈ c.kept s) (hq : q ∈ fieldPart c field) :
    Under s c q := by
  obtain ⟨b, hb, rfl⟩ := List.mem_map.1 hq
  rw [Option.mem_toList] at hb
  have hm := mem_of_field? hb
  exact (Reads.node (h.child hm) (parentKinds?_child h hc hm)).under h hm (hk b hb)

theorem under_parametersPart {o : Option Concrete} (h : c.NamesShaped) (hc : c.kind ∉ parents)
    (hk : ∀ b ∈ o, b ∈ c.children ∧ b ∈ c.kept s) : Under s c (parametersPart o) := by
  cases o with
  | none => exact under_noParameters
  | some b =>
    obtain ⟨hb, hk⟩ := hk b rfl
    exact Reads.under ⟨⟨h.child hb, parentKinds?_child h hc hb⟩, rfl, fun _ => .rfl⟩ h hb hk

theorem functionOutline_covers (h : c.NamesShaped) (hc : c.kind ∉ parents) (hn : c.isName = false)
    (hk : c.kept s = c.filling ["name", "parameters", "body"]) (label : Bool → Label) :
    Covers s c sp (functionOutline label c).2 := by
  have hm : ∀ field ∈ ["name", "parameters", "body"], ∀ b, c.field? field = some b → b ∈ c.kept s :=
    fun field hf b hb => hk ▸ mem_filling.2 ⟨field, hf, hb⟩
  refine covers_of_reads h hn (fun q hq => ?_) fun b hb => ?_
  · rcases List.mem_append.1 hq with hq | hq
    · exact under_fieldPart h hc (hm "name" (by decide)) hq
    · rcases List.mem_cons.1 hq with rfl | hq
      · exact under_parametersPart h hc fun b hb =>
          ⟨mem_of_field? hb, hm "parameters" (by decide) b hb⟩
      · exact under_fieldPart h hc (hm "body" (by decide)) hq
  · rw [hk, mem_filling] at hb
    obtain ⟨field, hf, hb⟩ := hb
    simp only [List.mem_cons, List.not_mem_nil, or_false] at hf
    rcases hf with rfl | rfl | rfl
    · exact ⟨.node b, by simp [functionOutline, fieldPart, hb], rfl⟩
    · exact ⟨.parameters b, by simp [functionOutline, parametersPart, hb], rfl⟩
    · exact ⟨.node b, by simp [functionOutline, fieldPart, hb], rfl⟩

theorem methodOutline_covers (h : c.NamesShaped) (hc : c.kind ∉ parents) (hn : c.isName = false)
    {o : Option Concrete} (ho : ∀ b ∈ o, b ∈ c.children)
    (hk : c.kept s = o.toList ++ c.filling ["body"]) :
    Covers s c sp (parametersPart o :: fieldPart c "body") := by
  refine covers_of_reads h hn (fun q hq => ?_) fun b hb => ?_
  · rcases List.mem_cons.1 hq with rfl | hq
    · refine under_parametersPart h hc fun b hb => ⟨ho b hb, hk ▸ List.mem_append_left _ ?_⟩
      exact Option.mem_toList.2 hb
    · refine under_fieldPart h hc (fun b hb => hk ▸ List.mem_append_right _ ?_) hq
      exact mem_filling.2 ⟨"body", List.mem_singleton.2 rfl, hb⟩
  · rw [hk] at hb
    rcases List.mem_append.1 hb with hb | hb
    · rw [Option.mem_toList] at hb
      cases hb
      exact ⟨.parameters b, List.mem_cons_self, rfl⟩
    · obtain ⟨field, hf, hb⟩ := mem_filling.1 hb
      cases List.mem_singleton.1 hf
      exact ⟨.node b, List.mem_cons_of_mem _ (by simp [fieldPart, hb]), rfl⟩

/-- A name below a node whose tokens are silent stands in a part that is no comment. -/
theorem mem_significant (h : c.NamesShaped) (hb : b ∈ c.children) (hx : x ∈ b.walk)
    (hn : x.isName) : b ∈ c.significant := by
  have hs := (h.child hb).shape.silent
  have hl : ¬(b.named = false ∨ b.kind = "comment") := fun hl => by
    rw [hs hl x hx] at hn
    cases hn
  rw [not_or, Bool.not_eq_false] at hl
  exact List.mem_filter.2 ⟨List.mem_filter.2 ⟨hb, hl.1⟩, bne_iff_ne.2 hl.2⟩

/-- The parts of a list whose children are all kept, comments aside. -/
theorem under_significant {list : Concrete} (h : c.NamesShaped) (hl : list ∈ c.children)
    (hk : list ∈ c.kept s) (hlk : list.kept s = list.namedChildren) (hp : list.kind ∉ parents)
    (hb : b ∈ list.significant) : Under s c (.node b) := by
  have hn := list.significant_sublist.subset hb
  have hm := list.namedChildren_sublist.subset hn
  have hr := Reads.node (s := s) ((h.child hl).child hm) (parentKinds?_child (h.child hl) hp hm)
  exact (hr.under (h.child hl) hm (hlk ▸ hn)).trans h hl hk

theorem mem_significant_of_holds {list : Concrete} (h : list.NamesShaped)
    (hn : list.isName = false) (hx : x ∈ list.walk) (hxn : x.isName) :
    ∃ b ∈ list.significant, x ∈ b.walk := by
  rcases mem_walk.1 hx with rfl | ⟨b, hb, hxb⟩
  · rw [hn] at hxn
    cases hxn
  · exact ⟨b, mem_significant h hb hxb hxn, hxb⟩

theorem callOutline_covers (h : c.NamesShaped) (hc : c.kind ∉ parents) (hn : c.isName = false)
    (hk : c.kept s = c.filling ["function", "arguments"]) :
    Covers s c sp (fieldPart c "function" ++ (argumentsOf c).map .node) := by
  have hm : ∀ field ∈ ["function", "arguments"], ∀ b, c.field? field = some b → b ∈ c.kept s :=
    fun field hf b hb => hk ▸ mem_filling.2 ⟨field, hf, hb⟩
  have hlk : ∀ b : Concrete, b.kind = "arguments" → b.kept s = b.namedChildren ∧
      b.kind ∉ parents ∧ b.isName = false := by
    intro b hb
    refine ⟨by rw [kept.eq_def, hb]; rfl, hb ▸ by decide, ?_⟩
    rw [isName, hb]
    rfl
  refine covers_of_holds h hn (fun q hq => ?_) fun b hb hbc x hx hxn _ => ?_
  · rcases List.mem_append.1 hq with hq | hq
    · exact under_fieldPart h hc (hm "function" (by decide)) hq
    · obtain ⟨a, ha, rfl⟩ := List.mem_map.1 hq
      rw [argumentsOf.eq_def] at ha
      split at ha
      · cases ha
      · next list hl =>
        have hlm := mem_of_field? hl
        have hlkept := hm "arguments" (by decide) list hl
        split_ifs at ha with hkind
        · exact under_significant h hlm hlkept (hlk list hkind).1 (hlk list hkind).2.1 ha
        · cases List.mem_singleton.1 ha
          exact (Reads.node (h.child hlm) (parentKinds?_child h hc hlm)).under h hlm hlkept
  · rw [hk, mem_filling] at hb
    obtain ⟨field, hf, hb⟩ := hb
    simp only [List.mem_cons, List.not_mem_nil, or_false] at hf
    rcases hf with rfl | rfl
    · exact ⟨.node b, by simp [fieldPart, hb], b, rfl, hx⟩
    · have ha : argumentsOf c = if b.kind = "arguments" then b.significant else [b] := by
        rw [argumentsOf, hb]
      rw [ha]
      split_ifs with hkind
      · obtain ⟨a, ham, hxa⟩ := mem_significant_of_holds (h.child hbc) (hlk b hkind).2.2 hx hxn
        exact ⟨.node a, List.mem_append_right _ (List.mem_map_of_mem ham), a, rfl, hxa⟩
      · exact ⟨.node b, List.mem_append_right _ (List.mem_map_of_mem (List.mem_singleton.2 rfl)),
          b, rfl, hx⟩

theorem head?_mem {α : Type} {l : List α} {a : α} (h : a ∈ l.head?.toList) : a ∈ l :=
  List.mem_of_mem_head? (Option.mem_toList.1 h)

theorem head?_children (hb : b ∈ c.significant.head?.toList) : b ∈ c.children :=
  c.namedChildren_sublist.subset (c.significant_sublist.subset (head?_mem hb))

/-- Parts of a node without names. -/
theorem under_nameless (h : c.NamesShaped) (hc : c.kind ∉ parents) (hb : b ∈ c.children)
    (hn : b.Nameless) : Under s c (.node b) := by
  refine ⟨⟨h.child hb, parentKinds?_child h hc hb⟩, fun a ha => ?_, fun x hx ⟨a, ha, hxa⟩ => ?_⟩
  · cases ha
    exact mem_walk.2 (.inr ⟨b, hb, b.self_mem_walk⟩)
  · cases ha
    rw [hn x hxa] at hx
    cases hx

theorem parenthesizedOutline_covers (h : c.NamesShaped) (hc : c.kind ∉ parents)
    (hn : c.isName = false) (hk : c.kept s = c.significant.head?.toList) :
    Covers s c sp (parenthesizedOutline c).2 := by
  rw [parenthesizedOutline]
  cases hi : c.significant.head? with
  | some inner =>
    rw [hi] at hk
    refine covers_children h hc hn hk fun b hb => ?_
    exact head?_children (hi ▸ hb)
  | none =>
    have hnil : c.significant = [] := List.head?_eq_none_iff.1 hi
    have hnl : ∀ b ∈ c.children, b.Nameless := fun b hb x hx => by
      by_contra hxn
      have hm := mem_significant h hb hx (Bool.not_eq_false _ ▸ hxn)
      rw [hnil] at hm
      cases hm
    refine covers_of_holds h hn (fun q hq => ?_) fun b hb hbc x hx hxn _ => ?_
    · obtain ⟨b, hb, rfl⟩ := List.mem_map.1 hq
      have hbc := c.namedChildren_sublist.subset hb
      exact under_nameless h hc hbc (hnl b hbc)
    · rw [hnl b hbc x hx] at hxn
      cases hxn

theorem eq_of_length_filter_le_one {cs : List Concrete} {f : Concrete → Bool}
    (h : (cs.filter f).length ≤ 1) {a b : Concrete} (ha : a ∈ cs) (hb : b ∈ cs) (hfa : f a)
    (hfb : f b) : a = b := by
  have h1 := List.mem_filter.2 ⟨ha, hfa⟩
  have h2 := List.mem_filter.2 ⟨hb, hfb⟩
  match hl : cs.filter f with
  | [] => rw [hl] at h1; cases h1
  | [d] =>
    rw [hl, List.mem_singleton] at h1 h2
    rw [h1, h2]
  | _ :: _ :: _ => rw [hl] at h; simp at h

theorem classOutline_covers (h : c.NamesShaped) (hc : c.kind ∉ parents) (hn : c.isName = false)
    (hk : c.kept s = c.namedChildren)
    (hkind : c.kind = "class_declaration" ∨ c.kind = "abstract_class_declaration") :
    Covers s c sp (classOutline c).2 := by
  have hp : ∀ b ∈ c.namedChildren, Reads s b (classPart (c.field? "name") b) := by
    intro b hb
    have hbc := c.namedChildren_sublist.subset hb
    rw [classPart.eq_def]
    split
    · next name hf =>
      split
      · next hbf =>
        obtain ⟨hl, hleaf⟩ := h.shape.className hkind
        have hnf : name.field == some "name" := beq_iff_eq.2 (field_of_field? hf)
        obtain rfl := eq_of_length_filter_le_one hl (mem_of_field? hf) hbc hnf hbf
        refine ⟨⟨rfl, h.child hbc, hleaf _ hbc (beq_iff_eq.1 hbf)⟩, ?_, fun _ => .rfl⟩
        rw [Part.concrete?]
        split_ifs <;> rfl
      · exact .node (h.child hbc) (parentKinds?_child h hc hbc)
    · exact .node (h.child hbc) (parentKinds?_child h hc hbc)
  refine covers_of_reads h hn (fun q hq => ?_) fun b hb => ?_
  · obtain ⟨b, hb, rfl⟩ := List.mem_map.1 hq
    exact (hp b hb).under h (c.namedChildren_sublist.subset hb) (hk ▸ hb)
  · rw [hk] at hb
    exact ⟨_, List.mem_map_of_mem hb, (hp b hb).concrete⟩

/-! ### Imports -/

theorem importedName?_eq_some {d : Concrete} (h : importedName? b = some d) :
    b.kind = "import_specifier" ∧ d.kind = "identifier" ∧ d ∈ b.children := by
  obtain ⟨name, hn⟩ := field_of_importedName? h
  rw [importedName?] at h
  split_ifs at h with hk
  exact ⟨hk, beq_iff_eq.1 (Option.filter_eq_some_iff.1 h).2, mem_of_field? hn⟩

theorem kept_importSpecifier (h : c.kind = "import_specifier") :
    c.kept s = (importedName? c).toList := by
  rw [kept.eq_def, h]
  rfl

theorem kept_namedImports (h : c.kind = "named_imports") :
    c.kept s = c.namedChildren.filter (·.kind == "import_specifier") := by
  rw [kept.eq_def, h]
  rfl

theorem kept_namespaceImport (h : c.kind = "namespace_import") :
    c.kept s = c.namedChildren.filter (·.kind == "identifier") := by
  rw [kept.eq_def, h]
  rfl

theorem kept_importClause (h : c.kind = "import_clause") :
    c.kept s = c.namedChildren.filter fun item =>
      item.kind == "identifier" || item.kind == "namespace_import" ||
        item.kind == "named_imports" := by
  rw [kept.eq_def, h]
  rfl

theorem mem_namedFilter {f : Concrete → Bool} (hb : b ∈ c.namedChildren.filter f) :
    b ∈ c.children ∧ f b :=
  ⟨c.namedChildren_sublist.subset (List.mem_filter.1 hb).1, (List.mem_filter.1 hb).2⟩

/-- The names that one item of an import binds. -/
theorem under_importedNames (h : c.NamesShaped) (hb : b ∈ importedNames c) :
    Under s c (.node b) := by
  rw [importedNames] at hb
  split_ifs at hb with h1 h2 h3
  · cases List.mem_singleton.1 hb
    exact (Reads.node h (parentKinds?_identifier h1)).under_self
  · obtain ⟨hbc, hi⟩ := mem_namedFilter hb
    exact (Reads.node (h.child hbc) (parentKinds?_identifier (beq_iff_eq.1 hi))).under h hbc
      (kept_namespaceImport h2 ▸ hb)
  · obtain ⟨d, hd, hdb⟩ := List.mem_filterMap.1 hb
    obtain ⟨hk, hi, hbd⟩ := importedName?_eq_some hdb
    have hdc := c.namedChildren_sublist.subset hd
    have hkd : b ∈ d.kept s := by
      rw [kept_importSpecifier hk, hdb]
      exact List.mem_singleton.2 rfl
    have hkc : d ∈ c.kept s := by
      rw [kept_namedImports h3]
      exact List.mem_filter.2 ⟨hd, beq_iff_eq.2 hk⟩
    have hr := Reads.node (s := s) ((h.child hdc).child hbd) (parentKinds?_identifier hi)
    exact (hr.under (h.child hdc) hbd hkd).trans h hdc hkc
  · cases hb

theorem isName_eq_false (h : c.kind ∉ nameKinds) : c.isName = false := by
  rw [isName]
  exact Bool.eq_false_iff.2 fun hc => h (List.contains_iff_mem.1 hc)

theorem exists_importedName (h : c.NamesShaped) (hc : c.kind = "identifier" ∨
    c.kind = "namespace_import" ∨ c.kind = "named_imports") (hx : x ∈ c.walk) (hn : x.isName)
    (hl : ¬c.Loses s x) : ∃ b ∈ importedNames c, x ∈ b.walk := by
  rw [importedNames]
  rcases hc with hk | hk | hk
  · rw [if_pos hk]
    exact ⟨c, List.mem_singleton.2 rfl, hx⟩
  · rw [if_neg (by rw [hk]; decide), if_pos hk]
    rcases mem_walk.1 hx with rfl | ⟨b, hb, hxb⟩
    · rw [isName_eq_false (by rw [hk]; decide)] at hn
      cases hn
    · rw [loses_child h hb hxb hn, not_or, not_not, kept_namespaceImport hk] at hl
      exact ⟨b, hl.1, hxb⟩
  · rw [if_neg (by rw [hk]; decide), if_neg (by rw [hk]; decide), if_pos hk]
    rcases mem_walk.1 hx with rfl | ⟨b, hb, hxb⟩
    · rw [isName_eq_false (by rw [hk]; decide)] at hn
      cases hn
    · rw [loses_child h hb hxb hn, not_or, not_not, kept_namedImports hk] at hl
      obtain ⟨⟨hbn, hbk⟩, hl⟩ := hl.imp_left List.mem_filter.1
      rw [beq_iff_eq] at hbk
      rcases mem_walk.1 hxb with rfl | ⟨d, hd, hxd⟩
      · rw [isName_eq_false (by rw [hbk]; decide)] at hn
        cases hn
      · rw [loses_child (h.child hb) hd hxd hn, not_or, not_not, kept_importSpecifier hbk,
          Option.mem_toList] at hl
        exact ⟨d, List.mem_filterMap.2 ⟨b, hbn, hl.1⟩, hxd⟩

theorem importedOf_covers (h : c.NamesShaped) (hn : c.isName = false)
    (hk : c.kept s = c.namedChildren.filter (·.kind == "import_clause")) :
    Covers s c sp ((importedOf c).map .node) := by
  refine covers_of_holds h hn (fun q hq => ?_) fun b hb hbc x hx hxn hl => ?_
  · obtain ⟨d, hd, rfl⟩ := List.mem_map.1 hq
    obtain ⟨b, hb, hd⟩ := List.mem_flatMap.1 hd
    obtain ⟨a, ha, hd⟩ := List.mem_flatMap.1 hd
    obtain ⟨hbc, hbk⟩ := mem_namedFilter hb
    have hac := b.namedChildren_sublist.subset ha
    have hak : a ∈ b.kept s := by
      rw [kept_importClause (beq_iff_eq.1 hbk)]
      refine List.mem_filter.2 ⟨ha, ?_⟩
      rw [importedNames] at hd
      split_ifs at hd with h1 h2 h3
      · rw [h1]; rfl
      · rw [h2]; rfl
      · rw [h3]; rfl
      · cases hd
    exact ((under_importedNames ((h.child hbc).child hac) hd).trans (h.child hbc) hac hak).trans h
      hbc (hk ▸ hb)
  · rw [hk] at hb
    have hbk := beq_iff_eq.1 (mem_namedFilter hb).2
    rcases mem_walk.1 hx with rfl | ⟨a, ha, hxa⟩
    · rw [isName_eq_false (by rw [hbk]; decide)] at hxn
      cases hxn
    · rw [loses_child (h.child hbc) ha hxa hxn, not_or, not_not, kept_importClause hbk] at hl
      obtain ⟨⟨han, hak⟩, hl⟩ := hl.imp_left List.mem_filter.1
      have hkinds : a.kind = "identifier" ∨ a.kind = "namespace_import" ∨
          a.kind = "named_imports" := by
        simpa [or_assoc] using hak
      obtain ⟨d, hd, hxd⟩ := exists_importedName ((h.child hbc).child ha) hkinds hxa hxn hl
      have hdm : d ∈ importedOf c :=
        List.mem_flatMap.2 ⟨b, hb, List.mem_flatMap.2 ⟨a, han, hd⟩⟩
      exact ⟨.node d, List.mem_map_of_mem hdm, d, rfl, hxd⟩

/-! ### Markup -/

theorem mem_of_openTag? (h : openTag? c = some b) : b ∈ c.children := by
  rcases Option.or_eq_some_iff.1 (Option.filter_eq_some_iff.1 h).1 with h | ⟨-, h⟩
  · exact mem_of_field? h
  · exact c.namedChildren_sublist.subset (List.mem_of_find?_eq_some h)

theorem mem_of_closeTag? (h : closeTag? c = some b) : b ∈ c.children := by
  rcases Option.or_eq_some_iff.1 h with h | ⟨-, h⟩
  · exact mem_of_field? h
  · exact c.namedChildren_sublist.subset (List.mem_of_find?_eq_some h)

theorem reads_opening {tag : Concrete} (h : tag.NamesShaped)
    (hk : tag.kind = "jsx_opening_element") : Reads s tag (.opening false tag) :=
  ⟨⟨h, hk⟩, rfl, fun _ => .rfl⟩

theorem reads_closing {tag : Concrete} (h : tag.NamesShaped) (hk : tag.kind = "jsx_closing_element") :
    Reads s tag (.closing tag) :=
  ⟨⟨h, hk⟩, rfl, fun _ => .rfl⟩

theorem elementOutline_covers (h : c.NamesShaped) (hk : c.kind = "jsx_element") :
    Covers s c sp (elementOutline c).2 := by
  have hn : c.isName = false := isName_eq_false (by rw [hk]; decide)
  have hkept : c.kept s = (openTag? c).toList ++ contentOf c ++
      (if (openTag? c).isSome then (closeTag? c).toList else []) := by
    rw [kept.eq_def, hk]
    rfl
  have hcontent : ∀ b ∈ contentOf c, b ∈ c.children := fun b hb => (mem_namedFilter hb).1
  obtain ⟨htags, hclose⟩ := h.shape.tags hk
  rw [elementOutline]
  cases ho : openTag? c with
  | none =>
    rw [ho] at hkept
    have hkc : c.kept s = contentOf c := by
      rw [hkept]
      simp
    exact covers_nodes h hn hkc hcontent fun b hb => parentKinds?_content h hk hb
  | some tag =>
    rw [ho] at hkept
    change c.kept s = tag :: contentOf c ++ (closeTag? c).toList at hkept
    have htm := mem_of_openTag? ho
    refine covers_of_reads h hn (fun q hq => ?_) fun b hb => ?_
    · rcases List.mem_append.1 hq with hq | hq
      · rcases List.mem_cons.1 hq with rfl | hq
        · exact (reads_opening (h.child htm) (htags tag ho)).under h htm
            (by rw [hkept]; exact List.mem_cons_self)
        · obtain ⟨b, hb, rfl⟩ := List.mem_map.1 hq
          have hbc := hcontent b hb
          refine (Reads.node (h.child hbc) (parentKinds?_content h hk hb)).under h hbc ?_
          rw [hkept]
          exact List.mem_append_left _ (List.mem_cons_of_mem _ hb)
      · obtain ⟨b, hb, rfl⟩ := List.mem_map.1 hq
        have hbo := Option.mem_toList.1 hb
        have hbc := mem_of_closeTag? hbo
        refine (reads_closing (h.child hbc) (hclose b hbo)).under h hbc ?_
        rw [hkept]
        exact List.mem_append_right _ hb
    · rw [hkept] at hb
      rcases List.mem_append.1 hb with hb | hb
      · rcases List.mem_cons.1 hb with rfl | hb
        · exact ⟨_, List.mem_append_left _ List.mem_cons_self, rfl⟩
        · exact ⟨.node b, List.mem_append_left _ (List.mem_cons_of_mem _ (List.mem_map_of_mem hb)),
            rfl⟩
      · exact ⟨.closing b, List.mem_append_right _ (List.mem_map_of_mem hb), rfl⟩

/-- The name of a tag is read by its kind when it is that of a component. -/
theorem tagPart_of_component? (h : c.component? s = some b) : tagPart s b = .node b := by
  have hb := (Option.filter_eq_some_iff.1 h).2
  simp only [Bool.and_eq_true, Bool.or_eq_true, bne_iff_ne] at hb
  rw [tagPart]
  split_ifs with h1 h2 h3
  · rfl
  · rcases hb.2 with hi | hu
    · exact absurd h1 hi
    · exact absurd hu h2
  · exact absurd h3 hb.1
  · rfl

theorem tagPart_of_component?_eq_none (hb : c.field? "name" = some b)
    (h : c.component? s = none) : tagPart s b = .markupName b := by
  rw [component?, hb, Option.filter_eq_none_iff] at h
  have hk := h b rfl
  simp only [Bool.and_eq_true, Bool.or_eq_true, bne_iff_ne, not_and_or, not_or, not_not] at hk
  rw [tagPart]
  split_ifs with h1 h2 h3
  · rcases hk with hk | hk
    · rw [h1] at hk
      exact absurd hk (by decide)
    · exact absurd h2 hk.2
  · rfl
  · rfl
  · rcases hk with hk | hk
    · exact absurd hk h3
    · exact absurd hk.1 h1

/-- The name of a tag is kept when it is that of a component, and a name of markup otherwise. -/
theorem under_tagPart (h : c.NamesShaped) (hc : c.kind ∈ tagKinds) (hb : c.field? "name" = some b)
    (hk : ∀ a, a ∈ c.kept s → c.component? s = some a ∨ a.isAttribute)
    (hcomp : ∀ a, c.component? s = some a → a ∈ c.kept s) : Under s c (tagPart s b) := by
  have hbc := mem_of_field? hb
  cases ho : c.component? s with
  | some a =>
    obtain ⟨ha, hak⟩ := Option.filter_eq_some_iff.1 ho
    rw [hb] at ha
    cases ha
    rw [tagPart_of_component? ho]
    have hns : b.kind ≠ "jsx_namespace_name" := by
      intro hn
      rw [hn] at hak
      cases hak
    exact (Reads.node (h.child hbc) (parentKinds?_markup h (List.mem_cons_of_mem _ hc) hbc
      hns)).under h hbc (hcomp b ho)
  | none =>
    rw [tagPart_of_component?_eq_none hb ho]
    refine under_markupName hbc fun x hx hn => (loses_child h hbc hx hn).2 (.inl fun hm => ?_)
    rcases hk b hm with hcs | ha
    · rw [ho] at hcs
      cases hcs
    · rw [component?, hb, Option.filter_eq_none_iff] at ho
      have hno := ho b rfl
      rw [isAttribute, Bool.or_eq_true, beq_iff_eq, beq_iff_eq] at ha
      rcases ha with ha | ha
      · rw [ha] at hno
        exact hno rfl
      · rw [ha] at hno
        exact hno rfl

theorem isAttribute_iff : b.isAttribute ↔ b.kind = "jsx_attribute" ∨ b.kind = "jsx_expression" := by
  rw [isAttribute, Bool.or_eq_true, beq_iff_eq, beq_iff_eq]

theorem attributePart_concrete? (h : attributePart b = some q) : q.concrete? = some b := by
  rw [attributePart] at h
  split_ifs at h
  · cases h
    rfl
  · cases h
    split <;> rfl

theorem reads_attribute (h : c.NamesShaped) (hc : c.kind ∈ "jsx_attribute" :: tagKinds)
    (hb : b ∈ c.children) (hq : attributePart b = some q) : Reads s b q := by
  have hf : b.kind ≠ "jsx_namespace_name" → Reads s b (.node b) := fun hk =>
    .node (h.child hb) (parentKinds?_markup h hc hb hk)
  rw [attributePart] at hq
  split_ifs at hq with h1 h2
  · cases hq
    exact hf (by rw [h1]; decide)
  · cases hq
    split
    · exact hf (by rw [h2]; decide)
    · next inner hi =>
      obtain ⟨hs, hk⟩ := Option.filter_eq_some_iff.1 hi
      exact ⟨⟨h.child hb, h2, hs, beq_iff_eq.1 hk⟩, rfl, fun _ => .rfl⟩

theorem attributePart_of_isAttribute (h : b.isAttribute) : ∃ q, attributePart b = some q := by
  rw [attributePart]
  rcases isAttribute_iff.1 h with hk | hk
  · exact ⟨_, if_pos hk⟩
  · exact ⟨_, by rw [if_neg (by rw [hk]; decide), if_pos hk]⟩

theorem tagPart_concrete? (b : Concrete) : (tagPart s b).concrete? = some b := by
  rw [tagPart]
  split_ifs <;> rfl

theorem kept_opening (h : c.kind = "jsx_opening_element" ∨ c.kind = "jsx_self_closing_element") :
    c.kept s = (c.component? s).toList ++ c.namedChildren.filter isAttribute := by
  rcases h with h | h <;> rw [kept.eq_def, h] <;> rfl

theorem kept_closing (h : c.kind = "jsx_closing_element") :
    c.kept s = (c.component? s).toList := by
  rw [kept.eq_def, h]
  rfl

theorem openingOutline_covers (h : c.NamesShaped)
    (hk : c.kind = "jsx_opening_element" ∨ c.kind = "jsx_self_closing_element") :
    Covers s c sp
      ((c.field? "name").toList.map (tagPart s) ++ c.namedChildren.filterMap attributePart) := by
  have ht : c.kind ∈ tagKinds := by rcases hk with hk | hk <;> rw [hk] <;> decide
  have hn : c.isName = false := isName_eq_false (by rcases hk with hk | hk <;> rw [hk] <;> decide)
  have hkept := kept_opening (s := s) hk
  refine covers_of_reads h hn (fun q hq => ?_) fun b hb => ?_
  · rcases List.mem_append.1 hq with hq | hq
    · obtain ⟨b, hb, rfl⟩ := List.mem_map.1 hq
      refine under_tagPart h ht (Option.mem_toList.1 hb) (fun a ha => ?_) fun a ha => ?_
      · rw [hkept] at ha
        rcases List.mem_append.1 ha with ha | ha
        · exact .inl (Option.mem_toList.1 ha)
        · exact .inr (mem_namedFilter ha).2
      · rw [hkept]
        exact List.mem_append_left _ (Option.mem_toList.2 ha)
    · obtain ⟨b, hb, hbq⟩ := List.mem_filterMap.1 hq
      have hbc := c.namedChildren_sublist.subset hb
      refine (reads_attribute h (List.mem_cons_of_mem _ ht) hbc hbq).under h hbc ?_
      rw [hkept]
      refine List.mem_append_right _ (List.mem_filter.2 ⟨hb, ?_⟩)
      by_contra ha
      rw [attributePart_of_not_isAttribute ha] at hbq
      cases hbq
  · rw [hkept] at hb
    rcases List.mem_append.1 hb with hb | hb
    · have hbn := (Option.filter_eq_some_iff.1 (Option.mem_toList.1 hb)).1
      refine ⟨tagPart s b, List.mem_append_left _ (List.mem_map_of_mem ?_), tagPart_concrete? b⟩
      exact Option.mem_toList.2 hbn
    · obtain ⟨hbn, hba⟩ := List.mem_filter.1 hb
      obtain ⟨q, hq⟩ := attributePart_of_isAttribute hba
      exact ⟨q, List.mem_append_right _ (List.mem_filterMap.2 ⟨b, hbn, hq⟩),
        attributePart_concrete? hq⟩

theorem closingOutline_covers (h : c.NamesShaped) (hk : c.kind = "jsx_closing_element") :
    Covers s c sp ((c.field? "name").toList.map (tagPart s)) := by
  have ht : c.kind ∈ tagKinds := by rw [hk]; decide
  have hn : c.isName = false := isName_eq_false (by rw [hk]; decide)
  have hkept := kept_closing (s := s) hk
  refine covers_of_reads h hn (fun q hq => ?_) fun b hb => ?_
  · obtain ⟨b, hb, rfl⟩ := List.mem_map.1 hq
    refine under_tagPart h ht (Option.mem_toList.1 hb) (fun a ha => ?_) fun a ha => ?_
    · rw [hkept, Option.mem_toList] at ha
      exact .inl ha
    · rw [hkept]
      exact Option.mem_toList.2 ha
  · rw [hkept, Option.mem_toList] at hb
    have hbn := (Option.filter_eq_some_iff.1 hb).1
    exact ⟨tagPart s b, List.mem_map_of_mem (Option.mem_toList.2 hbn), tagPart_concrete? b⟩

/-- Of an attribute, the first part is its name and the second its value. -/
theorem attributeOutline_covers (h : c.NamesShaped) (hk : c.kind = "jsx_attribute") :
    Covers s c sp (c.significant.head?.toList.map .markupName ++
      c.significant.tail.head?.toList.map .node) := by
  have hn : c.isName = false := isName_eq_false (by rw [hk]; decide)
  have hkept : c.kept s = c.significant.tail.head?.toList := by
    rw [kept.eq_def, hk]
    rfl
  have hsub := c.significant_sublist.trans c.namedChildren_sublist
  have hrow := h.shape.nested.sublist hsub
  have hvalue := h.shape.value hk
  cases hs : c.significant with
  | nil =>
    rw [hs] at hkept
    exact covers_of_reads h hn (fun q hq => (by cases hq)) fun b hb => (by rw [hkept] at hb; cases hb)
  | cons name rest =>
    rw [hs] at hkept hrow hvalue hsub
    refine covers_of_reads h hn (fun q hq => ?_) fun b hb => ?_
    · rcases List.mem_cons.1 hq with rfl | hq
      · have hnc : name ∈ c.children := hsub.subset List.mem_cons_self
        refine under_markupName hnc fun x hx hxn => (loses_child h hnc hx hxn).2 (.inl ?_)
        -- the value lies behind the name, which is not empty
        rw [hkept]
        intro hm
        have h1 : name.span.stop ≤ name.span.start :=
          (Row.mem hrow.2.2 (List.mem_map_of_mem (head?_mem hm))).1
        have h2 := (h.child hnc).inside hx
        have h3 := ((h.child hnc) x hx).leaf hxn
        omega
      · obtain ⟨b, hb, rfl⟩ := List.mem_map.1 hq
        have hbc := hsub.subset (List.mem_cons_of_mem _ (head?_mem hb))
        refine (Reads.node (h.child hbc) ?_).under h hbc (hkept ▸ hb)
        exact parentKinds?_markup h (hk ▸ List.mem_cons_self) hbc
          (hvalue b (Option.mem_toList.1 hb))
    · rw [hkept] at hb
      exact ⟨.node b, List.mem_cons_of_mem _ (List.mem_map_of_mem hb), rfl⟩

/-- Braces around what is spread, read as one. -/
theorem spreadOutline_covers {inner : Concrete} (h : c.NamesShaped) (hk : c.kind = "jsx_expression")
    (hi : c.significant.head? = some inner) (hs : inner.kind = "spread_element") :
    Covers s c sp [match inner.significant.head? with
      | some argument => Part.node argument
      | none => .nothing inner] := by
  have hn : c.isName = false := isName_eq_false (by rw [hk]; decide)
  have hkept : c.kept s = [inner] := by
    rw [kept.eq_def, hk]
    simp only [hi]
    rfl
  have hic : inner ∈ c.children := head?_children (by rw [hi]; exact List.mem_singleton.2 rfl)
  have hkin : inner ∈ c.kept s := by
    rw [hkept]
    exact List.mem_singleton.2 rfl
  have hin : inner.kept s = inner.namedChildren := by
    rw [kept.eq_def, hs]
    rfl
  have hinn : inner.isName = false := isName_eq_false (by rw [hs]; decide)
  have hone := (h.child hic).shape.spread hs
  cases ha : inner.significant with
  | nil =>
    have hnl : inner.Nameless := by
      intro x hx
      by_contra hxn
      obtain ⟨b, hb, -⟩ := mem_significant_of_holds (h.child hic) hinn hx
        (Bool.not_eq_false _ ▸ hxn)
      rw [ha] at hb
      cases hb
    refine covers_of_holds h hn (fun q hq => ?_) fun b hb hbc x hx hxn _ => ?_
    · cases List.mem_singleton.1 hq
      refine ⟨trivial, fun a ha => ?_, fun x hx ⟨a, ha, hxa⟩ => ?_⟩
      · cases ha
        exact mem_walk.2 (.inr ⟨inner, hic, inner.self_mem_walk⟩)
      · cases ha
        rw [hnl x hxa] at hx
        cases hx
    · rw [hkept, List.mem_singleton] at hb
      subst hb
      rw [hnl x hx] at hxn
      cases hxn
  | cons argument rest =>
    rw [ha] at hone
    have hrest : rest = [] := List.length_eq_zero_iff.1 (by simpa using hone)
    subst hrest
    refine covers_of_holds h hn (fun q hq => ?_) fun b hb hbc x hx hxn _ => ?_
    · cases List.mem_singleton.1 hq
      refine under_significant h hic hkin hin (by rw [hs]; decide) ?_
      rw [ha]
      exact List.mem_singleton.2 rfl
    · rw [hkept, List.mem_singleton] at hb
      subst hb
      obtain ⟨d, hd, hxd⟩ := mem_significant_of_holds (h.child hic) hinn hx hxn
      rw [ha, List.mem_singleton] at hd
      subst hd
      exact ⟨_, List.mem_singleton.2 rfl, d, rfl, hxd⟩

/-! ### Exports -/

theorem specifierOutline_covers (h : c.NamesShaped) (hk : c.kind = "export_specifier") :
    Covers s c (spelledBy c) (specifierOutline s c).2 := by
  have hn : c.isName = false := isName_eq_false (by rw [hk]; decide)
  have hkept : c.kept s = ((c.field? "name").filter (·.kind == "identifier")).toList := by
    rw [kept.eq_def, hk]
    rfl
  rw [specifierOutline, spelledBy, if_neg (by rw [hn]; decide)]
  cases hf : (c.field? "name").filter (·.kind == "identifier") with
  | none =>
    rw [hf] at hkept
    exact covers_of_reads h hn (fun q hq => (by cases hq)) fun b hb => (by rw [hkept] at hb; cases hb)
  | some name =>
    rw [hf] at hkept
    change c.kept s = [name] at hkept
    obtain ⟨hname, hi⟩ := Option.filter_eq_some_iff.1 hf
    have hnc := mem_of_field? hname
    have hnn : name.isName := isName_iff.2 (.inl (beq_iff_eq.1 hi))
    have hkm : name ∈ c.kept s := by
      rw [hkept]
      exact List.mem_singleton.2 rfl
    dsimp only
    split_ifs with hs ha ha
    · refine ⟨fun q hq => (by cases hq), fun x hx hxn hl => .inl ?_⟩
      rcases mem_walk.1 hx with rfl | ⟨b, hb, hxb⟩
      · rw [hn] at hxn
        cases hxn
      · rw [loses_child h hb hxb hxn, not_or, not_not, hkept, List.mem_singleton] at hl
        obtain rfl := hl.1
        rcases mem_walk.1 hxb with rfl | ⟨d, hd, -⟩
        · rfl
        · rw [((h.child hnc).shape.leaf hnn).2.1] at hd
          cases hd
    · exact absurd hs.2 ha
    · exact absurd ⟨hk, ha⟩ hs
    · refine covers_of_reads h hn (fun q hq => ?_) fun b hb => ?_
      · cases List.mem_singleton.1 hq
        exact Reads.under ⟨⟨h.child hnc, hnn⟩, rfl, fun _ => .rfl⟩ h hnc hkm
      · rw [hkept, List.mem_singleton] at hb
        exact ⟨.name name, List.mem_singleton.2 rfl, hb ▸ rfl⟩

/-! ### Every kind -/

/-- A name covers itself. -/
theorem name_covers (h : c.NamesShaped) (hn : c.isName) : Covers s c (some c) [] := by
  refine ⟨fun q hq => (by cases hq), fun x hx _ _ => .inl ?_⟩
  rcases mem_walk.1 hx with rfl | ⟨b, hb, -⟩
  · rfl
  · rw [(h.shape.leaf hn).2.1] at hb
    cases hb

/-- Nothing is read below a node that keeps no child. -/
theorem covers_nil (h : c.NamesShaped) (hn : c.isName = false) (hk : c.kept s = []) :
    Covers s c sp [] :=
  covers_of_reads h hn (fun q hq => (by cases hq)) fun b hb => (by rw [hk] at hb; cases hb)

theorem namedChildren_subset : ∀ b ∈ c.namedChildren, b ∈ c.children :=
  fun _ hb => c.namedChildren_sublist.subset hb

/-- Nodes of most kinds are neither names nor parents of some kinds only. -/
theorem ordinary_of_kind {kind : String} (hk : c.kind = kind) (h : kind ∉ parents ++ nameKinds) :
    c.kind ∉ parents ∧ c.isName = false := by
  subst hk
  rw [List.mem_append, not_or] at h
  exact ⟨h.1, isName_eq_false h.2⟩

theorem binaryOutline_covers (h : c.NamesShaped) (hk : c.kind = "binary_expression") :
    Covers s c sp (binaryOutline c).2 := by
  obtain ⟨hp, hn⟩ := ordinary_of_kind hk (by decide)
  have hkept : c.kept s =
      if ((c.field? "operator").filter fun o => logicalOperators.contains o.kind).isSome then
        c.filling ["left", "right"]
      else c.namedChildren := by
    rw [kept.eq_def, hk]
    rfl
  rw [binaryOutline]
  split
  · next ho =>
    rw [ho] at hkept
    exact covers_children h hp hn hkept namedChildren_subset
  · next o ho =>
    rw [ho] at hkept
    have hc : Covers s c sp (["left", "right"].flatMap (fieldPart c)) :=
      covers_fields h hp hn hkept
    simpa using hc

theorem exportOutline_covers (h : c.NamesShaped) (hk : c.kind = "export_statement") :
    Covers s c sp (exportOutline c).2 := by
  obtain ⟨hp, hn⟩ := ordinary_of_kind hk (by decide)
  have hkept : c.kept s = if (c.field? "source").isSome then [] else c.namedChildren := by
    rw [kept.eq_def, hk]
    rfl
  rw [exportOutline]
  split_ifs at hkept ⊢
  · exact covers_nil h hn hkept
  · exact covers_children h hp hn hkept namedChildren_subset

theorem arrowOutline_covers (h : c.NamesShaped) (hk : c.kind = "arrow_function") :
    Covers s c sp (parametersPart ((c.field? "parameters").or (c.field? "parameter")) ::
      fieldPart c "body") := by
  obtain ⟨hp, hn⟩ := ordinary_of_kind hk (by decide)
  refine methodOutline_covers h hp hn (fun b hb => ?_) (by rw [kept.eq_def, hk]; rfl)
  rcases Option.or_eq_some_iff.1 hb with hb | ⟨-, hb⟩ <;> exact mem_of_field? hb

theorem memberOutline_covers (h : c.NamesShaped) (hk : c.kind = "member_expression") :
    Covers s c sp ((objectOf? c).toList.map .node) := by
  obtain ⟨hp, hn⟩ := ordinary_of_kind hk (by decide)
  refine covers_children h hp hn (by rw [kept.eq_def, hk]; rfl) fun b hb => ?_
  rcases Option.or_eq_some_iff.1 (Option.mem_toList.1 hb) with hb | ⟨-, hb⟩
  · exact mem_of_field? hb
  · exact head?_children (Option.mem_toList.2 hb)

theorem selfClosingOutline_covers (h : c.NamesShaped) (hk : c.kind = "jsx_self_closing_element") :
    Covers s c sp [.opening true c] := by
  have hr : Reads s c (.opening true c) := ⟨⟨h, hk⟩, rfl, fun _ => .rfl⟩
  refine ⟨fun q hq => ?_, fun x hx _ _ => .inr ⟨_, List.mem_singleton.2 rfl, c, rfl, hx⟩⟩
  cases List.mem_singleton.1 hq
  exact hr.under_self

theorem nodeOutline_covers (h : c.NamesShaped) (hf : parentKinds? c.kind = none) :
    Covers s c (spelledBy c) (nodeOutline s c).2 := by
  have hname : c.isName → Covers s c (spelledBy c) [] := fun hn => by
    rw [spelledBy, if_pos hn]
    exact name_covers h hn
  rw [nodeOutline]
  split
  case h_1 hk | h_2 hk | h_28 hk =>
    obtain ⟨hp, hn⟩ := ordinary_of_kind hk (by decide)
    exact covers_children h hp hn (by rw [kept.eq_def, hk]; rfl) namedChildren_subset
  case h_3 hk | h_4 hk | h_5 hk | h_6 hk | h_7 hk =>
    obtain ⟨hp, hn⟩ := ordinary_of_kind hk (by decide)
    exact functionOutline_covers h hp hn (by rw [kept.eq_def, hk]; rfl) _
  case h_8 hk => exact arrowOutline_covers h hk
  case h_9 hk =>
    obtain ⟨hp, hn⟩ := ordinary_of_kind hk (by decide)
    refine methodOutline_covers h hp hn (fun b hb => mem_of_field? hb) ?_
    rw [kept.eq_def, hk]
    simp [filling]
  case h_10 hk | h_11 hk =>
    obtain ⟨hp, hn⟩ := ordinary_of_kind hk (by decide)
    exact covers_children h hp hn (by rw [kept.eq_def, hk]; rfl) fun b hb => (mem_namedFilter hb).1
  case h_12 hk =>
    obtain ⟨hp, hn⟩ := ordinary_of_kind hk (by decide)
    have hc : Covers s c (spelledBy c) (["name", "value"].flatMap (fieldPart c)) :=
      covers_fields h hp hn (by rw [kept.eq_def, hk]; rfl)
    simpa using hc
  case h_13 hk | h_31 hk =>
    obtain ⟨hp, hn⟩ := ordinary_of_kind hk (by decide)
    exact covers_children h hp hn (by rw [kept.eq_def, hk]; rfl) fun b => head?_children
  case h_14 hk =>
    obtain ⟨hp, hn⟩ := ordinary_of_kind hk (by decide)
    exact callOutline_covers h hp hn (by rw [kept.eq_def, hk]; rfl)
  case h_15 hk => exact memberOutline_covers h hk
  case h_16 hk =>
    obtain ⟨hp, hn⟩ := ordinary_of_kind hk (by decide)
    have hc : Covers s c (spelledBy c)
        (["condition", "consequence", "alternative"].flatMap (fieldPart c)) :=
      covers_fields h hp hn (by rw [kept.eq_def, hk]; rfl)
    simpa using hc
  case h_17 hk => exact binaryOutline_covers h hk
  case h_18 hk =>
    obtain ⟨hp, hn⟩ := ordinary_of_kind hk (by decide)
    exact parenthesizedOutline_covers h hp hn (by rw [kept.eq_def, hk]; rfl)
  case h_19 hk | h_20 hk | h_21 hk => exact hname (by rw [isName, hk]; rfl)
  case h_22 hk | h_33 hk | h_34 hk =>
    exact covers_nil h (ordinary_of_kind hk (by decide)).2 (by rw [kept.eq_def, hk]; rfl)
  case h_23 hk =>
    have hn : c.isName = false := isName_eq_false (by rw [hk]; decide)
    exact importedOf_covers h hn (by rw [kept.eq_def, hk]; rfl)
  case h_24 hk => exact exportOutline_covers h hk
  case h_25 hk => exact specifierOutline_covers h hk
  case h_26 hk =>
    obtain ⟨hp, hn⟩ := ordinary_of_kind hk (by decide)
    exact classOutline_covers h hp hn (by rw [kept.eq_def, hk]; rfl) (.inl hk)
  case h_27 hk =>
    obtain ⟨hp, hn⟩ := ordinary_of_kind hk (by decide)
    exact classOutline_covers h hp hn (by rw [kept.eq_def, hk]; rfl) (.inr hk)
  case h_29 hk => exact elementOutline_covers h hk
  case h_30 hk => exact selfClosingOutline_covers h hk
  case h_32 hk => exact attributeOutline_covers h hk
  case h_35 =>
    -- the kinds that are kept in a way of their own are read above or stand elsewhere
    have hk : c.kept s = c.namedChildren := by
      rw [kept.eq_def]
      split <;> first | rfl | contradiction | simp_all [parentKinds?]
    refine covers_children h (fun hp => ?_) (isName_eq_false fun hp => ?_) hk namedChildren_subset
    · rw [parentKinds?.eq_def] at hf
      simp only [parents, tagKinds, List.cons_append, List.nil_append, List.mem_cons,
        List.not_mem_nil, or_false] at hp
      rcases hp with hp | hp | hp | hp | hp | hp | hp | hp <;> first | contradiction | simp_all
    · simp only [nameKinds, List.mem_cons, List.not_mem_nil, or_false] at hp
      rcases hp with hp | hp | hp <;> contradiction

end Covered

end JsxLint.Reading
