import Mathlib.Data.List.Basic
import JsxLint.Proofs.Reading.Outline
import JsxLint.Proofs.Source.Span

/-!
# What grammars promise

The shape of concrete trees that every grammar gives, and what it says about the parts that are
read: they lie one behind the other within the part that they are read from.

* `Concrete.Shape`: what is promised of one node of a text;
* `Concrete.Readable`: the same of a node that is read and of everything below it;
* `Reading.Fits`: sound parts in a row within a span;
* `Reading.Part.Sound.fits`: the parts below a sound part fit into it.
-/

namespace JsxLint

namespace Concrete

/-- What holds of a node when it holds of its children holds of all nodes. -/
theorem induct {P : Concrete → Prop} (step : ∀ c : Concrete, (∀ b ∈ c.children, P b) → P c) :
    ∀ c, P c
  | ⟨kind, span, field, named, missing, faulty, children⟩ =>
    step ⟨kind, span, field, named, missing, faulty, children⟩ fun b _ => induct step b
termination_by c => sizeOf c
decreasing_by
  have := List.sizeOf_lt_of_mem ‹b ∈ _›
  simp_all only [Concrete.mk.sizeOf_spec]
  omega

/-! ### Trees by hand -/

/-- A bare token. -/
def token (kind : String) (start stop : Nat) : Concrete :=
  ⟨kind, ⟨start, stop⟩, none, false, false, false, []⟩

/-- A node for a rule of the grammar. -/
def rule (kind : String) (start stop : Nat) (field : Option String) (children : List Concrete) :
    Concrete :=
  ⟨kind, ⟨start, stop⟩, field, true, false, false, children⟩

/-! ### The list of nodes -/

theorem walkAll_eq (cs : List Concrete) : walkAll cs = cs.flatMap walk := by
  induction cs with
  | nil => rfl
  | cons c cs ih => rw [walkAll, ih, List.flatMap_cons]

theorem walk_eq (c : Concrete) : c.walk = c :: c.children.flatMap walk := by
  rw [← walkAll_eq]
  cases c
  rw [walk]

theorem mem_walk {b c : Concrete} : b ∈ c.walk ↔ b = c ∨ ∃ d ∈ c.children, b ∈ d.walk := by
  rw [walk_eq, List.mem_cons, List.mem_flatMap]

theorem self_mem_walk (c : Concrete) : c ∈ c.walk :=
  mem_walk.2 (.inl rfl)

theorem mem_walk_trans {a b c : Concrete} (ha : a ∈ b.walk) (hb : b ∈ c.walk) : a ∈ c.walk := by
  induction c using induct with
  | step c ih =>
    rcases mem_walk.1 hb with rfl | ⟨d, hd, hb⟩
    · exact ha
    · exact mem_walk.2 (.inr ⟨d, hd, ih d hd hb⟩)

/-! ### Shapes -/

/-- The kinds of functions with fields for their parts. -/
def functionKinds : List String :=
  ["function_declaration", "generator_function_declaration", "function_expression", "function",
    "generator_function", "method_definition"]

/-- The fields of a kind in the order of the source. -/
def fieldOrder (kind : String) : List String :=
  if functionKinds.contains kind then ["name", "parameters", "body"]
  else match kind with
    | "arrow_function" => ["parameters", "parameter", "body"]
    | "variable_declarator" => ["name", "value"]
    | "call_expression" => ["function", "arguments"]
    | "ternary_expression" => ["condition", "consequence", "alternative"]
    | "binary_expression" => ["left", "right"]
    | _ => []

theorem fieldOrder_of_functionKinds {kind : String} (h : functionKinds.contains kind) :
    fieldOrder kind = ["name", "parameters", "body"] :=
  if_pos h

/-- Whether a child of a tag is an attribute. -/
def isAttribute (c : Concrete) : Bool :=
  c.kind == "jsx_attribute" || c.kind == "jsx_expression"

/-- Whether nodes lie one behind the other within a span. -/
def InRow (span : Span) (cs : List Concrete) : Prop :=
  Row span.start span.stop (cs.map (·.span))

instance (span : Span) (cs : List Concrete) : Decidable (InRow span cs) :=
  decidableRow ..

/-- The children that fill the fields of a node, in the order of its fields. -/
def ordered (c : Concrete) : List Concrete :=
  (fieldOrder c.kind).flatMap fun field => (c.field? field).toList

/-- The parts of an element, in order: the tags around the content. -/
def elementParts (c : Concrete) : List Concrete :=
  (Reading.openTag? c).toList ++ Reading.contentOf c ++ (Reading.closeTag? c).toList

/-- The parts of a tag, in order: the attributes behind the name. -/
def tagParts (c : Concrete) : List Concrete :=
  (c.field? "name").toList ++ c.namedChildren.filter isAttribute

/-- What a grammar promises of one node of a text. -/
structure Shape (text : String) (c : Concrete) : Prop where
  /-- Nodes hold whole characters. -/
  whole : c.span.Whole text
  /-- Children lie one behind the other within their parent. -/
  nested : InRow c.span c.children
  /-- Fields are filled in their order. -/
  fields : InRow c.span c.ordered
  /-- The keyword of a function, which has the name of a rule, fills no field. -/
  keyword : ∀ b ∈ c.children, b.field.isSome → functionKinds.contains b.kind → b.named
  /-- Functions have parameters. -/
  parameters : functionKinds.contains c.kind → c.named → (c.field? "parameters").isSome
  /-- Arrow functions have parameters, or a single one. -/
  parameter : c.kind = "arrow_function" → ((c.field? "parameters").or (c.field? "parameter")).isSome
  /-- Only one part is the name of a class. -/
  className : c.kind = "class_declaration" ∨ c.kind = "abstract_class_declaration" →
    ∀ part ∈ c.namedChildren, part.field = some "name" →
      (c.field? "name").map (·.span) = some part.span
  /-- The tags of an element stand around its content. -/
  element : c.kind = "jsx_element" → InRow c.span c.elementParts ∧
    ∀ tag ∈ Reading.openTag? c, tag.kind = "jsx_opening_element"
  /-- The name of a tag stands before its attributes. -/
  tag : c.kind = "jsx_opening_element" → InRow c.span c.tagParts
  /-- A tag that closes itself has a name, and its parts stand before the final `/>`. -/
  selfClosing : c.kind = "jsx_self_closing_element" → (c.field? "name").isSome ∧
    InRow ⟨c.span.start, c.span.stop - 2⟩ c.tagParts ∧
      [0x2F, 0x3E] = slice (Utf8.encode text) (c.span.stop - 2) c.span.stop

instance (text : String) (c : Concrete) : Decidable (Shape text c) :=
  decidable_of_iff
    (c.span.Whole text ∧ InRow c.span c.children ∧ InRow c.span c.ordered ∧
      (∀ b ∈ c.children, b.field.isSome → functionKinds.contains b.kind → b.named) ∧
      (functionKinds.contains c.kind → c.named → (c.field? "parameters").isSome) ∧
      (c.kind = "arrow_function" → ((c.field? "parameters").or (c.field? "parameter")).isSome) ∧
      (c.kind = "class_declaration" ∨ c.kind = "abstract_class_declaration" →
        ∀ part ∈ c.namedChildren, part.field = some "name" →
          (c.field? "name").map (·.span) = some part.span) ∧
      (c.kind = "jsx_element" → InRow c.span c.elementParts ∧
        ∀ tag ∈ Reading.openTag? c, tag.kind = "jsx_opening_element") ∧
      (c.kind = "jsx_opening_element" → InRow c.span c.tagParts) ∧
      (c.kind = "jsx_self_closing_element" → (c.field? "name").isSome ∧
        InRow ⟨c.span.start, c.span.stop - 2⟩ c.tagParts ∧
          [0x2F, 0x3E] = slice (Utf8.encode text) (c.span.stop - 2) c.span.stop))
    ⟨fun ⟨h1, h2, h3, h4, h5, h6, h7, h8, h9, h10⟩ => ⟨h1, h2, h3, h4, h5, h6, h7, h8, h9, h10⟩,
      fun ⟨h1, h2, h3, h4, h5, h6, h7, h8, h9, h10⟩ => ⟨h1, h2, h3, h4, h5, h6, h7, h8, h9, h10⟩⟩

/-- What a grammar promises of a node that is read: the shapes at and below it, and that it is no
keyword of a function. -/
structure Readable (text : String) (c : Concrete) : Prop where
  shapes : ∀ b ∈ c.walk, Shape text b
  named : functionKinds.contains c.kind → c.named

instance (text : String) (c : Concrete) : Decidable (Readable text c) :=
  decidable_of_iff ((∀ b ∈ c.walk, Shape text b) ∧ (functionKinds.contains c.kind → c.named))
    ⟨fun ⟨h1, h2⟩ => ⟨h1, h2⟩, fun ⟨h1, h2⟩ => ⟨h1, h2⟩⟩

theorem mem_of_field? {b c : Concrete} {name : String} (h : c.field? name = some b) :
    b ∈ c.children :=
  List.mem_of_find?_eq_some h

theorem field_of_field? {b c : Concrete} {name : String} (h : c.field? name = some b) :
    b.field = some name := by
  have hb := List.find?_some h
  exact beq_iff_eq.1 hb

namespace Readable

variable {text : String} {b c : Concrete}

theorem shape (h : c.Readable text) : Shape text c :=
  h.shapes c c.self_mem_walk

theorem child (h : c.Readable text) (hb : b ∈ c.namedChildren) : b.Readable text := by
  obtain ⟨hb, hn⟩ := List.mem_filter.1 hb
  exact ⟨fun a ha => h.shapes a (mem_walk.2 (.inr ⟨b, hb, ha⟩)), fun _ => hn⟩

theorem field {name : String} (h : c.Readable text) (hb : c.field? name = some b) :
    b.Readable text := by
  have hm := mem_of_field? hb
  refine ⟨fun a ha => h.shapes a (mem_walk.2 (.inr ⟨b, hm, ha⟩)), h.shape.keyword b hm ?_⟩
  rw [field_of_field? hb]
  rfl

end Readable

theorem InRow.sublist {span : Span} {bs cs : List Concrete} (h : InRow span cs)
    (hs : bs.Sublist cs) : InRow span bs :=
  Row.sublist h (hs.map _)

theorem InRow.flatMap {span : Span} {cs : List Concrete} {f : Concrete → List Concrete}
    (h : InRow span cs) (hf : ∀ c ∈ cs, InRow c.span (f c)) : InRow span (cs.flatMap f) := by
  rw [InRow, List.map_flatMap]
  exact Row.flatMap h hf

theorem InRow.filterMap {span : Span} {cs : List Concrete} {f : Concrete → Option Concrete}
    (h : InRow span cs) (hf : ∀ c ∈ cs, ∀ b, f c = some b → InRow c.span [b]) :
    InRow span (cs.filterMap f) := by
  rw [List.filterMap_eq_flatMap_toList]
  refine h.flatMap fun c hc => ?_
  cases hb : f c with
  | none => exact (Row.mem h (List.mem_map_of_mem hc)).2.1
  | some b => exact hf c hc b hb

theorem InRow.eq_or_apart {span : Span} {cs : List Concrete} {a b : Concrete} (h : InRow span cs)
    (ha : a ∈ cs) (hb : b ∈ cs) :
    a = b ∨ a.span.stop ≤ b.span.start ∨ b.span.stop ≤ a.span.start :=
  Row.eq_or_apart h ha hb

theorem InRow.within {span : Span} {b : Concrete} {cs ds : List Concrete}
    (h : InRow span (cs ++ [b])) (h' : InRow b.span ds) : InRow span (cs ++ ds) := by
  rw [InRow, List.map_append] at h ⊢
  exact Row.within h h'

theorem namedChildren_sublist (c : Concrete) : c.namedChildren.Sublist c.children :=
  List.filter_sublist

theorem significant_sublist (c : Concrete) : c.significant.Sublist c.namedChildren :=
  List.filter_sublist

end Concrete

/-- The span of a node; made nodes have none, and stand nowhere. -/
def Node.span (n : Node) : Span :=
  n.place.span.getD default

namespace Reading

open Concrete

/-! ### Parts in a row -/

namespace Part

/-- The span of a part. -/
def span (p : Part) : Span :=
  (p.concrete?.map (·.span)).getD default

/-- Where the parts below a part may lie: not on the end of a tag that closes itself. -/
def inside : Part → Span
  | .opening true c => ⟨c.span.start, c.span.stop - 2⟩
  | p => p.span

/-- Whether a part comes from nodes that keep what grammars promise. -/
def Sound (text : String) : Part → Prop
  | .node c | .name c | .markupName c | .parameters c | .closing c | .nothing c => c.Readable text
  | .className named c => named.Readable text ∧ c.Readable text ∧ named.span = c.span
  | .opening selfClosing c => c.Readable text ∧ (c.field? "name").isSome ∧
      c.kind = if selfClosing then "jsx_self_closing_element" else "jsx_opening_element"
  | .spread c inner => c.Readable text ∧ inner ∈ c.namedChildren ∧ c.kind = "jsx_expression"
  | .noParameters => False

end Part

/-- Sound parts in a row within a span. -/
structure Fits (text : String) (span : Span) (parts : List Part) : Prop where
  sound : ∀ q ∈ parts, q.Sound text
  row : Row span.start span.stop (parts.map Part.span)

/-- Whether a part is sound and stands where a node stands. -/
def Stands (text : String) (c : Concrete) (q : Part) : Prop :=
  q.Sound text ∧ q.span = c.span

section Row

variable {s : Source} {text : String} {span : Span} {b c : Concrete} {cs : List Concrete}

theorem Stands.node (h : c.Readable text) : Stands text c (.node c) :=
  ⟨h, rfl⟩

theorem Fits.of_stands {parts : List Part} (h : List.Forall₂ (Stands text) cs parts)
    (hr : InRow span cs) : Fits text span parts := by
  have hs : (∀ q ∈ parts, q.Sound text) ∧ parts.map Part.span = cs.map (·.span) := by
    clear hr
    induction h with
    | nil => exact ⟨fun q hq => (by cases hq), rfl⟩
    | cons h1 _ ih =>
      refine ⟨List.forall_mem_cons.2 ⟨h1.1, ih.1⟩, ?_⟩
      rw [List.map_cons, List.map_cons, h1.2, ih.2]
  exact ⟨hs.1, hs.2 ▸ hr⟩

theorem Fits.nil (h : span.start ≤ span.stop) : Fits text span [] :=
  ⟨fun q hq => (by cases hq), h⟩

theorem stands_nodes (h : ∀ c ∈ cs, c.Readable text) :
    List.Forall₂ (Stands text) cs (cs.map .node) :=
  List.forall₂_map_right_iff.2 (List.forall₂_same.2 fun c hc => .node (h c hc))

theorem stands_field (h : c.Readable text) (field : String) :
    List.Forall₂ (Stands text) (c.field? field).toList (fieldPart c field) :=
  stands_nodes fun _ hb => h.field (Option.mem_toList.1 hb)

/-- Nodes below a shaped node in a row of their own. -/
theorem Fits.nodes (h : ∀ c ∈ cs, c.Readable text) (hr : InRow span cs) :
    Fits text span (cs.map .node) :=
  .of_stands (stands_nodes h) hr

theorem namedRow (h : c.Readable text) (hs : cs.Sublist c.namedChildren) : InRow c.span cs :=
  h.shape.nested.sublist (hs.trans c.namedChildren_sublist)

theorem Fits.children (h : c.Readable text) (hs : cs.Sublist c.namedChildren) :
    Fits text c.span (cs.map .node) :=
  .nodes (fun _ hb => h.child (hs.subset hb)) (namedRow h hs)

theorem stands_parameters (h : c.Readable text) {name : String} (hb : c.field? name = some b) :
    Stands text b (parametersPart (some b)) :=
  ⟨h.field hb, rfl⟩

theorem stands_tagPart (h : c.Readable text) : Stands text c (tagPart s c) := by
  rw [tagPart]
  split_ifs <;> exact ⟨h, rfl⟩

theorem attributePart_of_not_isAttribute (h : ¬c.isAttribute) : attributePart c = none := by
  rw [isAttribute, Bool.or_eq_true, beq_iff_eq, beq_iff_eq, not_or] at h
  rw [attributePart, if_neg h.1, if_neg h.2]

theorem stands_attribute (h : c.Readable text) (ha : c.isAttribute) :
    ∃ q, attributePart c = some q ∧ Stands text c q := by
  rw [isAttribute, Bool.or_eq_true, beq_iff_eq, beq_iff_eq] at ha
  rw [attributePart]
  by_cases h1 : c.kind = "jsx_attribute"
  · exact ⟨_, if_pos h1, h, rfl⟩
  · refine ⟨_, by rw [if_neg h1, if_pos (ha.resolve_left h1)], ?_⟩
    split
    · exact .node h
    · next inner hi =>
      have hm := List.mem_of_mem_head? (Option.filter_eq_some_iff.1 hi).1
      exact ⟨⟨h, c.significant_sublist.subset hm, ha.resolve_left h1⟩, rfl⟩

theorem stands_attributes (h : ∀ c ∈ cs, c.Readable text) :
    List.Forall₂ (Stands text) (cs.filter isAttribute) (cs.filterMap attributePart) := by
  induction cs with
  | nil => exact .nil
  | cons c cs ih =>
    obtain ⟨hc, hcs⟩ := List.forall_mem_cons.1 h
    by_cases ha : c.isAttribute
    · obtain ⟨q, hq, hs⟩ := stands_attribute hc ha
      rw [List.filter_cons_of_pos ha, List.filterMap_cons_some hq]
      exact .cons hs (ih hcs)
    · have hp := attributePart_of_not_isAttribute ha
      rw [List.filter_cons_of_neg ha, List.filterMap_cons_none hp]
      exact ih hcs

theorem stands_class (h : c.Readable text)
    (hn : c.kind = "class_declaration" ∨ c.kind = "abstract_class_declaration") :
    List.Forall₂ (Stands text) c.namedChildren
      (c.namedChildren.map (classPart (c.field? "name"))) := by
  refine List.forall₂_map_right_iff.2 (List.forall₂_same.2 fun b hb => ?_)
  have hsb := h.child hb
  rw [classPart.eq_def]
  split
  · next name hf =>
    split
    · next hbf =>
      have hsp := h.shape.className hn b hb (beq_iff_eq.1 hbf)
      rw [hf, Option.map_some, Option.some.injEq] at hsp
      refine ⟨⟨h.field hf, hsb, hsp⟩, ?_⟩
      rw [Part.span, Part.concrete?]
      split_ifs
      · rfl
      · exact hsp
    · exact .node hsb
  · exact .node hsb

/-! ### The parts of each kind -/

theorem functionOutline_fits (h : c.Readable text) (hk : functionKinds.contains c.kind)
    (label : Bool → Label) : Fits text c.span (functionOutline label c).2 := by
  obtain ⟨b, hb⟩ := Option.isSome_iff_exists.1 (h.shape.parameters hk (h.named hk))
  have hf := h.shape.fields
  rw [ordered, fieldOrder_of_functionKinds hk] at hf
  simp only [List.flatMap_cons, List.flatMap_nil, hb, List.append_nil] at hf
  rw [functionOutline, hb]
  exact .of_stands (List.rel_append (stands_field h "name")
    (.cons (stands_parameters h hb) (stands_field h "body"))) hf

theorem inRow_self (h : c.Readable text) : InRow c.span [c] :=
  ⟨le_rfl, h.shape.whole.2.2, le_rfl⟩

theorem inRow_child (h : c.Readable text) (hb : b ∈ c.children) : InRow c.span [b] :=
  h.shape.nested.sublist (List.singleton_sublist.2 hb)

theorem field_of_importedName? {d : Concrete} (h : importedName? b = some d) :
    ∃ name, b.field? name = some d := by
  rw [importedName?] at h
  split_ifs at h
  rcases Option.or_eq_some_iff.1 (Option.filter_eq_some_iff.1 h).1 with h | ⟨-, h⟩
  · exact ⟨"alias", h⟩
  · exact ⟨"name", h⟩

theorem importedNames_fit (h : c.Readable text) :
    (∀ b ∈ importedNames c, b.Readable text) ∧ InRow c.span (importedNames c) := by
  rw [importedNames]
  split_ifs
  · exact ⟨List.forall_mem_singleton.2 h, inRow_self h⟩
  · have hs : (c.namedChildren.filter (·.kind == "identifier")).Sublist c.namedChildren :=
      List.filter_sublist
    exact ⟨fun b hb => h.child (hs.subset hb), namedRow h hs⟩
  · refine ⟨fun d hd => ?_, InRow.filterMap (namedRow h (.refl _)) fun b hb d hd => ?_⟩
    · obtain ⟨b, hb, hd⟩ := List.mem_filterMap.1 hd
      obtain ⟨name, hn⟩ := field_of_importedName? hd
      exact (h.child hb).field hn
    · obtain ⟨name, hn⟩ := field_of_importedName? hd
      exact inRow_child (h.child hb) (mem_of_field? hn)
  · exact ⟨fun b hb => (by cases hb), h.shape.whole.2.2⟩

theorem importedOf_fits (h : c.Readable text) : Fits text c.span ((importedOf c).map .node) := by
  have hs : (c.namedChildren.filter (·.kind == "import_clause")).Sublist c.namedChildren :=
    List.filter_sublist
  have hb : ∀ b ∈ c.namedChildren.filter (·.kind == "import_clause"), b.Readable text :=
    fun b hb => h.child (hs.subset hb)
  refine .nodes (fun e he => ?_) (.flatMap (namedRow h hs) fun b hbm => ?_)
  · obtain ⟨b, hbm, he⟩ := List.mem_flatMap.1 he
    obtain ⟨d, hd, he⟩ := List.mem_flatMap.1 he
    exact (importedNames_fit ((hb b hbm).child hd)).1 e he
  · exact .flatMap (namedRow (hb b hbm) (.refl _)) fun d hd =>
      (importedNames_fit ((hb b hbm).child hd)).2

theorem callOutline_fits (h : c.Readable text) (hk : c.kind = "call_expression") :
    Fits text c.span (fieldPart c "function" ++ (argumentsOf c).map .node) := by
  have hf := h.shape.fields
  rw [ordered, hk] at hf
  change InRow c.span ((c.field? "function").toList ++ ((c.field? "arguments").toList ++ [])) at hf
  rw [List.append_nil] at hf
  have ha : (∀ b ∈ argumentsOf c, b.Readable text) ∧
      InRow c.span ((c.field? "function").toList ++ argumentsOf c) := by
    rw [argumentsOf.eq_def]
    split
    · next hn =>
      rw [hn] at hf
      exact ⟨fun b hb => (by cases hb), hf⟩
    · next list hl =>
      have hls := h.field hl
      rw [hl] at hf
      split_ifs
      · exact ⟨fun b hb => hls.child (list.significant_sublist.subset hb),
          hf.within (namedRow hls list.significant_sublist)⟩
      · exact ⟨List.forall_mem_singleton.2 hls, hf⟩
  exact .of_stands (List.rel_append (stands_field h "function") (stands_nodes ha.1)) ha.2

theorem arrowOutline_fits (h : c.Readable text) (hk : c.kind = "arrow_function") :
    Fits text c.span (parametersPart ((c.field? "parameters").or (c.field? "parameter")) ::
      fieldPart c "body") := by
  have hf := h.shape.fields
  rw [ordered, hk] at hf
  change InRow c.span ((c.field? "parameters").toList ++ ((c.field? "parameter").toList ++
    ((c.field? "body").toList ++ []))) at hf
  rw [List.append_nil] at hf
  have hp := h.shape.parameter hk
  cases h1 : c.field? "parameters" with
  | some b =>
    rw [h1] at hf
    exact .of_stands (.cons (stands_parameters h h1) (stands_field h "body"))
      (hf.sublist (.cons_cons b (List.sublist_append_right _ _)))
  | none =>
    rw [h1] at hf hp
    obtain ⟨b, h2⟩ := Option.isSome_iff_exists.1 hp
    rw [Option.none_or] at h2
    rw [h2] at hf
    rw [Option.none_or, h2]
    exact .of_stands (.cons (stands_parameters h h2) (stands_field h "body")) hf

theorem methodOutline_fits (h : c.Readable text) (hk : functionKinds.contains c.kind) :
    Fits text c.span (parametersPart (c.field? "parameters") :: fieldPart c "body") := by
  have hf := functionOutline_fits h hk .functionExpression
  rw [functionOutline] at hf
  exact ⟨fun q hq => hf.sound q (List.mem_append_right _ hq),
    hf.row.sublist ((List.sublist_append_right _ _).map _)⟩

theorem objectOf_fits (h : c.Readable text) :
    Fits text c.span ((objectOf? c).toList.map .node) := by
  cases ho : objectOf? c with
  | none => exact .nil h.shape.whole.2.2
  | some b =>
    rcases Option.or_eq_some_iff.1 ho with ho | ⟨-, ho⟩
    · exact .of_stands (.cons (.node (h.field ho)) .nil) (inRow_child h (mem_of_field? ho))
    · exact .children h (List.singleton_sublist.2
        (c.significant_sublist.subset (List.mem_of_mem_head? ho)))

theorem head?_sublist {α : Type} (l : List α) : l.head?.toList.Sublist l := by
  cases l with
  | nil => exact .slnil
  | cons a l => exact .cons_cons a (List.nil_sublist l)

theorem otherOutline_fits (h : c.Readable text) (keyword : Option String) :
    Fits text c.span (otherOutline c keyword).2 :=
  .children h (.refl _)

theorem binaryOutline_fits (h : c.Readable text) (hk : c.kind = "binary_expression") :
    Fits text c.span (binaryOutline c).2 := by
  have hf := h.shape.fields
  rw [ordered, hk] at hf
  change InRow c.span ((c.field? "left").toList ++ ((c.field? "right").toList ++ [])) at hf
  rw [List.append_nil] at hf
  rw [binaryOutline]
  split
  · exact otherOutline_fits h none
  · exact .of_stands (List.rel_append (stands_field h "left") (stands_field h "right")) hf

theorem readable_openTag? (h : c.Readable text) (ho : openTag? c = some b) :
    b.Readable text ∧ (b.field? "name").isSome := by
  obtain ⟨ho, hn⟩ := Option.filter_eq_some_iff.1 ho
  refine ⟨?_, hn⟩
  rcases Option.or_eq_some_iff.1 ho with ho | ⟨-, ho⟩
  · exact h.field ho
  · exact h.child (List.mem_of_find?_eq_some ho)

theorem readable_closeTag? (h : c.Readable text) (hc : closeTag? c = some b) :
    b.Readable text := by
  rcases Option.or_eq_some_iff.1 hc with hc | ⟨-, hc⟩
  · exact h.field hc
  · exact h.child (List.mem_of_find?_eq_some hc)

theorem elementOutline_fits (h : c.Readable text) (hk : c.kind = "jsx_element") :
    Fits text c.span (elementOutline c).2 := by
  obtain ⟨hr, ht⟩ := h.shape.element hk
  have hc : (contentOf c).Sublist c.namedChildren := List.filter_sublist
  rw [elementOutline]
  cases ho : openTag? c with
  | none => exact .children h hc
  | some tag =>
    rw [elementParts, ho] at hr
    obtain ⟨htag, hn⟩ := readable_openTag? h ho
    have hstag : Stands text tag (.opening false tag) := ⟨⟨htag, hn, ht tag ho⟩, rfl⟩
    have hclose : List.Forall₂ (Stands text) (closeTag? c).toList
        ((closeTag? c).toList.map .closing) := by
      refine List.forall₂_map_right_iff.2 (List.forall₂_same.2 fun b hb => ⟨?_, rfl⟩)
      exact readable_closeTag? h (Option.mem_toList.1 hb)
    exact .of_stands (.cons hstag (List.rel_append
      (stands_nodes fun b hb => h.child (hc.subset hb)) hclose)) hr

theorem specifierOutline_fits (h : c.Readable text) :
    Fits text c.span (specifierOutline s c).2 := by
  rw [specifierOutline.eq_def]
  split
  · exact .nil h.shape.whole.2.2
  · next name hn =>
    have hm := (Option.filter_eq_some_iff.1 hn).1
    split_ifs
    · exact .nil h.shape.whole.2.2
    · exact .of_stands (.cons ⟨h.field hm, rfl⟩ .nil) (inRow_child h (mem_of_field? hm))

theorem attributeOutline_fits (h : c.Readable text) : Fits text c.span
    (c.significant.head?.toList.map .markupName ++ c.significant.tail.head?.toList.map .node) := by
  have hr := namedRow h c.significant_sublist
  have hc : ∀ b ∈ c.significant, b.Readable text := fun b hb =>
    h.child (c.significant_sublist.subset hb)
  generalize c.significant = l at hr hc
  cases l with
  | nil => exact .nil h.shape.whole.2.2
  | cons a l =>
    obtain ⟨ha, hl⟩ := List.forall_mem_cons.1 hc
    refine .of_stands (.cons ⟨ha, rfl⟩ (stands_nodes fun b hb => ?_))
      (hr.sublist (.cons_cons a (head?_sublist l)))
    exact hl b ((head?_sublist l).subset hb)

theorem stands_fields (h : c.Readable text) (fields : List String) :
    List.Forall₂ (Stands text) (fields.flatMap fun field => (c.field? field).toList)
      (fields.flatMap (fieldPart c)) := by
  induction fields with
  | nil => exact .nil
  | cons field fields ih => exact List.rel_append (stands_field h field) ih

theorem fieldsOutline_fits (h : c.Readable text) {fields : List String}
    (hk : fieldOrder c.kind = fields) : Fits text c.span (fields.flatMap (fieldPart c)) := by
  subst hk
  exact .of_stands (stands_fields h _) h.shape.fields

/-- The parts below a node fit into it. -/
theorem nodeOutline_fits (h : c.Readable text) : Fits text c.span (nodeOutline s c).2 := by
  have hnil : Fits text c.span [] := .nil h.shape.whole.2.2
  rw [nodeOutline]
  split
  case h_1 | h_2 => exact .children h (.refl _)
  case h_3 hk | h_4 hk | h_5 hk | h_6 hk | h_7 hk =>
    exact functionOutline_fits h (by rw [hk]; rfl) _
  case h_8 hk => exact arrowOutline_fits h hk
  case h_9 hk => exact methodOutline_fits h (by rw [hk]; rfl)
  case h_10 | h_11 => exact .children h List.filter_sublist
  case h_12 hk =>
    have hf := fieldsOutline_fits h (show fieldOrder c.kind = ["name", "value"] by rw [hk]; rfl)
    simpa using hf
  case h_13 | h_31 => exact .children h ((head?_sublist _).trans c.significant_sublist)
  case h_14 hk => exact callOutline_fits h hk
  case h_15 => exact objectOf_fits h
  case h_16 hk =>
    have hf := fieldsOutline_fits h
      (show fieldOrder c.kind = ["condition", "consequence", "alternative"] by rw [hk]; rfl)
    simpa using hf
  case h_17 hk => exact binaryOutline_fits h hk
  case h_18 =>
    rw [parenthesizedOutline]
    split
    · next inner hi =>
      exact .children h (List.singleton_sublist.2
        (c.significant_sublist.subset (List.mem_of_mem_head? hi)))
    · exact otherOutline_fits h none
  case h_19 | h_20 | h_21 | h_22 | h_33 | h_34 => exact hnil
  case h_23 => exact importedOf_fits h
  case h_24 =>
    rw [exportOutline]
    split_ifs
    · exact hnil
    · exact otherOutline_fits h none
  case h_25 => exact specifierOutline_fits h
  case h_26 hk => exact .of_stands (stands_class h (.inl hk)) (namedRow h (.refl _))
  case h_27 hk => exact .of_stands (stands_class h (.inr hk)) (namedRow h (.refl _))
  case h_28 | h_35 => exact otherOutline_fits h _
  case h_29 hk => exact elementOutline_fits h hk
  case h_30 hk =>
    exact .of_stands (.cons ⟨⟨h, (h.shape.selfClosing hk).1, hk⟩, rfl⟩ .nil) (inRow_self h)
  case h_32 => exact attributeOutline_fits h

/-- The parts below a part fit into it. -/
theorem Part.Sound.fits {p : Part} (h : p.Sound text) : Fits text p.inside (p.outline s).2 := by
  cases p with
  | node c => exact nodeOutline_fits h
  | name c => exact .nil h.shape.whole.2.2
  | markupName c => exact .nil h.shape.whole.2.2
  | className named c =>
    obtain ⟨hn, hc, hs⟩ := h
    show Fits text (Part.className named c).span _
    rw [Part.outline, Part.span, Part.concrete?]
    split_ifs
    · exact nodeOutline_fits hc
    · exact .nil hn.shape.whole.2.2
  | parameters c =>
    rw [Part.outline]
    split_ifs
    · exact .children h c.significant_sublist
    · exact .of_stands (.cons (.node h) .nil) (inRow_self h)
  | noParameters => exact h.elim
  | opening selfClosing c =>
    obtain ⟨hc, -, hk⟩ := h
    have hn : ∀ b ∈ c.namedChildren, b.Readable text := fun b hb => hc.child hb
    have hs : List.Forall₂ (Stands text) c.tagParts
        ((c.field? "name").toList.map (tagPart s) ++ c.namedChildren.filterMap attributePart) := by
      refine List.rel_append (List.forall₂_map_right_iff.2 (List.forall₂_same.2 ?_))
        (stands_attributes hn)
      exact fun b hb => stands_tagPart (hc.field (Option.mem_toList.1 hb))
    cases selfClosing with
    | true => exact .of_stands hs (hc.shape.selfClosing hk).2.1
    | false => exact .of_stands hs (hc.shape.tag hk)
  | closing c =>
    cases hn : c.field? "name" with
    | none =>
      rw [Part.outline, hn]
      exact .nil h.shape.whole.2.2
    | some b =>
      rw [Part.outline, hn]
      exact .of_stands (.cons (stands_tagPart (h.field hn)) .nil) (inRow_child h (mem_of_field? hn))
  | spread c inner =>
    obtain ⟨hc, hi, -⟩ := h
    have hin := hc.child hi
    have hr := inRow_child hc (c.namedChildren_sublist.subset hi)
    rw [Part.outline]
    split
    · next argument ha =>
      have hm := inner.significant_sublist.subset (List.mem_of_mem_head? ha)
      have hrow : InRow c.span [argument] :=
        Row.mono (namedRow hin (List.singleton_sublist.2 hm)) hr.1 hr.2.2
      exact .of_stands (.cons (.node (hin.child hm)) .nil) hrow
    · exact .of_stands (.cons ⟨hin, rfl⟩ .nil) hr
  | nothing c => exact .nil h.shape.whole.2.2

theorem Part.Sound.place {p : Part} (h : p.Sound text) (s : Source) :
    (p.place s).span = some p.span := by
  cases p with
  | noParameters => exact h.elim
  | _ => rfl

theorem span_of_readAs {p : Part} {n : Node} (h : ReadAs s p n) (hs : p.Sound text) :
    n.span = p.span := by
  rw [Node.span, h.place_eq, hs.place]
  rfl

/-- The nodes that fill sound parts stand where the parts stand. -/
theorem spans_of_readAs {parts : List Part} {kids : List Node}
    (h : List.Forall₂ (ReadAs s) parts kids) (hs : ∀ q ∈ parts, q.Sound text) :
    kids.map Node.span = parts.map Part.span := by
  induction h with
  | nil => rfl
  | cons h _ ih =>
    obtain ⟨hq, hqs⟩ := List.forall_mem_cons.1 hs
    rw [List.map_cons, List.map_cons, span_of_readAs h hq, ih hqs]

theorem Part.Sound.whole {p : Part} (h : p.Sound text) : p.span.Whole text := by
  cases p with
  | noParameters => exact h.elim
  | className named c =>
    rw [Part.span, Part.concrete?]
    split_ifs
    · exact h.2.1.shape.whole
    · exact h.1.shape.whole
  | opening _ c => exact h.1.shape.whole
  | spread c _ => exact h.1.shape.whole
  | _ c => exact h.shape.whole

end Row

end Reading
end JsxLint
