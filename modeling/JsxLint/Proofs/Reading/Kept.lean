import JsxLint.Proofs.Reading.Shape

/-!
# What reading goes on with

Of some kinds of concrete nodes only some children become syntax, and the rest stays text. A name
is lost to reading when a node on the way to it is not among the kept children of its parent.

* `Concrete.kept`: the children of a node that reading goes on with;
* `Concrete.NameShape`: what a grammar promises of names, and of the places of some kinds;
* `Concrete.Loses`: whether reading a node loses a name below it;
* `Concrete.loses_child`: a name below a child is lost when the child is not kept, or loses it.
-/

namespace JsxLint.Concrete

open Reading

/-! ### Kept children -/

/-- Whether a node is a name. -/
def isName (c : Concrete) : Bool :=
  nameKinds.contains c.kind

/-- The kinds of tags. -/
def tagKinds : List String :=
  ["jsx_opening_element", "jsx_closing_element", "jsx_self_closing_element"]

/-- The children that fill some fields. -/
def filling (c : Concrete) (fields : List String) : List Concrete :=
  fields.flatMap fun field => (c.field? field).toList

/-- The name of a tag that refers to a component. -/
def component? (s : Source) (c : Concrete) : Option Concrete :=
  (c.field? "name").filter fun name => name.kind != "jsx_namespace_name" &&
    (name.kind != "identifier" || Letter.startsUpper (textOf s name))

/-- The children of a node that reading goes on with. -/
def kept (s : Source) (c : Concrete) : List Concrete :=
  match c.kind with
  | "function_declaration" | "generator_function_declaration" | "function_expression" | "function"
  | "generator_function" => c.filling ["name", "parameters", "body"]
  | "arrow_function" =>
    ((c.field? "parameters").or (c.field? "parameter")).toList ++ c.filling ["body"]
  | "method_definition" => c.filling ["parameters", "body"]
  | "lexical_declaration" | "variable_declaration" =>
    c.namedChildren.filter (·.kind == "variable_declarator")
  | "variable_declarator" => c.filling ["name", "value"]
  | "return_statement" | "parenthesized_expression" | "jsx_expression" =>
    c.significant.head?.toList
  | "call_expression" => c.filling ["function", "arguments"]
  | "member_expression" => (objectOf? c).toList
  | "ternary_expression" => c.filling ["condition", "consequence", "alternative"]
  | "binary_expression" =>
    if ((c.field? "operator").filter fun o => logicalOperators.contains o.kind).isSome then
      c.filling ["left", "right"]
    else c.namedChildren
  | "import_statement" => c.namedChildren.filter (·.kind == "import_clause")
  | "import_clause" => c.namedChildren.filter fun item =>
      item.kind == "identifier" || item.kind == "namespace_import" || item.kind == "named_imports"
  | "namespace_import" => c.namedChildren.filter (·.kind == "identifier")
  | "named_imports" => c.namedChildren.filter (·.kind == "import_specifier")
  | "import_specifier" => (importedName? c).toList
  | "export_statement" => if (c.field? "source").isSome then [] else c.namedChildren
  | "export_specifier" => ((c.field? "name").filter (·.kind == "identifier")).toList
  | "jsx_element" =>
    (openTag? c).toList ++ contentOf c ++
      (if (openTag? c).isSome then (closeTag? c).toList else [])
  | "jsx_opening_element" | "jsx_self_closing_element" =>
    (c.component? s).toList ++ c.namedChildren.filter isAttribute
  | "jsx_closing_element" => (c.component? s).toList
  | "jsx_attribute" => c.significant.tail.head?.toList
  | "identifier" | "shorthand_property_identifier" | "shorthand_property_identifier_pattern"
  | "string" | "jsx_text" | "html_character_reference" => []
  | _ => c.namedChildren

/-! ### What grammars promise of names -/

/-- The kinds of the parents of a kind that stands in some places only. -/
def parentKinds? : String → Option (List String)
  | "jsx_opening_element" | "jsx_closing_element" => some ["jsx_element"]
  | "jsx_namespace_name" => some ("jsx_attribute" :: tagKinds)
  | "import_clause" => some ["import_statement"]
  | "namespace_import" | "named_imports" => some ["import_clause"]
  | "import_specifier" => some ["named_imports"]
  | _ => none

/-- Whether no name stands at or below a node. -/
def Nameless (c : Concrete) : Prop :=
  ∀ x ∈ c.walk, x.isName = false

/-- What a grammar promises of one node: about names, and about the kinds of its parts. -/
structure NameShape (c : Concrete) : Prop where
  /-- Children lie one behind the other within their parent. -/
  nested : InRow c.span c.children
  /-- A name is a rule without parts and not empty. -/
  leaf : c.isName → c.named ∧ c.children = [] ∧ c.span.start < c.span.stop
  /-- No name stands in a token or in a comment. -/
  silent : c.named = false ∨ c.kind = "comment" → c.Nameless
  /-- Some kinds stand in some places only. -/
  placed : ∀ b ∈ c.children, ∀ kinds ∈ parentKinds? b.kind, c.kind ∈ kinds
  /-- A class has one name, without parts. -/
  className : c.kind = "class_declaration" ∨ c.kind = "abstract_class_declaration" →
    (c.children.filter (·.field == some "name")).length ≤ 1 ∧
      ∀ b ∈ c.children, b.field = some "name" → b.children = []
  /-- The tags of an element are tags. -/
  tags : c.kind = "jsx_element" → (∀ b ∈ openTag? c, b.kind = "jsx_opening_element") ∧
    ∀ b ∈ closeTag? c, b.kind = "jsx_closing_element"
  /-- The value of an attribute is no namespaced name. -/
  value : c.kind = "jsx_attribute" → ∀ b ∈ c.significant.tail.head?, b.kind ≠ "jsx_namespace_name"
  /-- One thing is spread. -/
  spread : c.kind = "spread_element" → c.significant.length ≤ 1
  /-- The names in an export list are the exported name and its alias. -/
  specifier : c.kind = "export_specifier" →
    (c.children.filter (·.field == some "name")).length ≤ 1 ∧
      ∀ b ∈ c.children, b.field ≠ some "name" → b.field ≠ some "alias" → b.Nameless

instance (c : Concrete) : Decidable c.Nameless :=
  inferInstanceAs (Decidable (∀ x ∈ c.walk, x.isName = false))

instance (c : Concrete) : Decidable (NameShape c) :=
  decidable_of_iff
    (InRow c.span c.children ∧
      (c.isName → c.named ∧ c.children = [] ∧ c.span.start < c.span.stop) ∧
      (c.named = false ∨ c.kind = "comment" → c.Nameless) ∧
      (∀ b ∈ c.children, ∀ kinds ∈ parentKinds? b.kind, c.kind ∈ kinds) ∧
      (c.kind = "class_declaration" ∨ c.kind = "abstract_class_declaration" →
        (c.children.filter (·.field == some "name")).length ≤ 1 ∧
          ∀ b ∈ c.children, b.field = some "name" → b.children = []) ∧
      (c.kind = "jsx_element" → (∀ b ∈ openTag? c, b.kind = "jsx_opening_element") ∧
        ∀ b ∈ closeTag? c, b.kind = "jsx_closing_element") ∧
      (c.kind = "jsx_attribute" →
        ∀ b ∈ c.significant.tail.head?, b.kind ≠ "jsx_namespace_name") ∧
      (c.kind = "spread_element" → c.significant.length ≤ 1) ∧
      (c.kind = "export_specifier" →
        (c.children.filter (·.field == some "name")).length ≤ 1 ∧
          ∀ b ∈ c.children, b.field ≠ some "name" → b.field ≠ some "alias" → b.Nameless))
    ⟨fun ⟨h1, h2, h3, h4, h5, h6, h7, h8, h9⟩ => ⟨h1, h2, h3, h4, h5, h6, h7, h8, h9⟩,
      fun ⟨h1, h2, h3, h4, h5, h6, h7, h8, h9⟩ => ⟨h1, h2, h3, h4, h5, h6, h7, h8, h9⟩⟩

/-- What a grammar promises of a node and everything below it. -/
def NamesShaped (c : Concrete) : Prop :=
  ∀ b ∈ c.walk, NameShape b

instance (c : Concrete) : Decidable c.NamesShaped :=
  inferInstanceAs (Decidable (∀ b ∈ c.walk, NameShape b))

theorem NamesShaped.shape {c : Concrete} (h : c.NamesShaped) : NameShape c :=
  h c c.self_mem_walk

theorem NamesShaped.child {b c : Concrete} (h : c.NamesShaped) (hb : b ∈ c.children) :
    b.NamesShaped :=
  fun a ha => h a (mem_walk.2 (.inr ⟨b, hb, ha⟩))

section Ways

variable {s : Source} {a b c x : Concrete}

theorem NamesShaped.inside (h : c.NamesShaped) (hx : x ∈ c.walk) :
    c.span.start ≤ x.span.start ∧ x.span.stop ≤ c.span.stop := by
  induction c using induct with
  | step c ih =>
    rcases mem_walk.1 hx with rfl | ⟨b, hb, hx⟩
    · exact ⟨le_rfl, le_rfl⟩
    · have h1 := Row.mem h.shape.nested (List.mem_map_of_mem hb)
      have h2 := ih b hb (h.child hb) hx
      exact ⟨h1.1.trans h2.1, h2.2.trans h1.2.2⟩

/-- Something around a name and a name below a node are below the same child. -/
theorem NamesShaped.child_eq (h : c.NamesShaped) (ha : a ∈ c.children) (hb : b ∈ c.children)
    {y : Concrete} (hy : y ∈ a.walk) (hx : x ∈ b.walk) (hn : x.isName)
    (hyx : y.span.start ≤ x.span.start ∧ x.span.stop ≤ y.span.stop) : a = b := by
  have h1 := (h.child ha).inside hy
  have h2 := (h.child hb).inside hx
  have h3 := (h.child hb x hx).leaf hn
  rcases h.shape.nested.eq_or_apart ha hb with he | he | he
  · exact he
  · omega
  · omega

/-- What stands around a name has the name below it, unless it is the name itself. -/
theorem NamesShaped.mem_of_around (h : c.NamesShaped) (ha : a ∈ c.walk) (hx : x ∈ c.walk)
    (hn : x.isName) (hax : a.span.start ≤ x.span.start ∧ x.span.stop ≤ a.span.stop) :
    x ∈ a.walk := by
  induction c using induct with
  | step c ih =>
    rcases mem_walk.1 ha with rfl | ⟨b, hb, hab⟩
    · exact hx
    · rcases mem_walk.1 hx with rfl | ⟨d, hd, hxd⟩
      · rw [(h.shape.leaf hn).2.1] at hb
        cases hb
      · obtain rfl := h.child_eq hb hd hab hxd hn hax
        exact ih b hb (h.child hb) hab hxd

/-! ### Lost names -/

/-- Whether a node on the way from one node to another stands in a given relation to its parent. -/
def OnWay (E : Concrete → Concrete → Prop) (c x : Concrete) : Prop :=
  ∃ a ∈ c.walk, ∃ b ∈ a.children, E a b ∧ x ∈ b.walk

/-- Whether reading a node loses a node below it: it does not keep a child on the way. -/
def Loses (s : Source) : Concrete → Concrete → Prop :=
  OnWay fun a b => b ∉ a.kept s

/-- The way to a name leads through one child. -/
theorem onWay_child {E : Concrete → Concrete → Prop} (h : c.NamesShaped) (hb : b ∈ c.children)
    (hx : x ∈ b.walk) (hn : x.isName) : OnWay E c x ↔ E c b ∨ OnWay E b x := by
  constructor
  · rintro ⟨a, ha, d, hd, hE, hxd⟩
    rcases mem_walk.1 ha with rfl | ⟨e, he, hae⟩
    · exact .inl (h.child_eq hd hb hxd hx hn ⟨le_rfl, le_rfl⟩ ▸ hE)
    · have hxe : x ∈ e.walk := mem_walk_trans (mem_walk_trans hxd (mem_walk.2 (.inr ⟨d, hd,
        self_mem_walk d⟩))) hae
      obtain rfl := h.child_eq he hb hxe hx hn ⟨le_rfl, le_rfl⟩
      exact .inr ⟨a, hae, d, hd, hE, hxd⟩
  · rintro (hE | ⟨a, ha, d, hd, hE, hxd⟩)
    · exact ⟨c, c.self_mem_walk, b, hb, hE, hx⟩
    · exact ⟨a, mem_walk.2 (.inr ⟨b, hb, ha⟩), d, hd, hE, hxd⟩

theorem loses_child (h : c.NamesShaped) (hb : b ∈ c.children) (hx : x ∈ b.walk) (hn : x.isName) :
    c.Loses s x ↔ b ∉ c.kept s ∨ b.Loses s x :=
  onWay_child h hb hx hn

theorem loses_kept (h : c.NamesShaped) (hb : b ∈ c.children) (hk : b ∈ c.kept s) (hx : x ∈ b.walk)
    (hn : x.isName) : c.Loses s x ↔ b.Loses s x := by
  rw [loses_child h hb hx hn, or_iff_right (not_not.2 hk)]

end Ways

end JsxLint.Concrete
