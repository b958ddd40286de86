import JsxLint.Proofs.Reading.Shape

/-!
# The parts of a node

Which parts the outline of a node can hold, and what of the node each of them comes from. What is
proved of all the parts below a node goes by the cases of `PartOf`, not by the kinds of nodes.

* `PartOf`: the parts that a node can have, export specifiers apart;
* `mem_nodeOutline`: whatever stands below a node is one of them, or the name of a specifier.
-/

namespace JsxLint.Reading

open Concrete

/-- The parts that a node can have, when it is no export specifier. -/
inductive PartOf (c : Concrete) : Part → Prop
  | named {b : Concrete} (h : b ∈ c.namedChildren) : PartOf c (.node b)
  | field {field : String} {b : Concrete} (h : c.field? field = some b) : PartOf c (.node b)
  | argument {b : Concrete} (h : b ∈ argumentsOf c) : PartOf c (.node b)
  | imported {b : Concrete} (h : b ∈ importedOf c) : PartOf c (.node b)
  | parameters {field : String} {b : Concrete} (h : c.field? field = some b) :
    PartOf c (.parameters b)
  /-- The parameter list that a function or an arrow function lacks. -/
  | noParameters (h : functionKinds.contains c.kind ∧ c.field? "parameters" = none ∨
      c.kind = "arrow_function" ∧ (c.field? "parameters").or (c.field? "parameter") = none) :
    PartOf c .noParameters
  | className {name b : Concrete} (hn : c.field? "name" = some name) (h : b ∈ c.namedChildren) :
    PartOf c (.className name b)
  | opening {tag : Concrete} (hk : c.kind = "jsx_element") (h : openTag? c = some tag) :
    PartOf c (.opening false tag)
  | closing {tag : Concrete} (hk : c.kind = "jsx_element") (h : closeTag? c = some tag) :
    PartOf c (.closing tag)
  | selfClosing (hk : c.kind = "jsx_self_closing_element") : PartOf c (.opening true c)
  | attributeName {b : Concrete} (h : b ∈ c.significant) : PartOf c (.markupName b)

section PartOf

variable {s : Source} {c : Concrete} {q : Part}

theorem PartOf.significant {b : Concrete} (h : b ∈ c.significant) : PartOf c (.node b) :=
  .named (c.significant_sublist.subset h)

theorem partOf_nodes {cs : List Concrete} (h : ∀ b ∈ cs, PartOf c (.node b)) :
    ∀ q ∈ cs.map Part.node, PartOf c q :=
  List.forall_mem_map.2 h

theorem partOf_named : ∀ q ∈ c.namedChildren.map Part.node, PartOf c q :=
  partOf_nodes fun _ => .named

theorem partOf_filter {f : Concrete → Bool} :
    ∀ q ∈ (c.namedChildren.filter f).map Part.node, PartOf c q :=
  partOf_nodes fun _ hb => .named (List.mem_filter.1 hb).1

theorem partOf_first : ∀ q ∈ c.significant.head?.toList.map Part.node, PartOf c q :=
  partOf_nodes fun _ hb => .significant ((head?_sublist _).subset hb)

theorem partOf_field (field : String) : ∀ q ∈ fieldPart c field, PartOf c q :=
  partOf_nodes fun _ hb => .field (Option.mem_toList.1 hb)

theorem partOf_parameters (hk : functionKinds.contains c.kind) :
    PartOf c (parametersPart (c.field? "parameters")) := by
  cases h : c.field? "parameters" with
  | none => exact .noParameters (.inl ⟨hk, h⟩)
  | some b => exact .parameters h

theorem partOf_arrowParameters (hk : c.kind = "arrow_function") :
    PartOf c (parametersPart ((c.field? "parameters").or (c.field? "parameter"))) := by
  cases h : (c.field? "parameters").or (c.field? "parameter") with
  | none => exact .noParameters (.inr ⟨hk, h⟩)
  | some b => rcases Option.or_eq_some_iff.1 h with h | ⟨-, h⟩ <;> exact .parameters h

theorem partOf_function (hk : functionKinds.contains c.kind) (label : Bool → Label) :
    ∀ q ∈ (functionOutline label c).2, PartOf c q :=
  List.forall_mem_append.2
    ⟨partOf_field _, List.forall_mem_cons.2 ⟨partOf_parameters hk, partOf_field _⟩⟩

theorem partOf_object : ∀ q ∈ (objectOf? c).toList.map Part.node, PartOf c q := by
  refine partOf_nodes fun b hb => ?_
  rcases Option.or_eq_some_iff.1 (Option.mem_toList.1 hb) with h | ⟨-, h⟩
  · exact .field h
  · exact .significant (List.mem_of_mem_head? h)

theorem partOf_binary : ∀ q ∈ (binaryOutline c).2, PartOf c q := by
  rw [binaryOutline]
  split
  · exact partOf_named
  · exact List.forall_mem_append.2 ⟨partOf_field _, partOf_field _⟩

theorem partOf_parenthesized : ∀ q ∈ (parenthesizedOutline c).2, PartOf c q := by
  rw [parenthesizedOutline]
  split
  · next inner h =>
    exact List.forall_mem_singleton.2 (.significant (List.mem_of_mem_head? h))
  · exact partOf_named

theorem partOf_export : ∀ q ∈ (exportOutline c).2, PartOf c q := by
  rw [exportOutline]
  split_ifs
  · exact List.forall_mem_nil _
  · exact partOf_named

theorem partOf_class : ∀ q ∈ (classOutline c).2, PartOf c q := by
  refine List.forall_mem_map.2 fun b hb => ?_
  rw [classPart.eq_def]
  split
  · next name hn =>
    split_ifs
    · exact .className hn hb
    · exact .named hb
  · exact .named hb

theorem partOf_element (hk : c.kind = "jsx_element") : ∀ q ∈ (elementOutline c).2, PartOf c q := by
  rw [elementOutline]
  split
  · exact partOf_filter
  · next tag ht =>
    refine List.forall_mem_append.2 ⟨List.forall_mem_cons.2 ⟨.opening hk ht, partOf_filter⟩, ?_⟩
    exact List.forall_mem_map.2 fun b hb => .closing hk (Option.mem_toList.1 hb)

theorem partOf_attribute : ∀ q ∈ c.significant.head?.toList.map Part.markupName ++
    c.significant.tail.head?.toList.map .node, PartOf c q := by
  refine List.forall_mem_append.2
    ⟨List.forall_mem_map.2 fun b hb => ?_, partOf_nodes fun b hb => ?_⟩
  · exact .attributeName ((head?_sublist _).subset hb)
  · exact .significant (List.mem_of_mem_tail ((head?_sublist _).subset hb))

/-- Below a node that is no export specifier stand the parts that a node can have. -/
theorem partOf_of_mem (hs : c.kind ≠ "export_specifier") :
    ∀ q ∈ (nodeOutline s c).2, PartOf c q := by
  rw [nodeOutline]
  split
  case h_3 hk | h_4 hk | h_5 hk | h_6 hk | h_7 hk => exact partOf_function (by rw [hk]; decide) _
  case h_8 hk => exact List.forall_mem_cons.2 ⟨partOf_arrowParameters hk, partOf_field _⟩
  case h_9 hk =>
    exact List.forall_mem_cons.2 ⟨partOf_parameters (by rw [hk]; decide), partOf_field _⟩
  case h_10 | h_11 => exact partOf_filter
  case h_12 => exact List.forall_mem_append.2 ⟨partOf_field _, partOf_field _⟩
  case h_13 | h_31 => exact partOf_first
  case h_14 => exact List.forall_mem_append.2 ⟨partOf_field _, partOf_nodes fun _ => .argument⟩
  case h_15 => exact partOf_object
  case h_16 =>
    exact List.forall_mem_append.2
      ⟨List.forall_mem_append.2 ⟨partOf_field _, partOf_field _⟩, partOf_field _⟩
  case h_17 => exact partOf_binary
  case h_18 => exact partOf_parenthesized
  case h_19 | h_20 | h_21 | h_22 | h_33 | h_34 => exact List.forall_mem_nil _
  case h_23 => exact partOf_nodes fun _ => .imported
  case h_24 => exact partOf_export
  case h_25 hk => exact absurd hk hs
  case h_26 | h_27 => exact partOf_class
  case h_29 hk => exact partOf_element hk
  case h_30 hk => exact List.forall_mem_singleton.2 (.selfClosing hk)
  case h_32 => exact partOf_attribute
  all_goals exact partOf_named

/-- Below an export specifier stands its name at most, beside an alias. -/
theorem mem_specifier (hs : c.kind = "export_specifier") (h : q ∈ (nodeOutline s c).2) :
    ∃ name, q = .name name ∧ c.field? "name" = some name ∧ name.kind = "identifier" ∧
      (c.field? "alias").isSome := by
  rw [nodeOutline_specifier hs, specifierOutline.eq_def] at h
  split at h
  · cases h
  · next name hn =>
    obtain ⟨hf, hi⟩ := Option.filter_eq_some_iff.1 hn
    split_ifs at h with ha
    · cases h
    · refine ⟨name, List.mem_singleton.1 h, hf, beq_iff_eq.1 hi, ?_⟩
      simpa [Option.isSome_iff_ne_none] using ha

/-- What can stand below a node: the name of an export specifier, or a part that other nodes can
have. -/
theorem mem_nodeOutline (h : q ∈ (nodeOutline s c).2) :
    (c.kind = "export_specifier" ∧ ∃ name, q = .name name ∧ c.field? "name" = some name ∧
      name.kind = "identifier" ∧ (c.field? "alias").isSome) ∨
    (c.kind ≠ "export_specifier" ∧ PartOf c q) :=
  (em _).imp (fun hs => ⟨hs, mem_specifier hs h⟩) fun hs => ⟨hs, partOf_of_mem hs q h⟩

end PartOf

end JsxLint.Reading
