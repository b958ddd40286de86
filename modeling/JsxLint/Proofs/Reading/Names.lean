import JsxLint.Proofs.Reading.Covering

/-!
# The names of a text in its tree

Which names of a text have an identifier in its tree: those that no node on the way to them keeps
from being read. Some names are left out on purpose; others stand in text that no builder looks
into, and nothing that works on the tree can see them.

* `Part.Below`, `ReadAs.exists_below`: the parts below a part, and the nodes that are read from them;
* `ReadAs.exists_spelled`: a name that a part does not lose is spelled by a part below it;
* `Excepted`, `Neglected`: the two sorts of children that reading does not go on with;
* `Represents`, `represents_iff`: a name has an identifier just when neither sort is on its way.
-/

namespace JsxLint.Reading

open Concrete

/-! ### Parts below a part -/

section Below

variable {s : Source} {p q : Part} {n : Node}

/-- The parts at or below a part. -/
inductive Part.Below (s : Source) : Part → Part → Prop
  | self (p : Part) : Below s p p
  | step {p q r : Part} (hq : q ∈ (p.outline s).2) (h : Below s q r) : Below s p r

/-- Every node is read from a part below the part of the tree. -/
theorem ReadAs.exists_below (h : ReadAs s p n) {m : Node} (hm : m ∈ n.walk) :
    ∃ q, p.Below s q ∧ ReadAs s q m := by
  induction n using Node.induct generalizing p with
  | step n ih =>
    rcases Node.mem_walk.1 hm with rfl | ⟨c, hc, hmc⟩
    · exact ⟨p, .self p, h⟩
    · cases h with
      | fill _ hk =>
        obtain ⟨q, hq, hqc⟩ := exists_of_forall₂ hk hc
        obtain ⟨r, hr, hrm⟩ := ih c hc hqc hmc
        exact ⟨r, .step hq hr, hrm⟩

/-- Every part below the part of a tree is read. -/
theorem Part.Below.exists_node (h : p.Below s q) (hn : ReadAs s p n) :
    ∃ m ∈ n.walk, ReadAs s q m := by
  induction h generalizing n with
  | self => exact ⟨n, n.self_mem_walk, hn⟩
  | step hq _ ih =>
    cases hn with
    | fill _ hk =>
      obtain ⟨c, hc, hqc⟩ := exists_of_forall₂ hk.flip hq
      obtain ⟨m, hm, hr⟩ := ih hqc
      exact ⟨m, Node.mem_walk_of_child hc hm, hr⟩

end Below

/-! ### Parts -/

section Parts

variable {s : Source} {c x : Concrete} {p q : Part} {n : Node}

/-- The names that a list of parameters does not lose stand below its parameters. -/
theorem parametersOutline_covers (h : c.NamesShaped) (hf : parentKinds? c.kind = none) :
    Covers s c none ((Part.parameters c).outline s).2 := by
  rw [Part.outline]
  split_ifs with hk
  · have hkept : c.kept s = c.namedChildren := by
      rw [kept.eq_def, hk]
      rfl
    have hn : c.isName = false := isName_eq_false (by rw [hk]; decide)
    refine covers_of_holds h hn (fun q hq => ?_) fun b hb hbc x hx hxn _ => ?_
    · obtain ⟨b, hb, rfl⟩ := List.mem_map.1 hq
      have hbn := c.significant_sublist.subset hb
      have hbc := c.namedChildren_sublist.subset hbn
      exact (Reads.node (h.child hbc) (parentKinds?_child h (by rw [hk]; decide) hbc)).under h hbc
        (hkept ▸ hbn)
    · exact ⟨.node b, List.mem_map_of_mem (mem_significant h hbc hx hxn), b, rfl, hx⟩
  · refine ⟨fun q hq => ?_, fun x hx _ _ => .inr ⟨_, List.mem_singleton.2 rfl, c, rfl, hx⟩⟩
    cases List.mem_singleton.1 hq
    exact (Reads.node h hf).under_self

/-- The name of a class covers itself, whatever it is called. -/
theorem classNameOutline_covers (h : c.NamesShaped) (hc : c.children = []) :
    Covers s c (Part.className c c).spelled? ((Part.className c c).outline s).2 := by
  have ho : ((Part.className c c).outline s).2 = [] := by
    rw [Part.outline]
    split_ifs with hn
    · obtain ⟨x, hx⟩ := spelledBy_of_isNamed hn
      obtain ⟨shorthand, ho⟩ := nodeOutline_of_spelledBy (s := s) hx
      rw [ho]
    · rfl
  rw [ho]
  refine ⟨fun q hq => (by cases hq), fun x hx hxn _ => .inl ?_⟩
  rcases mem_walk.1 hx with rfl | ⟨b, hb, -⟩
  · rw [Part.spelled?, spelledBy, if_pos hxn, ite_self]
  · rw [hc] at hb
    cases hb

/-- A part has no parts and hides every name, or its parts cover the node that it is read from. -/
theorem Part.Valid.covers (h : p.Valid) :
    (p.outline s).2 = [] ∧ (∀ x, p.Hides s x) ∧ p.spelled? = none ∨
      ∃ c, p.concrete? = some c ∧ (∀ x, p.Hides s x ↔ c.Loses s x) ∧
        Covers s c p.spelled? (p.outline s).2 := by
  cases p with
  | node c => exact .inr ⟨c, rfl, fun _ => .rfl, nodeOutline_covers h.1 h.2⟩
  | name c => exact .inr ⟨c, rfl, fun _ => .rfl, name_covers h.1 h.2⟩
  | markupName c => exact .inl ⟨rfl, fun _ => trivial, rfl⟩
  | className named c =>
    obtain ⟨rfl, hs, hc⟩ := h
    refine .inr ⟨named, ?_, fun _ => .rfl, classNameOutline_covers hs hc⟩
    rw [Part.concrete?, ite_self]
  | parameters c => exact .inr ⟨c, rfl, fun _ => .rfl, parametersOutline_covers h.1 h.2⟩
  | noParameters => exact .inl ⟨rfl, fun _ => trivial, rfl⟩
  | opening selfClosing c =>
    refine .inr ⟨c, rfl, fun _ => .rfl, openingOutline_covers h.1 ?_⟩
    cases selfClosing
    · exact .inl h.2
    · exact .inr h.2
  | closing c => exact .inr ⟨c, rfl, fun _ => .rfl, closingOutline_covers h.1 h.2⟩
  | spread c inner =>
    obtain ⟨hs, hk, hi, hin⟩ := h
    exact .inr ⟨c, rfl, fun _ => .rfl, spreadOutline_covers hs hk hi hin⟩
  | nothing c => exact .inl ⟨rfl, fun _ => trivial, rfl⟩

/-- A part of a part stands below it and loses the same names there. -/
theorem Part.Valid.step (h : p.Valid) (hq : q ∈ (p.outline s).2) : q.Valid ∧
    (∀ b ∈ q.concrete?, p.Holds b) ∧
      ∀ x, x.isName → q.Holds x → p.Holds x ∧ (p.Hides s x ↔ q.Hides s x) := by
  rcases h.covers (s := s) with ⟨ho, -, -⟩ | ⟨c, hc, hl, hcov⟩
  · rw [ho] at hq
    cases hq
  · have hu := hcov.under q hq
    refine ⟨hu.valid, fun b hb => ⟨c, hc, hu.inside b hb⟩, fun x hn hx => ⟨?_, ?_⟩⟩
    · obtain ⟨b, hb, hxb⟩ := hx
      exact ⟨c, hc, mem_walk_trans hxb (hu.inside b hb)⟩
    · rw [hl, hu.hides x hn hx]

theorem Part.Holds.trans {b : Concrete} (hb : p.Holds b) (hx : x ∈ b.walk) : p.Holds x :=
  let ⟨c, hc, hbc⟩ := hb
  ⟨c, hc, mem_walk_trans hx hbc⟩

/-- A part below a part stands below it and loses the same names there. -/
theorem Part.Below.keeps (h : p.Below s q) (hp : p.Valid) : q.Valid ∧
    (∀ b ∈ q.concrete?, p.Holds b) ∧ ∀ x, x.isName → q.Holds x → (p.Hides s x ↔ q.Hides s x) := by
  induction h with
  | self p => exact ⟨hp, fun b hb => ⟨b, hb, b.self_mem_walk⟩, fun _ _ _ => .rfl⟩
  | step hq _ ih =>
    obtain ⟨hv, hin, hh⟩ := hp.step hq
    obtain ⟨hv', hin', hh'⟩ := ih hv
    refine ⟨hv', fun b hb => ?_, fun x hn hx => ?_⟩
    · obtain ⟨a, ha, hba⟩ := hin' b hb
      exact (hin a ha).trans hba
    · obtain ⟨b, hb, hxb⟩ := hx
      rw [(hh x hn ((hin' b hb).trans hxb)).2, hh' x hn ⟨b, hb, hxb⟩]

/-- A name that a part does not lose is spelled by a part below it. -/
theorem ReadAs.exists_spelled (h : ReadAs s p n) (hp : p.Valid) (hn : x.isName) (hx : p.Holds x)
    (hh : ¬p.Hides s x) : ∃ q, p.Below s q ∧ q.spelled? = some x := by
  induction n using Node.induct generalizing p with
  | step n ih =>
    rcases hp.covers (s := s) with ⟨-, hall, -⟩ | ⟨c, hc, hl, hcov⟩
    · exact absurd (hall x) hh
    · obtain ⟨b, hb, hxb⟩ := hx
      cases hc.symm.trans hb
      rcases hcov.covered x hxb hn ((hl x).not.1 hh) with hs | ⟨q, hq, hqx⟩
      · exact ⟨p, .self p, hs⟩
      · cases h with
        | fill _ hk =>
          obtain ⟨m, hm, hqm⟩ := exists_of_forall₂ hk.flip hq
          obtain ⟨hv, -, hs⟩ := hp.step hq
          have hqh : ¬q.Hides s x := (hs x hn hqx).2.not.1 hh
          obtain ⟨r, hr, hrx⟩ := ih m hm hqm hv hqx hqh
          exact ⟨r, .step hq hr, hrx⟩

/-! ### Spelled names are not lost -/

theorem not_loses_self (h : c.NamesShaped) (hn : c.isName) : ¬c.Loses s c := by
  rintro ⟨a, ha, b, hb, -, -⟩
  have hac : a = c := by
    rcases mem_walk.1 ha with rfl | ⟨d, hd, -⟩
    · rfl
    · rw [(h.shape.leaf hn).2.1] at hd
      cases hd
  rw [hac, (h.shape.leaf hn).2.1] at hb
  cases hb

theorem spelledBy_eq_some (h : c.NamesShaped) (hx : spelledBy c = some x) :
    x.isName ∧ x ∈ c.walk ∧ ¬c.Loses s x := by
  rw [spelledBy] at hx
  split_ifs at hx with hn hk
  · cases hx
    exact ⟨hn, c.self_mem_walk, not_loses_self h hn⟩
  · obtain ⟨hname, hi⟩ := Option.filter_eq_some_iff.1 hx
    have hxc := mem_of_field? hname
    have hxn : x.isName := isName_iff.2 (.inl (beq_iff_eq.1 hi))
    refine ⟨hxn, mem_walk.2 (.inr ⟨x, hxc, x.self_mem_walk⟩), ?_⟩
    have hkm : x ∈ c.kept s := by
      rw [kept.eq_def, hk.1]
      exact Option.mem_toList.2 hx
    rw [loses_kept h hxc hkm x.self_mem_walk hxn]
    exact not_loses_self (h.child hxc) hxn

/-- What a part spells is a name that stands at it and is not lost. -/
theorem Part.Valid.of_spelled? (h : p.Valid) (hx : p.spelled? = some x) (hn : x.isName) :
    p.Holds x ∧ ¬p.Hides s x := by
  cases p with
  | node c => exact ⟨⟨c, rfl, (spelledBy_eq_some (s := s) h.1 hx).2.1⟩, (spelledBy_eq_some h.1 hx).2.2⟩
  | name c =>
    cases hx
    exact ⟨⟨x, rfl, x.self_mem_walk⟩, not_loses_self h.1 h.2⟩
  | className named c =>
    obtain ⟨rfl, hs, hc⟩ := h
    rw [Part.spelled?] at hx
    have hc? : (Part.className named named).concrete? = some named := by
      rw [Part.concrete?, ite_self]
    split_ifs at hx
    · have hsp := spelledBy_eq_some (s := s) hs hx
      exact ⟨⟨_, hc?, hsp.2.1⟩, hsp.2.2⟩
    · cases hx
      exact ⟨⟨_, hc?, self_mem_walk x⟩, not_loses_self hs hn⟩
  | _ => cases hx

end Parts

/-! ### Left out, or overlooked -/

/-- The names that reading leaves out on purpose stand below such children. -/
inductive Excepted (s : Source) (a b : Concrete) : Prop
  /-- What is exported from another module. -/
  | reexport (ha : a.kind = "export_statement") (hs : (a.field? "source").isSome)
  /-- The name that an import goes by elsewhere. -/
  | imported (ha : a.kind = "import_specifier") (hs : (a.field? "alias").isSome)
      (hb : b.field = some "name")
  /-- The name that an export goes by elsewhere. -/
  | exported (ha : a.kind = "export_specifier") (hb : b.field = some "alias")
  /-- A namespaced name of markup. -/
  | namespaced (hb : b.kind = "jsx_namespace_name")
  /-- The name of an intrinsic tag. -/
  | intrinsic (ha : a.kind ∈ tagKinds) (hf : b.field = some "name") (hb : b.kind = "identifier")
      (hs : Letter.startsUpper (textOf s b) = false)

instance (s : Source) (a b : Concrete) : Decidable (Excepted s a b) :=
  decidable_of_iff
    (a.kind = "export_statement" ∧ (a.field? "source").isSome ∨
      a.kind = "import_specifier" ∧ (a.field? "alias").isSome ∧ b.field = some "name" ∨
      a.kind = "export_specifier" ∧ b.field = some "alias" ∨
      b.kind = "jsx_namespace_name" ∨
      a.kind ∈ tagKinds ∧ b.field = some "name" ∧ b.kind = "identifier" ∧
        Letter.startsUpper (textOf s b) = false)
    ⟨fun h => by
      rcases h with h | h | h | h | h
      · exact .reexport h.1 h.2
      · exact .imported h.1 h.2.1 h.2.2
      · exact .exported h.1 h.2
      · exact .namespaced h
      · exact .intrinsic h.1 h.2.1 h.2.2.1 h.2.2.2,
    fun h => by
      cases h with
      | reexport h1 h2 => exact .inl ⟨h1, h2⟩
      | imported h1 h2 h3 => exact .inr (.inl ⟨h1, h2, h3⟩)
      | exported h1 h2 => exact .inr (.inr (.inl ⟨h1, h2⟩))
      | namespaced h1 => exact .inr (.inr (.inr (.inl h1)))
      | intrinsic h1 h2 h3 h4 => exact .inr (.inr (.inr (.inr ⟨h1, h2, h3, h4⟩)))⟩

/-- Whether reading goes on without a child for no such reason. -/
def Neglected (s : Source) (a b : Concrete) : Prop :=
  b ∉ a.kept s ∧ ¬Excepted s a b

section Excepted

variable {s : Source} {a b c x : Concrete}

theorem not_mem_component? (h : b.kind = "jsx_namespace_name" ∨
    b.kind = "identifier" ∧ Letter.startsUpper (textOf s b) = false) : b ∉ a.component? s := by
  intro hb
  have hk := (Option.filter_eq_some_iff.1 hb).2
  rcases h with h | ⟨h, hu⟩
  · rw [h] at hk
    cases hk
  · rw [h, hu] at hk
    cases hk

/-- A tag keeps neither namespaced names nor those of intrinsic tags. -/
theorem not_kept_tag (ha : a.kind ∈ tagKinds) (h : b.kind = "jsx_namespace_name" ∨
    b.kind = "identifier" ∧ Letter.startsUpper (textOf s b) = false) : b ∉ a.kept s := by
  have hc : b ∉ (a.component? s).toList := fun hb =>
    not_mem_component? h (Option.mem_toList.1 hb)
  have hattr : ¬b.isAttribute := by
    rw [isAttribute_iff]
    rcases h with h | ⟨h, -⟩ <;> rw [h] <;> decide
  have hopen : b ∉ (a.component? s).toList ++ a.namedChildren.filter isAttribute := fun hb => by
    rcases List.mem_append.1 hb with hb | hb
    · exact hc hb
    · exact hattr (mem_namedFilter hb).2
  simp only [tagKinds, List.mem_cons, List.not_mem_nil, or_false] at ha
  rcases ha with ha | ha | ha
  · rwa [kept_opening (.inl ha)]
  · rwa [kept_closing ha]
  · rwa [kept_opening (.inr ha)]

/-- Reading does not go on with what it leaves out. -/
theorem Excepted.not_kept (h : a.NamesShaped) (hb : b ∈ a.children) (he : Excepted s a b) :
    b ∉ a.kept s := by
  cases he with
  | reexport ha hs =>
    rw [kept.eq_def, ha]
    simp only [if_pos hs]
    exact List.not_mem_nil
  | imported ha hs hf =>
    rw [kept_importSpecifier ha, Option.mem_toList, importedName?, if_pos ha]
    intro hm
    obtain ⟨d, ho⟩ := Option.isSome_iff_exists.1 hs
    have hor := (Option.filter_eq_some_iff.1 hm).1
    rw [ho] at hor
    cases hor
    exact absurd ((field_of_field? ho).symm.trans hf) (by decide)
  | exported ha hf =>
    rw [kept.eq_def, ha]
    intro hm
    have hname := (Option.filter_eq_some_iff.1 (Option.mem_toList.1 hm)).1
    exact absurd ((field_of_field? hname).symm.trans hf) (by decide)
  | namespaced hk =>
    have hp := h.shape.placed b hb ("jsx_attribute" :: tagKinds) (by rw [hk]; rfl)
    rcases List.mem_cons.1 hp with ha | ha
    · rw [kept.eq_def, ha]
      exact fun hm => h.shape.value ha b (Option.mem_toList.1 hm) hk
    · exact not_kept_tag ha (.inl hk)
  | intrinsic ha _ hk hu => exact not_kept_tag ha (.inr ⟨hk, hu⟩)

/-- A name is lost when it is left out or overlooked. -/
theorem loses_iff (h : c.NamesShaped) :
    c.Loses s x ↔ OnWay (Excepted s) c x ∨ OnWay (Neglected s) c x := by
  constructor
  · rintro ⟨a, ha, b, hb, hk, hx⟩
    by_cases he : Excepted s a b
    · exact .inl ⟨a, ha, b, hb, he, hx⟩
    · exact .inr ⟨a, ha, b, hb, ⟨hk, he⟩, hx⟩
  · rintro (⟨a, ha, b, hb, he, hx⟩ | ⟨a, ha, b, hb, hk, hx⟩)
    · exact ⟨a, ha, b, hb, he.not_kept (fun d hd => h d (mem_walk_trans hd ha)) hb, hx⟩
    · exact ⟨a, ha, b, hb, hk.1, hx⟩

end Excepted

/-! ### Documents -/

/-- A program stands nowhere but at the root. -/
theorem parentKinds?_of_program {s : Source} {c : Concrete}
    (h : (nodeOutline s c).1 = .program) : parentKinds? c.kind = none := by
  rw [kind_of_program h]
  rfl

/-- A place around a name that a node spells is the place of no other name. -/
theorem eq_of_spelledBy {c x y : Concrete} (h : c.NamesShaped) (hy : spelledBy c = some y)
    (hx : x ∈ c.walk) (hn : x.isName) : x = y := by
  rw [spelledBy] at hy
  split_ifs at hy with hc hk
  · cases hy
    rcases mem_walk.1 hx with rfl | ⟨b, hb, -⟩
    · rfl
    · rw [(h.shape.leaf hc).2.1] at hb
      cases hb
  · obtain ⟨hname, hi⟩ := Option.filter_eq_some_iff.1 hy
    have hyc := mem_of_field? hname
    have hyf := field_of_field? hname
    obtain ⟨hone, hsilent⟩ := h.shape.specifier hk.1
    rcases mem_walk.1 hx with rfl | ⟨b, hb, hxb⟩
    · exact absurd hn hc
    · have hbf : b.field = some "name" := by
        by_contra hf
        by_cases ha : b.field = some "alias"
        · have := hk.2
          rw [Concrete.field?, Option.isNone_iff_eq_none, List.find?_eq_none] at this
          exact this b hb (beq_iff_eq.2 ha)
        · have hxn := hsilent b hb hf ha x hxb
          rw [hn] at hxn
          cases hxn
      obtain rfl := eq_of_length_filter_le_one hone hb hyc (beq_iff_eq.2 hbf) (beq_iff_eq.2 hyf)
      have hleaf := ((h.child hb).shape.leaf (isName_iff.2 (.inl (beq_iff_eq.1 hi)))).2.1
      rcases mem_walk.1 hxb with rfl | ⟨d, hd, -⟩
      · rfl
      · rw [hleaf] at hd
        cases hd

/-- A part that is placed around a name spells no other. -/
theorem Part.Valid.eq_of_spelled? {p : Part} {c x y : Concrete} (h : p.Valid)
    (hc : p.concrete? = some c) (hy : p.spelled? = some y) (hx : x ∈ c.walk) (hn : x.isName) :
    x = y := by
  have hself : ∀ {b : Concrete}, b.children = [] → x ∈ b.walk → x = b := fun hb hxb => by
    rcases mem_walk.1 hxb with rfl | ⟨d, hd, -⟩
    · rfl
    · rw [hb] at hd
      cases hd
  cases p with
  | node b =>
    cases hc
    exact eq_of_spelledBy h.1 hy hx hn
  | name b =>
    cases hc
    cases hy
    exact hself (h.1.shape.leaf h.2).2.1 hx
  | className named b =>
    obtain ⟨rfl, hs, hb⟩ := h
    rw [Part.concrete?, ite_self] at hc
    cases hc
    rw [Part.spelled?] at hy
    split_ifs at hy
    · exact eq_of_spelledBy hs hy hx hn
    · cases hy
      exact hself hb hx
  | _ => cases hy

end Reading

open Reading Concrete

/-- Whether a name has an identifier in a document: one with its text, placed around it. -/
def Document.Represents (d : Document) (x : Concrete) : Prop :=
  ∃ n ∈ d.root.walk, (∃ shorthand, n.label =
      .identifier (Reading.textOf d.source x) (Reading.textOf d.source x) shorthand) ∧
    ∃ span, n.place.span = some span ∧ span.start ≤ x.span.start ∧ x.span.stop ≤ span.stop

/-- The tree of a text that is read is that of a program. -/
theorem valid_program {grammar : Grammar} {path text : String} {d : Document}
    (hs : (grammar (.ofPath path) text).NamesShaped)
    (h : Document.read grammar path text = .ok d) :
    (Part.node (grammar (.ofPath path) text)).Valid := by
  obtain ⟨-, root, hr, hl, -⟩ := read_eq_ok h
  refine ⟨hs, parentKinds?_of_program (s := .ofString path text) ?_⟩
  rw [← hl]
  exact (tree_readAs _ _ _ _ hr).label_eq.symm

/-- A name of a text has an identifier in its document just when nothing on the way to it is left
out on purpose, and nothing is overlooked. -/
theorem represents_iff {grammar : Grammar} {path text : String} {d : Document} {x : Concrete}
    (hs : (grammar (.ofPath path) text).NamesShaped)
    (h : Document.read grammar path text = .ok d) (hx : x ∈ (grammar (.ofPath path) text).walk)
    (hn : x.isName) :
    d.Represents x ↔ ¬OnWay (Excepted d.source) (grammar (.ofPath path) text) x ∧
      ¬OnWay (Neglected d.source) (grammar (.ofPath path) text) x := by
  obtain ⟨-, hr⟩ := read_readAs h
  have hp := valid_program hs h
  generalize grammar (.ofPath path) text = c at hs hx hr hp
  rw [← not_or, ← loses_iff hs]
  constructor
  · rintro ⟨n, hnw, ⟨shorthand, hl⟩, span, hsp, hin⟩
    obtain ⟨q, hq, hqn⟩ := hr.exists_below hnw
    obtain ⟨hv, hqw, hh⟩ := hq.keeps hp
    obtain ⟨y, hy⟩ := Part.spelled?_of_isIdentifier (s := d.source) (p := q)
      (by rw [← hqn.label_eq, hl]; rfl)
    rw [hqn.place_eq, Part.place] at hsp
    cases hc : q.concrete? with
    | none =>
      rw [hc] at hsp
      cases hsp
    | some b =>
      rw [hc] at hsp
      cases hsp
      obtain ⟨a, ha, hba⟩ := hqw b hc
      cases ha
      have hxb := hs.mem_of_around hba hx hn hin
      obtain rfl := hv.eq_of_spelled? hc hy hxb hn
      obtain ⟨hholds, hnot⟩ := hv.of_spelled? (s := d.source) hy hn
      rwa [← hh x hn hholds] at hnot
  · intro hl
    obtain ⟨q, hq, hqx⟩ := hr.exists_spelled hp hn ⟨c, rfl, hx⟩ hl
    obtain ⟨hv, hqw, -⟩ := hq.keeps hp
    obtain ⟨⟨b, hb, hxb⟩, -⟩ := hv.of_spelled? (s := d.source) hqx hn
    obtain ⟨m, hm, hqm⟩ := hq.exists_node hr
    obtain ⟨a, ha, hba⟩ := hqw b hb
    cases ha
    have hin := NamesShaped.inside (fun e he => hs e (mem_walk_trans he hba)) hxb
    obtain ⟨shorthand, ho⟩ := Part.outline_of_spelled? (s := d.source) hqx
    refine ⟨m, hm, ⟨shorthand, hqm.label_eq.trans ho⟩, b.span, ?_, hin⟩
    rw [hqm.place_eq, Part.place, Option.mem_def.1 hb]
    rfl

/-- A computed method name, as in `[foo]() {}`. -/
def computedName : Concrete :=
  ⟨"computed_property_name", ⟨10, 15⟩, some "name", true, false, false,
    [⟨"[", ⟨10, 11⟩, none, false, false, false, []⟩,
      ⟨"identifier", ⟨11, 14⟩, none, true, false, false, []⟩,
      ⟨"]", ⟨14, 15⟩, none, false, false, false, []⟩]⟩

/-- A method with a computed name. -/
def computedMethod : Concrete :=
  ⟨"method_definition", ⟨10, 20⟩, some "member", true, false, false,
    [computedName,
      ⟨"formal_parameters", ⟨15, 17⟩, some "parameters", true, false, false,
        [⟨"(", ⟨15, 16⟩, none, false, false, false, []⟩,
          ⟨")", ⟨16, 17⟩, none, false, false, false, []⟩]⟩,
      ⟨"statement_block", ⟨18, 20⟩, some "body", true, false, false,
        [⟨"\x7b", ⟨18, 19⟩, none, false, false, false, []⟩,
          ⟨"\x7d", ⟨19, 20⟩, none, false, false, false, []⟩]⟩]⟩

/-- The tree of `class A { [foo]() {} }`. -/
def computedMember : Concrete :=
  ⟨"program", ⟨0, 23⟩, none, true, false, false,
    [⟨"class_declaration", ⟨0, 22⟩, none, true, false, false,
      [⟨"class", ⟨0, 5⟩, none, false, false, false, []⟩,
        ⟨"identifier", ⟨6, 7⟩, some "name", true, false, false, []⟩,
        ⟨"class_body", ⟨8, 22⟩, some "body", true, false, false,
          [⟨"\x7b", ⟨8, 9⟩, none, false, false, false, []⟩,
            computedMethod,
            ⟨"\x7d", ⟨21, 22⟩, none, false, false, false, []⟩]⟩]⟩]⟩

/-- The name in a computed method name has no identifier, though nothing leaves it out. -/
theorem not_represents_computedMember : ∃ d, ∃ x ∈ computedMember.walk,
    Document.read (fun _ _ => computedMember) "A.jsx" "class A \x7b [foo]() \x7b\x7d \x7d\n" =
        .ok d ∧
      x.isName ∧ ¬OnWay (Excepted d.source) computedMember x ∧ ¬d.Represents x := by
  have hf : (Document.read (fun _ _ => computedMember) "A.jsx"
      "class A \x7b [foo]() \x7b\x7d \x7d\n").map (fun _ => ()) = .ok () := by decide +kernel
  obtain ⟨d, hd, -⟩ := map_eq_ok.1 hf
  have hx : computedMember.walk[9]? =
      some ⟨"identifier", ⟨11, 14⟩, none, true, false, false, []⟩ := rfl
  refine ⟨d, _, List.mem_of_getElem? hx, hd, rfl, ?_, fun hr => ?_⟩
  · rintro ⟨a, ha, b, hb, he, -⟩
    rw [(read_readAs hd).1] at he
    have hall : ∀ a ∈ computedMember.walk, ∀ b ∈ a.children, ¬Excepted (.ofString "A.jsx"
        "class A \x7b [foo]() \x7b\x7d \x7d\n") a b := by decide +kernel
    exact hall a ha b hb he
  · have hiff := @represents_iff (fun _ _ => computedMember) "A.jsx" _ d _ (by decide +kernel) hd
      (List.mem_of_getElem? hx) rfl
    refine (hiff.1 hr).2 ⟨computedMethod, List.mem_of_getElem? (i := 6) rfl, computedName,
      List.mem_cons_self, ⟨fun hk => ?_, fun he => ?_⟩, List.mem_of_getElem? (i := 2) rfl⟩
    · have hall : ∀ b ∈ computedMethod.filling ["parameters", "body"],
          b.kind ≠ computedName.kind := by decide +kernel
      exact hall _ hk rfl
    · rw [(read_readAs hd).1] at he
      have hno : ¬Excepted (.ofString "A.jsx" "class A \x7b [foo]() \x7b\x7d \x7d\n") computedMethod
        computedName := by decide +kernel
      exact hno he

end JsxLint
