import JsxLint.Proofs.Reading.Names
import JsxLint.Proofs.Reading.Parts

/-!
# Names that double as outside names

A name in a text may name something outside of its binding as well: the key of a property, what a
module exports or what it imports. The text decides which, by the kind of the name and the node that
it stands in; the identifier that is read from the name says only whether it is a key or an export.

* `Outside`, `Concrete.outside?`: what a name names outside of its binding;
* `Concrete.Contains`: whether a node stands in another one, and not in a specifier that is read as
  a whole;
* `nodeOutline_given`, `outline_given`: a part gives the parts below it;
* `Part.Below.given_of_program`: below a program every part has a node around it;
* `Concrete.WrittenAs`, `read_written`: the name that an identifier was read from, whose outside
  name decides its label.
-/

namespace JsxLint

/-- What a written name also names outside of its binding. -/
inductive Outside
  /-- The key of a property, as in `{ foo }`. -/
  | key
  /-- What the module exports, as in `export { foo }`. -/
  | exported
  /-- What another module exports, as in `import { foo } from 'm'`. -/
  | imported
  deriving DecidableEq, Repr

/-- What an identifier knows of the outside name that it doubles as. -/
def Outside.shorthand : Option Outside → Option Shorthand
  | some .key => some .property
  | some .exported => some .exported
  | some .imported | none => none

namespace Concrete

/-- What a child of a node also names outside of its binding, when it is a name. A specifier with
an alias keeps the two names apart. -/
def outside? (a x : Concrete) : Option Outside :=
  if x.kind = "shorthand_property_identifier" ∨ x.kind = "shorthand_property_identifier_pattern" then
    some .key
  else if x.field = some "name" ∧ (a.field? "alias").isNone then
    if a.kind = "export_specifier" then some .exported
    else if a.kind = "import_specifier" then some .imported
    else none
  else none

/-- Whether a node stands in another one, but not in an export specifier without an alias, which is
read as a whole. -/
def Contains (c x : Concrete) : Prop :=
  ∃ a ∈ c.walk, x ∈ a.children ∧ (a.kind = "export_specifier" → (a.field? "alias").isSome)

/-- Whether what is read from a node is read from another one or from what stands in it. -/
def Gives (c x : Concrete) : Prop :=
  x = c ∨ c.Contains x

section Gives

variable {b c x : Concrete}

theorem Contains.of_child (hk : c.kind ≠ "export_specifier") (hb : b ∈ c.children) : c.Contains b :=
  ⟨c, c.self_mem_walk, hb, fun h => absurd h hk⟩

theorem Gives.of_child (hk : c.kind ≠ "export_specifier") (hb : b ∈ c.children) : c.Gives b :=
  .inr (.of_child hk hb)

theorem Contains.gives (hb : c.Contains b) (hx : b.Gives x) : c.Contains x := by
  rcases hx with rfl | ⟨a, ha, hx⟩
  · exact hb
  · obtain ⟨a', ha', hba', -⟩ := hb
    exact ⟨a, mem_walk_trans (mem_walk_trans ha (mem_walk.2 (.inr ⟨b, hba', b.self_mem_walk⟩))) ha',
      hx⟩

theorem Gives.trans (hb : c.Gives b) (hx : b.Gives x) : c.Gives x := by
  rcases hb with rfl | hb
  · exact hx
  · exact .inr (hb.gives hx)

end Gives

end Concrete

namespace Reading

open Concrete

variable {s : Source} {b c x : Concrete} {p q : Part}

/-! ### Parts that a node gives -/

/-- Whether a part is read from a node or below it. Names without a kind of their own come from
export specifiers only, where they are plain. -/
structure Part.GivenBy (c : Concrete) (q : Part) : Prop where
  gives : ∀ x ∈ q.concrete?, c.Gives x
  plain : ∀ x, q = .name x → x.kind = "identifier"

theorem given_node (h : c.Gives b) : (Part.node b).GivenBy c :=
  ⟨fun _ hx => by cases hx; exact h, fun _ hx => by cases hx⟩

theorem given_nodes {cs : List Concrete} (h : ∀ b ∈ cs, c.Gives b) :
    ∀ q ∈ cs.map Part.node, q.GivenBy c := by
  intro q hq
  obtain ⟨b, hb, rfl⟩ := List.mem_map.1 hq
  exact given_node (h b hb)

theorem given_tagPart (h : c.Gives b) : (tagPart s b).GivenBy c := by
  refine ⟨fun x hx => ?_, fun x hx => ?_⟩
  · rw [tagPart_concrete?] at hx
    cases hx
    exact h
  · rw [tagPart] at hx
    split_ifs at hx

theorem given_attribute (h : c.Gives b) (hq : attributePart b = some q) : q.GivenBy c := by
  refine ⟨fun x hx => ?_, fun x hx => ?_⟩
  · rw [attributePart_concrete? hq] at hx
    cases hx
    exact h
  · subst hx
    rw [attributePart] at hq
    split_ifs at hq with h1 h2
    · cases hq
    · split at hq <;> cases hq

/-- What an import binds stands in its clauses. -/
theorem gives_imported (hk : c.kind ≠ "export_specifier") (hb : b ∈ importedOf c) : c.Gives b := by
  obtain ⟨clause, hclause, hb⟩ := List.mem_flatMap.1 hb
  obtain ⟨item, hitem, hb⟩ := List.mem_flatMap.1 hb
  obtain ⟨hclause, hck⟩ := mem_namedFilter hclause
  have hne : ∀ {a : Concrete} {kind : String}, a.kind = kind → kind ≠ "export_specifier" →
      a.kind ≠ "export_specifier" := fun h hn => h ▸ hn
  have hin : c.Contains item := (Contains.of_child hk hclause).gives
    (.of_child (hne (beq_iff_eq.1 hck) (by decide)) (clause.namedChildren_sublist.subset hitem))
  rw [importedNames] at hb
  split_ifs at hb with h1 h2 h3
  · cases List.mem_singleton.1 hb
    exact .inr hin
  · exact .inr (hin.gives (.of_child (hne h2 (by decide)) (mem_namedFilter hb).1))
  · obtain ⟨specifier, hs, hb⟩ := List.mem_filterMap.1 hb
    obtain ⟨hsk, -, hb⟩ := importedName?_eq_some hb
    have hspecifier : item.Contains specifier :=
      .of_child (hne h3 (by decide)) (item.namedChildren_sublist.subset hs)
    exact .inr ((hin.gives (.inr hspecifier)).gives (.of_child (hne hsk (by decide)) hb))
  · cases hb

/-- What a call is given stands below it. -/
theorem gives_argument (hk : c.kind ≠ "export_specifier") (hb : b ∈ argumentsOf c) : c.Gives b := by
  rw [argumentsOf.eq_def] at hb
  split at hb
  · cases hb
  · next list hl =>
    have hlist : c.Contains list := .of_child hk (mem_of_field? hl)
    split_ifs at hb with ha
    · exact .inr (hlist.gives (.of_child (by rw [ha]; decide)
        (list.namedChildren_sublist.subset (list.significant_sublist.subset hb))))
    · cases List.mem_singleton.1 hb
      exact .inr hlist

/-- A node gives the parts below it. -/
theorem nodeOutline_given : ∀ q ∈ (nodeOutline s c).2, q.GivenBy c := by
  intro q hq
  rcases mem_nodeOutline hq with ⟨-, name, rfl, hf, hi, ha⟩ | ⟨hk, hp⟩
  · refine ⟨fun x hx => ?_, fun x hx => ?_⟩ <;> cases hx
    · exact .inr ⟨c, c.self_mem_walk, mem_of_field? hf, fun _ => ha⟩
    · exact hi
  · refine ⟨fun x hx => ?_, fun x hx => by subst hx; cases hp⟩
    cases hp with
    | named h =>
      cases hx
      exact .of_child hk (c.namedChildren_sublist.subset h)
    | field h | parameters h =>
      cases hx
      exact .of_child hk (mem_of_field? h)
    | argument h =>
      cases hx
      exact gives_argument hk h
    | imported h =>
      cases hx
      exact gives_imported hk h
    | noParameters => cases hx
    | className hn h =>
      rw [Part.concrete?, Option.mem_def, Option.some.injEq] at hx
      subst hx
      split_ifs
      · exact .of_child hk (c.namedChildren_sublist.subset h)
      · exact .of_child hk (mem_of_field? hn)
    | opening _ h =>
      cases hx
      exact .of_child hk (mem_of_openTag? h)
    | closing _ h =>
      cases hx
      exact .of_child hk (mem_of_closeTag? h)
    | selfClosing =>
      cases hx
      exact .inl rfl
    | attributeName h =>
      cases hx
      exact .of_child hk (c.namedChildren_sublist.subset (c.significant_sublist.subset h))

/-- A part gives the parts below it. -/
theorem outline_given (hv : p.Valid) (hc : p.concrete? = some c) :
    ∀ q ∈ (p.outline s).2, q.GivenBy c := by
  have hnil : ∀ q ∈ ([] : List Part), q.GivenBy c := fun q hq => by cases hq
  have htag : ∀ b : Concrete, b.kind ∈ tagKinds →
      ∀ q ∈ (b.field? "name").toList.map (tagPart s), q.GivenBy b := by
    intro b hk q hq
    obtain ⟨name, hname, rfl⟩ := List.mem_map.1 hq
    refine given_tagPart (.of_child (fun h => ?_) (mem_of_field? (Option.mem_toList.1 hname)))
    rw [h] at hk
    exact absurd hk (by decide)
  cases p with
  | node b =>
    cases hc
    exact nodeOutline_given
  | name b | markupName b | nothing b => exact hnil
  | noParameters => cases hc
  | className named b =>
    obtain ⟨rfl, -, -⟩ := hv
    rw [Part.concrete?, ite_self] at hc
    cases hc
    rw [Part.outline]
    split_ifs
    · exact nodeOutline_given
    · exact hnil
  | parameters b =>
    cases hc
    rw [Part.outline]
    split_ifs with hk
    · exact given_nodes fun a ha => .of_child (by rw [hk]; decide)
        (c.namedChildren_sublist.subset (c.significant_sublist.subset ha))
    · exact List.forall_mem_singleton.2 (given_node (.inl rfl))
  | opening selfClosing b =>
    cases hc
    have hk : c.kind ∈ tagKinds := by rw [hv.2]; cases selfClosing <;> decide
    refine List.forall_mem_append.2 ⟨htag c hk, fun q hq => ?_⟩
    obtain ⟨a, ha, hq⟩ := List.mem_filterMap.1 hq
    refine given_attribute (.of_child (fun h => ?_) (c.namedChildren_sublist.subset ha)) hq
    rw [h] at hk
    exact absurd hk (by decide)
  | closing b =>
    cases hc
    exact htag c (by rw [hv.2]; decide)
  | spread b inner =>
    cases hc
    obtain ⟨-, hk, hi, hin⟩ := hv
    have hinner : c.Contains inner := .of_child (by rw [hk]; decide)
      (c.namedChildren_sublist.subset (c.significant_sublist.subset (List.mem_of_mem_head? hi)))
    refine List.forall_mem_singleton.2 ?_
    split
    · next argument ha =>
      exact given_node (.inr (hinner.gives (.of_child (by rw [hin]; decide)
        (inner.namedChildren_sublist.subset
          (inner.significant_sublist.subset (List.mem_of_mem_head? ha))))))
    · refine ⟨fun x hx => ?_, fun x hx => ?_⟩ <;> cases hx
      exact .inr hinner

/-- A part gives all parts below it. -/
theorem Part.Below.given (h : p.Below s q) (hv : p.Valid) (hc : p.concrete? = some c) :
    q = p ∨ q.GivenBy c := by
  induction h generalizing c with
  | self p => exact .inl rfl
  | @step p r q hr hq ih =>
    have hgiven := outline_given hv hc r hr
    refine .inr ?_
    cases hrc : r.concrete? with
    | none =>
      -- without a node there is nothing below
      cases r with
      | noParameters =>
        cases hq with
        | self => exact hgiven
        | step hq _ => cases hq
      | className named b => cases hrc
      | _ => cases hrc
    | some b =>
      rcases ih (hv.step hr).1 hrc with rfl | hbelow
      · exact hgiven
      · exact ⟨fun x hx => (hgiven.gives b hrc).trans (hbelow.gives x hx), hbelow.plain⟩

/-- Below a program every part has a node around it. -/
theorem Part.Below.given_of_program (h : (Part.node c).Below s q) (hv : (Part.node c).Valid)
    (hk : c.kind = "program") (hq : q ≠ .node c) :
    (∀ x ∈ q.concrete?, c.Contains x) ∧ ∀ x, q = .name x → x.kind = "identifier" := by
  cases h with
  | self => exact absurd rfl hq
  | @step _ r _ hr hrq =>
    have ho : nodeOutline s c = (.program, c.namedChildren.map .node) := by
      rw [nodeOutline]; simp only [hk]
    rw [Part.outline, ho] at hr
    obtain ⟨b, hb, rfl⟩ := List.mem_map.1 hr
    have hholds : c.Contains b :=
      .of_child (by rw [hk]; decide) (c.namedChildren_sublist.subset hb)
    have hvb := (hv.step (s := s) (q := .node b) (by rw [Part.outline, ho]; exact hr)).1
    rcases hrq.given hvb rfl with rfl | hgiven
    · refine ⟨fun x hx => ?_, fun x hx => ?_⟩ <;> cases hx
      exact hholds
    · exact ⟨fun x hx => hholds.gives (hgiven.gives x hx), hgiven.plain⟩

/-! ### Names and their outside names -/

section Written

variable {a : Concrete}

/-- A name that is no key is plain, unless the specifier that it stands in is read as a whole. -/
theorem shorthand_outside?
    (ha : a.kind = "export_specifier" → (a.field? "alias").isSome)
    (hx : ¬(x.kind = "shorthand_property_identifier" ∨
      x.kind = "shorthand_property_identifier_pattern")) : Outside.shorthand (a.outside? x) = none := by
  rw [outside?, if_neg hx]
  split_ifs with hn hk
  · rw [Option.isNone_iff_eq_none] at hn
    rw [hn.2] at ha
    cases ha hk
  all_goals rfl

/-- What a node that spells a name is read as depends on the outside name. -/
theorem written_of_spelledBy (h : spelledBy b = some x) (hb : c.Contains b) :
    ∃ a ∈ c.walk, x ∈ a.children ∧ x ∈ b.walk ∧ (nodeOutline s b).1 =
      .identifier (textOf s x) (textOf s x) (Outside.shorthand (a.outside? x)) := by
  obtain ⟨a, ha, hba, hspecifier⟩ := hb
  rw [spelledBy] at h
  split_ifs at h with hn hk
  · cases h
    refine ⟨a, ha, hba, b.self_mem_walk, ?_⟩
    rcases isName_iff.1 hn with hk | hk
    · rw [shorthand_outside? hspecifier (by rw [hk]; decide), nodeOutline]
      simp only [hk]
    · rw [outside?, if_pos hk, nodeOutline]
      rcases hk with hk | hk <;> simp only [hk, Outside.shorthand]
  · obtain ⟨hname, hi⟩ := Option.filter_eq_some_iff.1 h
    have hxb := mem_of_field? hname
    refine ⟨b, mem_walk_trans (mem_walk.2 (.inr ⟨b, hba, b.self_mem_walk⟩)) ha, hxb,
      mem_walk.2 (.inr ⟨x, hxb, x.self_mem_walk⟩), ?_⟩
    have hout : b.outside? x = some .exported := by
      rw [outside?, if_neg (by rw [beq_iff_eq.1 hi]; decide), if_pos ⟨field_of_field? hname, hk.2⟩,
        if_pos hk.1]
    rw [nodeOutline_specifier hk.1, specifierOutline, h, hout]
    dsimp only
    rw [if_pos hk.2]
    rfl

/-- What a part that spells a name is read as depends on the outside name. -/
theorem Part.Valid.written (hv : q.Valid) (hx : q.spelled? = some x)
    (hc : ∀ b ∈ q.concrete?, c.Contains b) (hp : ∀ b, q = .name b → b.kind = "identifier") :
    ∃ b, q.concrete? = some b ∧ ∃ a ∈ c.walk, x ∈ a.children ∧ x ∈ b.walk ∧ (q.outline s).1 =
      .identifier (textOf s x) (textOf s x) (Outside.shorthand (a.outside? x)) := by
  cases q with
  | node b => exact ⟨b, rfl, written_of_spelledBy hx (hc b rfl)⟩
  | name b =>
    cases hx
    obtain ⟨a, ha, hba, hspecifier⟩ := hc _ rfl
    refine ⟨_, rfl, a, ha, hba, self_mem_walk _, ?_⟩
    rw [shorthand_outside? hspecifier (by rw [hp _ rfl]; decide)]
    rfl
  | className named b =>
    obtain ⟨rfl, -, -⟩ := hv
    have hnode : (Part.className named named).concrete? = some named := by
      rw [Part.concrete?, ite_self]
    rw [Part.spelled?] at hx
    refine ⟨named, hnode, ?_⟩
    rw [Part.outline]
    split_ifs at hx ⊢ with hn
    · exact written_of_spelledBy hx (hc _ hnode)
    · cases hx
      obtain ⟨a, ha, hba, hspecifier⟩ := hc _ hnode
      refine ⟨a, ha, hba, self_mem_walk _, ?_⟩
      rw [shorthand_outside? hspecifier fun hk => hn ?_]
      rw [isNamed, show nameKinds.contains x.kind = x.isName from rfl,
        isName_iff.2 (.inr hk), Bool.true_or]
  | _ => cases hx

end Written

end Reading

open Reading

/-- Whether an identifier of a document was read from a child of a node of the text: it has the
label that the outside name calls for, the name stands in its place, and no other does. -/
structure Concrete.WrittenAs (c : Concrete) (s : Source) (n : Node) (a x : Concrete) : Prop where
  parent : a ∈ c.walk
  child : x ∈ a.children
  inside : n.span.start ≤ x.span.start ∧ x.span.stop ≤ n.span.stop
  only : ∀ z ∈ c.walk, z.isName → n.span.start ≤ z.span.start ∧ z.span.stop ≤ n.span.stop → z = x
  label : n.label = .identifier (textOf s x) (textOf s x) (Outside.shorthand (a.outside? x))

/-- Every identifier of a document was read from one name of the text. -/
theorem Reading.read_written {grammar : Grammar} {path text : String} {d : Document} {n : Node}
    (hs : (grammar (.ofPath path) text).NamesShaped)
    (h : Document.read grammar path text = .ok d) (hn : n ∈ d.root.walk)
    (hi : n.label.isIdentifier) :
    ∃ a x, (grammar (.ofPath path) text).WrittenAs d.source n a x := by
  have hprogram := (read_program h).1
  obtain ⟨-, hr⟩ := read_readAs h
  have hp := valid_program hs h
  generalize grammar (.ofPath path) text = c at hs hr hp
  have hkind : c.kind = "program" := kind_of_program (s := d.source) (hr.label_eq ▸ hprogram)
  obtain ⟨q, hq, hqn⟩ := hr.exists_below hn
  obtain ⟨hv, hqw, -⟩ := hq.keeps hp
  obtain ⟨x, hx⟩ := Part.spelled?_of_isIdentifier (s := d.source) (p := q) (hqn.label_eq ▸ hi)
  have hne : q ≠ .node c := by
    rintro rfl
    rw [hqn.label_eq, ← hr.label_eq, hprogram] at hi
    cases hi
  obtain ⟨hcontains, hplain⟩ := hq.given_of_program hp hkind hne
  obtain ⟨b, hb, a, ha, hxa, hxb, hlabel⟩ := hv.written (s := d.source) hx hcontains hplain
  have hbc : b ∈ c.walk := by
    obtain ⟨e, he, hbe⟩ := hqw b hb
    cases he
    exact hbe
  have hspan : n.span = b.span := by
    rw [Node.span, hqn.place_eq, Part.place, hb]
    rfl
  refine ⟨a, x, ha, hxa, ?_, fun z hz hzn hin => ?_, hqn.label_eq.trans hlabel⟩
  · rw [hspan]
    exact Concrete.NamesShaped.inside (fun e he => hs e (Concrete.mem_walk_trans he hbc)) hxb
  · rw [hspan] at hin
    exact hv.eq_of_spelled? hb hx (hs.mem_of_around hbc hz hzn hin) hzn

end JsxLint
