import JsxLint.Proofs.Reading.Parts
import JsxLint.Proofs.Syntax.WellFormed

/-!
# What is read is well-formed

A document that was read is well-formed, when the grammar puts nothing but a name into the closing
tag of an element.

* `Node.ids_number`, `Node.linked_link`: the names and parents of a tree that was just built;
* `Part.Among`, `outline_among`: the parts of a part are read from its nodes and those below;
* `Concrete.TagsPlain`: what a grammar promises of closing tags;
* `shaped_of_readAs`: what is read has the parts that its label says;
* `read_wellFormed`: what is read is well-formed.
-/

namespace JsxLint

/-! ### Names and parents of a new tree -/

namespace Node

theorem numberAll_fst_snd (ns : List Node)
    (h : ∀ n ∈ ns, ∀ next, (n.number next).1.ids = List.range' next n.ids.length ∧
      (n.number next).2 = next + n.ids.length) (next : NodeId) :
    (numberAll next ns).1.flatMap ids = List.range' next (ns.flatMap ids).length ∧
      (numberAll next ns).2 = next + (ns.flatMap ids).length := by
  induction ns generalizing next with
  | nil => exact ⟨rfl, rfl⟩
  | cons n ns ih =>
    obtain ⟨h1, h2⟩ := h n List.mem_cons_self next
    obtain ⟨h3, h4⟩ := ih (fun m hm => h m (List.mem_cons_of_mem _ hm)) (n.number next).2
    rw [numberAll]
    simp only [List.flatMap_cons, List.length_append]
    refine ⟨?_, ?_⟩
    · rw [h1, h3, h2, List.range'_append_1]
    · rw [h4, h2]
      exact Nat.add_assoc ..

/-- A new tree has consecutive names. -/
theorem ids_number (n : Node) (next : NodeId) :
    (n.number next).1.ids = List.range' next n.ids.length ∧
      (n.number next).2 = next + n.ids.length := by
  induction n using induct generalizing next with
  | step n ih =>
    obtain ⟨h1, h2⟩ := numberAll_fst_snd n.children (fun c hc next => ih c hc next) (next + 1)
    have hn : (n.number next).2 = (numberAll (next + 1) n.children).2 := by
      cases n
      rw [number]
    rw [hn, number_fst, ids_eq, ids_eq n, List.length_cons, List.range'_succ, h1, h2]
    exact ⟨rfl, Nat.add_right_comm ..⟩

theorem ids_link (n : Node) (parent : Option NodeId) : (n.link parent).ids = n.ids := by
  induction n using induct generalizing parent with
  | step n ih =>
    rw [link_eq, ids_eq, ids_eq n, List.flatMap_map]
    congr 1
    refine List.flatMap_congr ?_
    exact fun c hc => ih c hc _

theorem linked_link (n : Node) (parent : Option NodeId) : (n.link parent).Linked := by
  induction n using induct generalizing parent with
  | step n ih =>
    intro m hm c hc
    rw [link_eq] at hm
    rcases mem_walk.1 hm with rfl | ⟨b, hb, hm⟩
    · obtain ⟨a, -, rfl⟩ := List.mem_map.1 hc
      rw [link_eq]
    · obtain ⟨a, ha, rfl⟩ := List.mem_map.1 hb
      exact ih a ha _ m hm c hc

end Node

/-! ### Where parts come from -/

namespace Reading

open Concrete

section Among

variable {T : Concrete → Prop} {s : Source} {b c : Concrete} {p q : Part}

/-- The nodes that a part speaks of. -/
def Part.nodes : Part → List Concrete
  | .node c | .name c | .markupName c | .parameters c | .opening _ c | .closing c | .nothing c => [c]
  | .className named c => [named, c]
  | .spread c inner => [c, inner]
  | .noParameters => []

/-- Whether a part speaks of nodes of a class only. -/
def Part.Among (T : Concrete → Prop) (p : Part) : Prop :=
  ∀ b ∈ p.nodes, T b

/-- Whether a class of nodes has with a node all that reading goes on to. -/
structure Downward (T : Concrete → Prop) : Prop where
  named : ∀ c, T c → ∀ b ∈ c.namedChildren, T b
  field : ∀ c, T c → ∀ name b, c.field? name = some b → T b

theorem downward_walk (c : Concrete) : Downward (· ∈ c.walk) where
  named _ ha b hb :=
    mem_walk_trans (mem_walk.2 (.inr ⟨b, (namedChildren_sublist _).subset hb, b.self_mem_walk⟩)) ha
  field _ ha _ b hb := mem_walk_trans (mem_walk.2 (.inr ⟨b, mem_of_field? hb, b.self_mem_walk⟩)) ha

theorem among_node (h : T b) : (Part.node b).Among T := by
  intro a ha
  cases List.mem_singleton.1 ha
  exact h

theorem among_nodes {cs : List Concrete} (h : ∀ b ∈ cs, T b) :
    ∀ q ∈ cs.map Part.node, q.Among T := by
  intro q hq
  obtain ⟨b, hb, rfl⟩ := List.mem_map.1 hq
  exact among_node (h b hb)

theorem among_tagPart (h : T b) : (tagPart s b).Among T := by
  intro a ha
  have hb : a = b := by
    rw [tagPart] at ha
    split_ifs at ha <;> exact List.mem_singleton.1 ha
  exact hb ▸ h

namespace Downward

variable (hT : Downward T) (hc : T c)

include hT hc

theorem significant : ∀ b ∈ c.significant, T b :=
  fun b hb => hT.named c hc b (c.significant_sublist.subset hb)

theorem attributePart (hq : attributePart c = some q) : q.Among T := by
  rw [Reading.attributePart] at hq
  split_ifs at hq
  · cases hq
    exact among_node hc
  · cases hq
    split
    · exact among_node hc
    · next inner hi =>
      intro a ha
      simp only [Part.nodes, List.mem_cons, List.not_mem_nil, or_false] at ha
      rcases ha with rfl | rfl
      · exact hc
      · exact hT.significant hc _ (List.mem_of_mem_head? (Option.filter_eq_some_iff.1 hi).1)

theorem importedNames : ∀ b ∈ importedNames c, T b := by
  intro b hb
  rw [Reading.importedNames] at hb
  split_ifs at hb
  · cases List.mem_singleton.1 hb
    exact hc
  · exact hT.named c hc b (List.mem_filter.1 hb).1
  · obtain ⟨a, ha, hab⟩ := List.mem_filterMap.1 hb
    obtain ⟨field, hf⟩ := field_of_importedName? hab
    exact hT.field a (hT.named c hc a ha) field b hf
  · cases hb

end Downward

section Below

variable (hT : Downward T) (hn : ∀ b ∈ c.namedChildren, T b)
  (hf : ∀ field b, c.field? field = some b → T b)

include hT hn in
theorem below_importedOf : ∀ b ∈ importedOf c, T b := by
  intro b hb
  obtain ⟨clause, hclause, hb⟩ := List.mem_flatMap.1 hb
  obtain ⟨item, hi, hb⟩ := List.mem_flatMap.1 hb
  have hclause := hn clause (List.mem_filter.1 hclause).1
  exact hT.importedNames (hT.named clause hclause item hi) b hb

include hT hf in
theorem below_argumentsOf : ∀ b ∈ argumentsOf c, T b := by
  intro b hb
  rw [argumentsOf.eq_def] at hb
  split at hb
  · cases hb
  · next list hl =>
    split_ifs at hb
    · exact hT.significant (hf _ list hl) b hb
    · cases List.mem_singleton.1 hb
      exact hf _ _ hl

include hn hf in
theorem below_tag {field kind : String}
    (h : (c.field? field).or (c.firstNamed? kind) = some b) : T b := by
  rcases Option.or_eq_some_iff.1 h with h | ⟨-, h⟩
  · exact hf field b h
  · exact hn b (List.mem_of_find?_eq_some h)

include hT hn hf in
/-- The parts of a node are read from nodes below it, but for the tag of an element that is nothing
else. -/
theorem nodeOutline_below : ∀ q ∈ (nodeOutline s c).2, q.Among T ∨ q = .opening true c := by
  intro q hq
  rcases mem_nodeOutline hq with ⟨-, name, rfl, h, -, -⟩ | ⟨-, hp⟩
  · exact .inl (among_node (hf _ _ h))
  · cases hp with
    | named h => exact .inl (among_node (hn _ h))
    | field h | parameters h => exact .inl (among_node (hf _ _ h))
    | argument h => exact .inl (among_node (below_argumentsOf hT hf _ h))
    | imported h => exact .inl (among_node (below_importedOf hT hn _ h))
    | noParameters => exact .inl (List.forall_mem_nil _)
    | className hname h =>
      exact .inl (List.forall_mem_cons.2 ⟨hf _ _ hname, List.forall_mem_singleton.2 (hn _ h)⟩)
    | opening _ h => exact .inl (among_node (below_tag hn hf (Option.filter_eq_some_iff.1 h).1))
    | closing _ h => exact .inl (among_node (below_tag hn hf h))
    | selfClosing => exact .inr rfl
    | attributeName h => exact .inl (among_node (hn _ (c.significant_sublist.subset h)))

end Below

/-- The parts of a node are read from it and from nodes below it. -/
theorem Downward.nodeOutline (hT : Downward T) (hc : T c) :
    ∀ q ∈ (nodeOutline s c).2, q.Among T := by
  intro q hq
  rcases nodeOutline_below hT (hT.named c hc) (hT.field c hc) q hq with h | rfl
  · exact h
  · exact among_node hc

/-- The parts of a part are read from the nodes that it speaks of and from nodes below them. -/
theorem outline_among (hT : Downward T) (hp : p.Among T) :
    ∀ q ∈ (p.outline s).2, q.Among T := by
  have htag : ∀ c : Concrete, T c → ∀ q ∈ (c.field? "name").toList.map (tagPart s), q.Among T := by
    intro c hc q hq
    obtain ⟨b, hb, rfl⟩ := List.mem_map.1 hq
    exact among_tagPart (hT.field c hc _ b (Option.mem_toList.1 hb))
  cases p with
  | node c => exact hT.nodeOutline (hp c List.mem_cons_self)
  | name c => exact fun q hq => (by cases hq)
  | markupName c => exact fun q hq => (by cases hq)
  | className n c =>
    rw [Part.outline]
    split_ifs
    · exact hT.nodeOutline (hp c (List.mem_cons_of_mem _ List.mem_cons_self))
    · exact fun q hq => (by cases hq)
  | parameters c =>
    have hc := hp c List.mem_cons_self
    rw [Part.outline]
    split_ifs
    · exact among_nodes (hT.significant hc)
    · exact List.forall_mem_singleton.2 (among_node hc)
  | noParameters => exact fun q hq => (by cases hq)
  | opening selfClosing c =>
    have hc := hp c List.mem_cons_self
    refine List.forall_mem_append.2 ⟨htag c hc, fun q hq => ?_⟩
    obtain ⟨b, hb, hbq⟩ := List.mem_filterMap.1 hq
    exact hT.attributePart (hT.named c hc b hb) hbq
  | closing c => exact htag c (hp c List.mem_cons_self)
  | spread c inner =>
    have hinner := hp inner (List.mem_cons_of_mem _ List.mem_cons_self)
    intro q hq
    cases List.mem_singleton.1 hq
    split
    · next argument ha => exact among_node (hT.significant hinner _ (List.mem_of_mem_head? ha))
    · exact among_node hinner
  | nothing c => exact fun q hq => (by cases hq)

/-- What holds of a part and of all parts below it holds of the part that a node is read from. -/
theorem ReadAs.exists_part {I : Part → Prop} {n m : Node}
    (hI : ∀ p, I p → ∀ q ∈ (p.outline s).2, I q) (h : ReadAs s p n) (hp : I p) (hm : m ∈ n.walk) :
    ∃ q, I q ∧ ReadAs s q m := by
  induction n using Node.induct generalizing p with
  | step n ih =>
    rcases Node.mem_walk.1 hm with rfl | ⟨k, hk, hmk⟩
    · exact ⟨p, hp, h⟩
    · cases h with
      | fill _ hks =>
        obtain ⟨q, hq, hqk⟩ := exists_of_forall₂ hks hk
        exact ih k hk hqk (hI p hp q hq) hmk

end Among

/-! ### The parts of a node -/

end Reading

/-- What a grammar promises of closing tags: each holds a name and nothing else. -/
def Concrete.TagsPlain (c : Concrete) : Prop :=
  ∀ b ∈ c.walk, b.kind = "jsx_element" → ∀ tag ∈ Reading.closeTag? b, ∀ name ∈ tag.field? "name",
    ∀ a ∈ name.walk, a.kind ∈ tagNameKinds

namespace Reading

open Concrete

section Shapes

variable {s : Source} {b c : Concrete} {p q : Part} {n : Node} {kids : List Node}

theorem plainOutline (h : c.kind ∈ tagNameKinds) : (nodeOutline s c).1.isBare ∧
    ∀ q ∈ (nodeOutline s c).2, ∃ b ∈ c.walk, q = .node b := by
  have hother : nodeOutline s c = otherOutline c none → (nodeOutline s c).1.isBare ∧
      ∀ q ∈ (nodeOutline s c).2, ∃ b ∈ c.walk, q = .node b := by
    intro ho
    rw [ho]
    refine ⟨List.contains_iff_mem.2 h, fun q hq => ?_⟩
    obtain ⟨b, hb, rfl⟩ := List.mem_map.1 hq
    exact ⟨b, (downward_walk c).named c c.self_mem_walk b hb, rfl⟩
  have hwalk := downward_walk c
  have hin := hwalk.nodeOutline (s := s) c.self_mem_walk
  simp only [tagNameKinds, List.mem_cons, List.not_mem_nil, or_false] at h
  rcases h with hk | hk | hk | hk | hk | hk | hk | hk | hk
  · have ho : nodeOutline s c = (.identifier (textOf s c) (textOf s c) none, []) := by
      rw [nodeOutline.eq_def, hk]
      rfl
    rw [ho]
    exact ⟨rfl, fun q hq => by cases hq⟩
  · have ho : nodeOutline s c = (.member (((propertyOf? c).map (textOf s)).getD ""),
        (objectOf? c).toList.map .node) := by
      rw [nodeOutline.eq_def, hk]
      rfl
    rw [ho] at hin ⊢
    refine ⟨rfl, fun q hq => ?_⟩
    obtain ⟨b, -, rfl⟩ := List.mem_map.1 hq
    exact ⟨b, hin _ hq b List.mem_cons_self, rfl⟩
  all_goals exact hother (by rw [nodeOutline.eq_def, hk]; rfl)

/-- A name that is plain is read as a bare tree. -/
theorem bare_of_plain (h : ReadAs s p n) (hp : p = .node c ∨ p = .markupName c)
    (hc : ∀ a ∈ c.walk, a.kind ∈ tagNameKinds) : n.Bare := by
  induction n using Node.induct generalizing p c with
  | step n ih =>
    have hlabel : (p.outline s).1.isBare ∧ ∀ q ∈ (p.outline s).2, ∃ b ∈ c.walk, q = .node b := by
      rcases hp with rfl | rfl
      · exact plainOutline (hc c c.self_mem_walk)
      · exact ⟨rfl, fun q hq => by cases hq⟩
    cases h with
    | fill _ hk =>
      intro m hm
      rcases Node.mem_walk.1 hm with rfl | ⟨k, hkm, hm⟩
      · exact hlabel.1
      · obtain ⟨q, hq, hqk⟩ := exists_of_forall₂ hk hkm
        obtain ⟨b, hb, rfl⟩ := hlabel.2 q hq
        exact ih k hkm hqk (.inl rfl) (fun a ha => hc a (mem_walk_trans ha hb)) m hm

/-- A closing tag with a plain name is read as a bare tree. -/
theorem closing_bare {tag : Concrete} (h : ReadAs s (.closing tag) n)
    (hp : ∀ name ∈ tag.field? "name", ∀ a ∈ name.walk, a.kind ∈ tagNameKinds) : n.Bare := by
  cases h with
  | fill _ hk =>
    intro m hm
    rcases Node.mem_walk.1 hm with rfl | ⟨k, hkm, hm⟩
    · rfl
    · obtain ⟨q, hq, hqk⟩ := exists_of_forall₂ hk hkm
      obtain ⟨name, hn, rfl⟩ := List.mem_map.1 hq
      refine bare_of_plain (c := name) hqk ?_ (hp name (Option.mem_toList.1 hn)) m hm
      rw [tagPart]
      split_ifs
      · exact .inl rfl
      · exact .inr rfl
      · exact .inr rfl
      · exact .inl rfl

/-! ### The parts of a node -/

theorem shaped_of_nil (h : n.children = []) : n.Shaped := by
  obtain ⟨id, parent, place, label, children⟩ := n
  cases h
  refine ⟨fun _ => rfl, fun _ _ => rfl, fun _ h => ?_, fun _ _ h => ?_, fun _ h => ?_,
    fun _ h => ?_⟩
  · cases label <;> first | cases h | (next b => cases b <;> cases h)
  · cases label <;> cases h
  · cases label <;> first | cases h | (next b _ => cases b <;> cases h)
  · cases label <;> first | cases h | (next b _ => cases b <;> cases h)

theorem parameters_form {o : Option Concrete} (h : ReadAs s (parametersPart o) n) :
    n.label.form = "Parameters" := by
  rw [h.label_eq]
  cases o with
  | none => rfl
  | some c =>
    rw [parametersPart, Part.outline]
    split_ifs <;> rfl

/-- Functions are shaped when their parameters are. -/
theorem shaped_of_function (hl : n.label.isFunction)
    (hp : ∀ parts, n.function? = some parts → parts.parameters.label.form = "Parameters") :
    n.Shaped := by
  obtain ⟨id, parent, place, label, children⟩ := n
  cases label <;> first
    | exact absurd hl Bool.false_ne_true
    | exact ⟨fun h => (by cases h), fun _ h => (by cases h), hp, fun _ _ h => (by cases h),
        fun _ h => (by cases h), fun _ h => (by cases h)⟩

theorem method_shaped {o : Option Concrete} {label : Label} (ho : n.label = label)
    (hl : label = .arrowFunction ∨ label = .functionExpression false)
    (hk : List.Forall₂ (ReadAs s) (parametersPart o :: fieldPart c "body") n.children) :
    n.Shaped := by
  obtain ⟨id, parent, place, l, children⟩ := n
  change l = label at ho
  subst ho
  refine shaped_of_function (by rcases hl with rfl | rfl <;> rfl) fun parts hf => ?_
  cases hk with
  | cons h1 hk =>
    rw [fieldPart] at hk
    cases hb : c.field? "body" with
    | none =>
      rw [hb] at hk
      cases hk
      rcases hl with rfl | rfl <;> cases hf
    | some body =>
      rw [hb] at hk
      cases hk with
      | cons h2 hk =>
        cases hk
        rcases hl with rfl | rfl <;> cases hf <;> exact parameters_form h1

theorem functionOutline_shaped {label : Bool → Label}
    (hl : label = .functionDeclaration ∨ label = .functionExpression)
    (ho : n.label = (functionOutline label c).1)
    (hk : List.Forall₂ (ReadAs s) (functionOutline label c).2 n.children) : n.Shaped := by
  obtain ⟨id, parent, place, l, children⟩ := n
  change l = _ at ho
  subst ho
  refine shaped_of_function (by rcases hl with rfl | rfl <;> rfl) fun parts hf => ?_
  rw [functionOutline] at hf hk
  have hbody : ∀ kids, List.Forall₂ (ReadAs s) (fieldPart c "body") kids →
      kids = [] ∨ ∃ k, kids = [k] := by
    intro kids hk
    rw [fieldPart] at hk
    cases hb : c.field? "body" with
    | none =>
      rw [hb] at hk
      cases hk
      exact .inl rfl
    | some body =>
      rw [hb] at hk
      cases hk with
      | cons _ hk =>
        cases hk
        exact .inr ⟨_, rfl⟩
  rw [fieldPart] at hk
  cases hn : c.field? "name" with
  | none =>
    rw [hn] at hf hk
    cases hk with
    | cons h1 hk =>
      rcases hbody _ hk with rfl | ⟨k, rfl⟩
      · rcases hl with rfl | rfl <;> cases hf
      · rcases hl with rfl | rfl <;> cases hf <;> exact parameters_form h1
  | some name =>
    rw [hn] at hf hk
    cases hk with
    | cons _ hk =>
      cases hk with
      | cons h1 hk =>
        rcases hbody _ hk with rfl | ⟨k, rfl⟩
        · rcases hl with rfl | rfl <;> cases hf
        · rcases hl with rfl | rfl <;> cases hf <;> exact parameters_form h1

theorem attributeOutline_shaped (ho : n.label = .markupAttribute)
    (hk : List.Forall₂ (ReadAs s) (c.significant.head?.toList.map .markupName ++
      c.significant.tail.head?.toList.map .node) n.children) : n.Shaped := by
  obtain ⟨id, parent, place, label, children⟩ := n
  change label = _ at ho
  subst ho
  cases hs : c.significant with
  | nil =>
    rw [hs] at hk
    cases hk
    exact shaped_of_nil rfl
  | cons b rest =>
    rw [hs] at hk
    cases hk with
    | cons h1 hk =>
      refine ⟨fun h => (by cases h), fun _ h => (by cases h), fun _ h => (by cases h),
        fun _ _ h => ?_, fun _ h => (by cases h), fun _ h => (by cases h)⟩
      cases h
      rw [h1.label_eq]
      rfl

theorem elementOutline_shaped {isClosed : Bool} {tag : Concrete} {selfClosing : Bool}
    {parts : List Part} (ho : n.label = .element isClosed [])
    (hk : List.Forall₂ (ReadAs s) (.opening selfClosing tag :: parts) n.children)
    (hc : isClosed → ∃ content closeTag, parts = content ++ [.closing closeTag] ∧
      ∀ name ∈ closeTag.field? "name", ∀ a ∈ name.walk, a.kind ∈ tagNameKinds) : n.Shaped := by
  obtain ⟨id, parent, place, label, children⟩ := n
  change label = _ at ho
  subst ho
  cases hk with
  | @cons _ _ _ ks h1 hk =>
    refine ⟨fun h => (by cases h), fun _ h => (by cases h), fun _ h => (by cases h),
      fun _ _ h => (by cases h), fun parts h => ?_, fun parts h c hcl => ?_⟩
    · cases isClosed <;> cases h <;> exact (congrArg Label.form h1.label_eq).trans rfl
    · cases isClosed with
      | false =>
        cases h
        cases hcl
      | true =>
        cases h
        obtain ⟨content, closeTag, rfl, hplain⟩ := hc rfl
        have hr := List.forall₂_reverse_iff.2 hk
        rw [List.reverse_append, List.reverse_singleton, List.singleton_append] at hr
        rw [Option.mem_def, List.getLast?_eq_head?_reverse] at hcl
        generalize ks.reverse = rs at hr hcl
        cases hr with
        | cons h2 _ =>
          cases hcl
          exact ⟨congrArg Label.form h2.label_eq, (closing_bare h2 hplain).idle⟩

/-- What grammars promise of the closing tag of a node, when it is an element. -/
def TagPlain (c : Concrete) : Prop :=
  c.kind = "jsx_element" → ∀ tag ∈ closeTag? c, ∀ name ∈ tag.field? "name", ∀ a ∈ name.walk,
    a.kind ∈ tagNameKinds

instance (c : Concrete) : Decidable (TagPlain c) :=
  inferInstanceAs (Decidable (c.kind = "jsx_element" → ∀ tag ∈ closeTag? c,
    ∀ name ∈ tag.field? "name", ∀ a ∈ name.walk, a.kind ∈ tagNameKinds))

instance (c : Concrete) : Decidable c.TagsPlain :=
  inferInstanceAs (Decidable (∀ b ∈ c.walk, TagPlain b))

/-- Whether every node that fills an outline has the parts that its label says. -/
def Shapes (s : Source) (o : Label × List Part) : Prop :=
  ∀ n : Node, n.label = o.1 → List.Forall₂ (ReadAs s) o.2 n.children → n.Shaped

theorem shapes_nil (label : Label) : Shapes s (label, []) := by
  intro n _ hk
  refine shaped_of_nil ?_
  cases n
  cases hk
  rfl

theorem shapes_loose {label : Label} {parts : List Part} (h : label.isLoose) :
    Shapes s (label, parts) :=
  fun _ ho _ => Node.shaped_of_loose (ho ▸ h)

theorem nodeOutline_shapes (hc : TagPlain c) : Shapes s (nodeOutline s c) := by
  rw [nodeOutline]
  split
  case h_3 | h_4 => exact fun n => functionOutline_shaped (.inl rfl)
  case h_5 | h_6 | h_7 => exact fun n => functionOutline_shaped (.inr rfl)
  case h_8 => exact fun n ho => method_shaped ho (.inl rfl)
  case h_9 => exact fun n ho => method_shaped ho (.inr rfl)
  case h_17 =>
    rw [binaryOutline]
    split <;> exact shapes_loose rfl
  case h_18 =>
    rw [parenthesizedOutline]
    split <;> exact shapes_loose rfl
  case h_19 | h_20 | h_21 | h_22 | h_33 | h_34 => exact shapes_nil _
  case h_24 =>
    rw [exportOutline]
    split <;> exact shapes_loose rfl
  case h_25 =>
    rw [specifierOutline.eq_def]
    split
    · exact shapes_nil _
    · split_ifs
      · exact shapes_nil _
      · exact shapes_loose rfl
  case h_29 hk =>
    rw [elementOutline]
    split
    · exact shapes_loose rfl
    · refine fun n ho hks => elementOutline_shaped ho hks fun hcl => ?_
      obtain ⟨tag, ht⟩ := Option.isSome_iff_exists.1 hcl
      exact ⟨_, tag, by rw [ht]; rfl, hc hk tag ht⟩
  case h_30 => exact fun n ho hks => elementOutline_shaped ho hks fun h => (by cases h)
  case h_32 => exact fun n => attributeOutline_shaped
  all_goals exact shapes_loose rfl

theorem tagPlain_of_isNamed (h : isNamed c) : TagPlain c := by
  intro hk
  simp [isNamed, hk, nameKinds] at h

/-- What is read has the parts that its label says. -/
theorem shaped_of_readAs (h : ReadAs s p n) (hp : ∀ c, p = .node c → TagPlain c) : n.Shaped := by
  have hs : Shapes s (p.outline s) := by
    cases p with
    | node c => exact nodeOutline_shapes (hp c rfl)
    | name c => exact shapes_nil _
    | markupName c => exact shapes_nil _
    | className m c =>
      rw [Part.outline]
      split_ifs with hn
      · exact nodeOutline_shapes (tagPlain_of_isNamed hn)
      · exact shapes_nil _
    | parameters c =>
      rw [Part.outline]
      split_ifs <;> exact shapes_loose rfl
    | _ => exact shapes_loose rfl
  cases h with
  | fill _ hk => exact hs _ rfl hk

end Shapes

/-! ### Documents -/

/-- The nodes of a document that was read have names of their own. -/
theorem read_ids {grammar : Grammar} {path text : String} {d : Document}
    (h : Document.read grammar path text = .ok d) :
    d.root.ids.Nodup ∧ ∀ i ∈ d.root.ids, i < d.fresh := by
  obtain ⟨-, root, -, -, rfl⟩ := read_eq_ok h
  obtain ⟨hids, hnext⟩ := root.ids_number 0
  have hroot : (Document.ofRoot (.ofString path text) root).root.ids =
      List.range' 0 root.ids.length := by
    rw [← hids]
    exact Node.ids_link _ _
  rw [hroot]
  refine ⟨List.nodup_range', fun i hi => ?_⟩
  exact (List.mem_range'_1.1 hi).2.trans_eq hnext.symm

/-- A document that was read is well-formed. -/
theorem read_wellFormed {grammar : Grammar} {path text : String} {d : Document}
    (hc : (grammar (.ofPath path) text).TagsPlain)
    (h : Document.read grammar path text = .ok d) : d.WellFormed := by
  have hr := (read_readAs h).2
  obtain ⟨hnodup, hlt⟩ := read_ids h
  have hprogram := (read_program h).1
  obtain ⟨-, root, -, -, rfl⟩ := read_eq_ok h
  refine ⟨⟨hnodup, hlt, hprogram, ?_, Node.linked_link _ _, fun n hn => ?_⟩, fun n hn => ?_,
    fun n hn => ?_⟩
  · show ((root.number 0).1.link none).parent = none
    rw [Node.link_eq]
  · have hwalk := downward_walk (grammar (.ofPath path) text)
    obtain ⟨q, hin, hq⟩ := hr.exists_part (I := Part.Among _) (fun p => outline_among hwalk)
      (among_node (Concrete.self_mem_walk _)) hn
    exact shaped_of_readAs hq fun c hcq => hc c (hin c (hcq ▸ List.mem_cons_self))
  · cases hn
  · cases hn

end Reading

end JsxLint
