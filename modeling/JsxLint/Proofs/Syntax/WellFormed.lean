import JsxLint.Proofs.Syntax.Edit
import JsxLint.Syntax.Document

/-!
# Well-formed documents

What holds of a document that was read, and of all that the edits of the rules make of it: nodes
have names of their own and know their parents, and the parts that the rules rely on are there.

* `Node.Idle`: trees that no rule looks into and that declare nothing;
* `Node.ListsParameters`, `Node.Shaped`: the parts of a node are what its label says;
* `Node.Rooted`: names and parents; `Node.Rooted.ancestors_eq`: the way up by them;
* `Document.WellFormed`: the invariant;
* `Document.WellFormed.node?_eq`, `ancestors_eq`: nodes by name, and the way up.
-/

namespace JsxLint

/-! ### Idle trees -/

/-- The kinds of syntax in the name of a tag. -/
def tagNameKinds : List String :=
  ["identifier", "member_expression", "nested_identifier", "property_identifier",
    "jsx_namespace_name", "comment", "html_comment", ".", ":"]

/-- Whether a node with the label is neither looked at by a rule nor declares anything. -/
def Label.isIdle : Label → Bool
  | .closingTag | .identifier .. | .markupName _ | .member _ | .markupText _ | .container _ => true
  | .other kind _ _ => tagNameKinds.contains kind
  | _ => false

theorem Label.not_isIdle_of_isMarkup {l : Label} (h : l.isMarkup) : ¬l.isIdle := by
  cases l <;> simp_all [isMarkup, isIdle]

/-- Whether a node with the label is a closing tag or can stand in the name of one. -/
def Label.isBare : Label → Bool
  | .closingTag | .identifier .. | .markupName _ | .member _ => true
  | .other kind _ _ => tagNameKinds.contains kind
  | _ => false

theorem Label.isIdle_of_isBare {l : Label} (h : l.isBare) : l.isIdle := by
  cases l <;> first | rfl | exact h

/-- Labels that say nothing of the parts of a node. -/
def Label.isLoose : Label → Bool
  | .identifier .. | .markupName _ | .markupText _ | .functionDeclaration _ | .functionExpression _
  | .arrowFunction | .markupAttribute | .element .. => false
  | _ => true

namespace Node

/-- Whether a whole tree is idle. -/
def Idle (n : Node) : Prop :=
  ∀ m ∈ n.walk, m.label.isIdle

/-- Whether a whole tree is a closing tag, or part of one. -/
def Bare (n : Node) : Prop :=
  ∀ m ∈ n.walk, m.label.isBare

theorem Bare.idle {n : Node} (h : n.Bare) : n.Idle :=
  fun m hm => Label.isIdle_of_isBare (h m hm)

/-- Whether closing tags hold names and nothing else. -/
def TagsBare (root : Node) : Prop :=
  ∀ m ∈ root.walk, m.label = .closingTag → m.Bare

/-- Whether the parameters of a function are a list of parameters. -/
def ListsParameters (n : Node) : Prop :=
  ∀ parts, n.function? = some parts → parts.parameters.label.form = "Parameters"

/-- Whether the parts of a node are what its label says. -/
structure Shaped (n : Node) : Prop where
  /-- Names and texts have no parts. -/
  leaf : n.label.name?.isSome → n.children = []
  text : ∀ text, n.label = .markupText text → n.children = []
  parameters : n.ListsParameters
  name : ∀ name value, n.attribute? = some (name, value) → name.label.form = "JSXName"
  opening : ∀ parts, n.element? = some parts → parts.opening.label.form = "JSXOpeningElement"
  closing : ∀ parts, n.element? = some parts → ∀ c ∈ parts.closing,
    c.label.form = "JSXClosingElement" ∧ c.Idle

theorem shaped_of_loose {n : Node} (h : n.label.isLoose) : n.Shaped := by
  obtain ⟨id, parent, place, label, children⟩ := n
  cases label <;> first
    | exact absurd h Bool.false_ne_true
    | exact ⟨fun h => (by cases h), fun _ h => (by cases h), fun _ h => (by cases h),
        fun _ _ h => (by cases h), fun _ h => (by cases h), fun _ h => (by cases h)⟩

/-- Whether every node at or below a node is the parent that its children know. -/
def Linked (n : Node) : Prop :=
  ∀ m ∈ n.walk, ∀ c ∈ m.children, c.parent = some m.id

end Node

/-- Whether the nodes of a tree have names of their own, before the next free one, and know their
parents. -/
structure Node.Rooted (root : Node) (fresh : NodeId) : Prop where
  nodup : root.ids.Nodup
  lt_fresh : ∀ i ∈ root.ids, i < fresh
  top : root.parent = none
  linked : root.Linked

/-- What holds of the tree of every document, read or edited, in terms of the next free name. -/
structure Node.Formed (root : Node) (fresh : NodeId) : Prop where
  nodup : root.ids.Nodup
  lt_fresh : ∀ i ∈ root.ids, i < fresh
  program : root.label = .program
  top : root.parent = none
  linked : root.Linked
  shaped : ∀ n ∈ root.walk, n.Shaped

namespace Node.Formed

variable {root m p q : Node} {fresh id : NodeId}

theorem rooted (h : root.Formed fresh) : root.Rooted fresh :=
  ⟨h.nodup, h.lt_fresh, h.top, h.linked⟩

/-- A node has one parent. -/
theorem eq_of_child (h : root.Formed fresh) (hp : p ∈ root.walk) (hq : q ∈ root.walk)
    (hm : m ∈ p.children) (hm' : m ∈ q.children) : p = q := by
  have hparent := (h.linked p hp m hm).symm.trans (h.linked q hq m hm')
  exact eq_of_id_eq h.nodup hp hq (Option.some.inj hparent)

/-- The parent that a node knows is there and has the node for a child. -/
theorem exists_parent (h : root.Formed fresh) (hm : m ∈ root.walk) (hp : m.parent = some id) :
    ∃ t ∈ root.walk, m ∈ t.children ∧ t.id = id := by
  obtain ⟨above, hpath⟩ := exists_path hm
  cases hpath with
  | root =>
    rw [h.top] at hp
    cases hp
  | @child _ t _ ht hmt =>
    rw [h.linked t ht.mem_walk m hmt] at hp
    exact ⟨t, ht.mem_walk, hmt, Option.some.inj hp⟩

end Node.Formed

/-! ### The way up -/

namespace Node.Rooted

variable {d : Document} {n : Node} {above : List Node}

theorem node?_eq (h : d.root.Rooted d.fresh) (hn : n ∈ d.root.walk) : d.node? n.id = some n := by
  rw [Document.node?, List.findSome?_cons, (find?_eq_some_iff h.nodup).2 ⟨hn, rfl⟩]

theorem ancestorsFrom_eq (h : d.root.Rooted d.fresh) (hp : d.root.Path above n) :
    ∀ steps, above.length ≤ steps → d.ancestorsFrom steps n.parent = above := by
  induction hp with
  | root =>
    intro steps _
    rw [h.top]
    cases steps <;> rfl
  | @child above m c hp hc ih =>
    intro steps hs
    obtain ⟨steps, rfl⟩ := Nat.exists_eq_add_of_lt (Nat.lt_of_lt_of_le (Nat.succ_pos _) hs)
    rw [h.linked _ hp.mem_walk _ hc, Nat.zero_add, Document.ancestorsFrom, h.node?_eq hp.mem_walk]
    dsimp only
    rw [ih steps (by simpa using hs)]

/-- There are no more nodes above a node than names. -/
theorem length_above_le (h : d.root.Rooted d.fresh) (hp : d.root.Path above n) :
    above.length ≤ d.fresh := by
  have hd := (List.nodup_cons.1 (hp.nodup h.nodup)).2
  have hs : above.map (·.id) ⊆ List.range d.fresh := by
    intro i hi
    obtain ⟨m, hm, rfl⟩ := List.mem_map.1 hi
    exact List.mem_range.2 (h.lt_fresh _ (id_mem_ids (hp.above_mem_walk hm)))
  simpa using hd.length_le_of_subset hs

/-- The way up from a node of the tree. -/
theorem ancestors_eq (h : d.root.Rooted d.fresh) (hp : d.root.Path above n) :
    d.ancestors n = above :=
  h.ancestorsFrom_eq hp d.fresh (h.length_above_le hp)

end Node.Rooted

/-! ### Documents -/

/-- What holds of every document, read or edited. -/
structure Document.WellFormed (d : Document) : Prop where
  root : d.root.Formed d.fresh
  /-- What was taken out is idle. -/
  idle : ∀ n ∈ d.detached, n.Idle
  /-- What was taken out shares no name with the tree. -/
  apart : ∀ n ∈ d.detached, ∀ i ∈ n.ids, i ∉ d.root.ids ∧ i < d.fresh

namespace Document.WellFormed

variable {d : Document} {m n : Node} {above : List Node} {id : NodeId}

theorem node?_eq (h : d.WellFormed) (hn : n ∈ d.root.walk) : d.node? n.id = some n :=
  h.root.rooted.node?_eq hn

/-- What a name stands for is in the tree, or idle. -/
theorem mem_or_idle (h : d.WellFormed) (hn : d.node? id = some n) :
    n.id = id ∧ (n ∈ d.root.walk ∨ n.label.isIdle ∧ id ∉ d.root.ids) := by
  obtain ⟨t, ht, hf⟩ := List.exists_of_findSome?_eq_some hn
  rw [Node.find?] at hf
  have hm := List.mem_of_find?_eq_some hf
  have hid := List.find?_some hf
  rw [beq_iff_eq] at hid
  refine ⟨hid, ?_⟩
  by_cases hr : id ∈ d.root.ids
  · obtain ⟨m, hmw, rfl⟩ := Node.mem_ids.1 hr
    rw [h.node?_eq hmw] at hn
    cases hn
    exact .inl hmw
  · rcases List.mem_cons.1 ht with rfl | ht
    · exact absurd (hid ▸ Node.id_mem_ids hm) hr
    · exact .inr ⟨h.idle t ht n hm, hr⟩

theorem mem_walk_of_node? (h : d.WellFormed) (hn : d.node? id = some n) (hl : ¬n.label.isIdle) :
    n ∈ d.root.walk := by
  rcases (h.mem_or_idle hn).2 with hw | ⟨hi, -⟩
  · exact hw
  · exact absurd hi hl

/-- The node that a node of the tree has for its parent has it for a child. -/
theorem mem_children (h : d.WellFormed) (hm : m ∈ d.root.walk) (hn : n ∈ d.root.walk)
    (hp : m.parent = some n.id) : m ∈ n.children := by
  obtain ⟨t, ht, hmt, hid⟩ := h.root.exists_parent hm hp
  obtain rfl := Node.eq_of_id_eq h.root.nodup ht hn hid
  exact hmt

/-- The way up from a node of the tree. -/
theorem ancestors_eq (h : d.WellFormed) (hp : d.root.Path above n) : d.ancestors n = above :=
  h.root.rooted.ancestors_eq hp

end Document.WellFormed
end JsxLint
