import Mathlib.Data.List.Perm.Subperm
import Mathlib.Order.Nat
import JsxLint.Proofs.Syntax.WellFormed

/-!
# Edits of well-formed documents

A tree stays well-formed when one of its nodes is edited, as far as the edit itself keeps what the
nodes around it rely on.

* `Node.mapChildren`, `Node.function?_mapChildren`, …: the parts of a node whose children changed;
* `Node.Keeps`: what the nodes around an edit rely on;
* `Node.Formed.modify`: edits of one node.
-/

namespace JsxLint

/-! ### Parts of changed children -/

/-- The parts of a function whose nodes changed. -/
def FunctionParts.map (f : Node → Node) (parts : FunctionParts) : FunctionParts :=
  ⟨parts.name.map f, f parts.parameters, f parts.body⟩

/-- The parts of an element whose nodes changed. -/
def ElementParts.map (f : Node → Node) (parts : ElementParts) : ElementParts :=
  ⟨f parts.opening, parts.content.map f, parts.closing.map f⟩

namespace Node

variable {f : Node → Node} {id : NodeId} {edit : Node → Node} {l m n root : Node}

/-- A node with other children, one for each. -/
def mapChildren (f : Node → Node) (n : Node) : Node :=
  { n with children := n.children.map f }

theorem modify_of_ne (h : n.id ≠ id) : n.modify id edit = n.mapChildren (modify id edit) := by
  rw [modify_eq, if_neg h, mapChildren]

theorem modify_self : n.modify n.id edit = edit n := by
  rw [modify_eq, if_pos rfl]

/-- An edit further down keeps the way to a node. -/
theorem Path.modify {above : List Node} (h : root.Path above n) (ha : ∀ m ∈ above, m.id ≠ id) :
    (root.modify id edit).Path (above.map (Node.modify id edit)) (n.modify id edit) := by
  induction h with
  | root => exact .root
  | child _ hc ih =>
    obtain ⟨hm, hmore⟩ := List.forall_mem_cons.1 ha
    refine .child (ih hmore) ?_
    rw [modify_of_ne hm]
    exact List.mem_map_of_mem hc

theorem children_eq_of_function? {parts : FunctionParts} (h : n.function? = some parts) :
    n.children = parts.name.toList ++ [parts.parameters, parts.body] := by
  obtain ⟨id, parent, place, label, children⟩ := n
  rw [function?.eq_def] at h
  split at h <;> cases h
  all_goals
    simp only at *
    subst_vars
    rfl

theorem isFunction_of_function? {parts : FunctionParts} (h : n.function? = some parts) :
    n.label.isFunction := by
  rw [function?.eq_def] at h
  split at h <;> first
    | rw [‹n.label = _›]
      rfl
    | cases h

theorem parameters_mem_children {parts : FunctionParts} (h : n.function? = some parts) :
    parts.parameters ∈ n.children := by
  rw [children_eq_of_function? h]
  exact List.mem_append_right _ List.mem_cons_self

theorem body_mem_children {parts : FunctionParts} (h : n.function? = some parts) :
    parts.body ∈ n.children := by
  rw [children_eq_of_function? h]
  exact List.mem_append_right _ (List.mem_cons_of_mem _ List.mem_cons_self)

theorem children_eq_of_attribute? {name : Node} {value : Option Node}
    (h : n.attribute? = some (name, value)) : ∃ rest, n.children = name :: rest := by
  obtain ⟨id, parent, place, label, children⟩ := n
  rw [attribute?.eq_def] at h
  split at h <;> cases h
  simp only at *
  subst_vars
  exact ⟨_, rfl⟩

theorem children_eq_of_declarator? {pattern : Node} {value : Option Node}
    (h : n.declarator? = some (pattern, value)) : ∃ rest, n.children = pattern :: rest := by
  obtain ⟨id, parent, place, label, children⟩ := n
  rw [declarator?.eq_def] at h
  split at h <;> cases h
  simp only at *
  subst_vars
  exact ⟨_, rfl⟩

theorem label_of_declarator? {pattern : Node} {value : Option Node}
    (h : n.declarator? = some (pattern, value)) : n.label = .variableDeclarator := by
  rw [declarator?.eq_def] at h
  split at h
  · next hl _ => exact hl
  · cases h

theorem children_eq_of_element? {parts : ElementParts} (h : n.element? = some parts) :
    n.children = parts.opening :: parts.content ++ parts.closing.toList := by
  obtain ⟨id, parent, place, label, children⟩ := n
  rw [element?.eq_def] at h
  split at h <;> cases h
  · next opening rest _ hc =>
    simp only at hc ⊢
    subst hc
    cases hr : rest.getLast? with
    | none =>
      rw [List.getLast?_eq_none_iff] at hr
      subst hr
      rfl
    | some closing =>
      rw [List.cons_append]
      congr 1
      exact (List.dropLast_append_getLast? closing hr).symm
  · simp only at *
    subst_vars
    exact (List.append_nil _).symm

/-- The parts of an element, from its children. -/
theorem element?_of_children {isClosed : Bool} {removed : List Span} {opening : Node}
    {content : List Node} {closing : Option Node} (hl : n.label = .element isClosed removed)
    (hc : n.children = opening :: content ++ closing.toList) (hclosed : closing.isSome = isClosed) :
    n.element? = some ⟨opening, content, closing⟩ := by
  obtain ⟨id, parent, place, label, children⟩ := n
  cases hl
  cases hc
  cases closing with
  | none =>
    cases hclosed
    exact congrArg (fun l => some (ElementParts.mk opening l none)) (List.append_nil content)
  | some closing =>
    cases hclosed
    show some (ElementParts.mk opening (content ++ [closing]).dropLast
      (content ++ [closing]).getLast?) = _
    rw [List.dropLast_concat, List.getLast?_concat]

/-- A closed element has a closing tag, unless it has no content either. -/
theorem closing_isSome {isClosed : Bool} {removed : List Span} {parts : ElementParts}
    (hl : n.label = .element isClosed removed) (h : n.element? = some parts)
    (hc : parts.content ≠ [] ∨ parts.closing.isSome) : parts.closing.isSome = isClosed := by
  obtain ⟨id, parent, place, label, children⟩ := n
  cases hl
  cases children with
  | nil => cases isClosed <;> cases h
  | cons opening rest =>
    cases isClosed with
    | false =>
      cases h
      rfl
    | true =>
      cases h
      rcases List.eq_nil_or_concat rest with rfl | ⟨rest, closing, rfl⟩
      · rcases hc with hc | hc
        · exact absurd rfl hc
        · exact hc
      · show (rest.concat closing).getLast?.isSome = true
        rw [List.concat_eq_append, List.getLast?_concat]
        rfl

/-- An element has the parts that its label says when its tags do. -/
theorem shaped_of_element {isClosed : Bool} {removed : List Span} {parts : ElementParts}
    (hl : n.label = .element isClosed removed) (h : n.element? = some parts)
    (ho : parts.opening.label.form = "JSXOpeningElement")
    (hc : ∀ c ∈ parts.closing, c.label.form = "JSXClosingElement" ∧ c.Idle) : n.Shaped := by
  have hparts : ∀ p, n.element? = some p → p = parts := fun p hp => Option.some.inj (hp.symm.trans h)
  obtain ⟨id, parent, place, label, children⟩ := n
  cases hl
  exact ⟨fun h => (by cases h), fun _ h => (by cases h), fun _ h => (by cases h),
    fun _ _ h => (by cases h), fun p hp => hparts p hp ▸ ho, fun p hp => hparts p hp ▸ hc⟩

theorem function?_mapChildren : (n.mapChildren f).function? = n.function?.map (·.map f) := by
  obtain ⟨id, parent, place, label, children⟩ := n
  rw [function?.eq_def, function?.eq_def, mapChildren]
  rcases children with _ | ⟨a, _ | ⟨b, _ | ⟨c, _ | ⟨e, children⟩⟩⟩⟩ <;> cases label <;>
    first | rfl | (next hasName => cases hasName <;> rfl)

theorem declarator?_mapChildren :
    (n.mapChildren f).declarator? = n.declarator?.map fun d => (f d.1, d.2.map f) := by
  obtain ⟨id, parent, place, label, children⟩ := n
  rcases children with _ | ⟨a, _ | ⟨b, children⟩⟩ <;> cases label <;> rfl

theorem attribute?_mapChildren :
    (n.mapChildren f).attribute? = n.attribute?.map fun a => (f a.1, a.2.map f) := by
  obtain ⟨id, parent, place, label, children⟩ := n
  rcases children with _ | ⟨a, _ | ⟨b, children⟩⟩ <;> cases label <;> rfl

theorem element?_mapChildren : (n.mapChildren f).element? = n.element?.map (·.map f) := by
  obtain ⟨id, parent, place, label, children⟩ := n
  rcases children with _ | ⟨a, children⟩
  · cases label <;> first | rfl | (next isClosed _ => cases isClosed <;> rfl)
  · cases label <;> first
      | rfl
      | (next isClosed _ =>
          cases isClosed
          · rfl
          · show some _ = some _
            simp only [ElementParts.map, List.map_dropLast, List.getLast?_map])

/-! ### What the nodes around an edit rely on -/

/-- Whether an edited node keeps its name, its parent and the form of its label. -/
structure Keeps (n n' : Node) : Prop where
  id : n'.id = n.id
  parent : n'.parent = n.parent
  form : n'.label.form = n.label.form

theorem Keeps.refl (n : Node) : n.Keeps n :=
  ⟨rfl, rfl, rfl⟩

theorem Keeps.modify (h : m.id = id → m.Keeps (edit m)) : m.Keeps (m.modify id edit) := by
  by_cases hid : m.id = id
  · rw [modify_eq, if_pos hid]
    exact h hid
  · rw [modify_of_ne hid]
    exact ⟨rfl, rfl, rfl⟩

/-- An idle tree stays idle when the edited node does. -/
theorem Idle.modify (h : n.Idle) (he : ∀ m ∈ n.walk, m.id = id → m.Idle → (edit m).Idle) :
    (n.modify id edit).Idle := by
  intro m hm
  rcases mem_walk_modify hm with ⟨l, hl, hne, rfl⟩ | ⟨l, hl, hid, hm⟩
  · rw [modify_of_ne hne]
    exact h l hl
  · exact he l hl hid (fun k hk => h k (mem_walk_trans hk hl)) m hm

theorem Linked.modify (h : n.Linked) (hk : ∀ m ∈ n.walk, m.id = id → m.Keeps (edit m))
    (he : ∀ m ∈ n.walk, m.id = id → (edit m).Linked) : (n.modify id edit).Linked := by
  intro m hm c hc
  rcases mem_walk_modify hm with ⟨l, hl, hne, rfl⟩ | ⟨l, hl, hid, hm⟩
  · rw [modify_of_ne hne] at hc ⊢
    obtain ⟨b, hb, rfl⟩ := List.mem_map.1 hc
    rw [(Keeps.modify (hk b (mem_walk_trans (child_mem_walk hb) hl))).parent]
    exact h l hl b hb
  · exact he l hl hid m hm c hc

/-- A node whose children are edited has the parts that its label says. -/
theorem Shaped.mapChildren (h : n.Shaped) (hf : ∀ c ∈ n.children, c.Keeps (f c))
    (hi : ∀ c ∈ n.children, c.Idle → (f c).Idle) : (n.mapChildren f).Shaped where
  leaf hl := by
    rw [Node.mapChildren, h.leaf hl]
    rfl
  text text hl := by
    rw [Node.mapChildren, h.text text hl]
    rfl
  parameters parts hp := by
    rw [function?_mapChildren] at hp
    obtain ⟨old, ho, rfl⟩ := Option.map_eq_some_iff.1 hp
    exact (hf _ (parameters_mem_children ho)).form.trans (h.parameters old ho)
  name name value hn := by
    rw [attribute?_mapChildren] at hn
    obtain ⟨⟨old, oldValue⟩, ho, he⟩ := Option.map_eq_some_iff.1 hn
    cases he
    obtain ⟨rest, hc⟩ := children_eq_of_attribute? ho
    exact (hf old (hc ▸ List.mem_cons_self)).form.trans (h.name old oldValue ho)
  opening parts hp := by
    rw [element?_mapChildren] at hp
    obtain ⟨old, ho, rfl⟩ := Option.map_eq_some_iff.1 hp
    have hm : old.opening ∈ n.children := by
      rw [children_eq_of_element? ho]
      exact List.mem_cons_self
    exact (hf _ hm).form.trans (h.opening old ho)
  closing parts hp c hc := by
    rw [element?_mapChildren] at hp
    obtain ⟨old, ho, rfl⟩ := Option.map_eq_some_iff.1 hp
    obtain ⟨b, hb, rfl⟩ := Option.map_eq_some_iff.1 hc
    have hm : b ∈ n.children := by
      rw [children_eq_of_element? ho]
      exact List.mem_append_right _ (Option.mem_toList.2 hb)
    obtain ⟨hform, hidle⟩ := h.closing old ho b hb
    exact ⟨(hf b hm).form.trans hform, hi b hm hidle⟩

/-- What a tree relies on in an edit of one of its nodes, which may bring in new names. -/
structure Edited (fresh fresh' : NodeId) (n n' : Node) : Prop where
  keeps : n.Keeps n'
  program : n.label = .program → n'.label = .program
  ids : ∃ new : List NodeId, n'.ids.Subperm (n.ids ++ new) ∧ new.Nodup ∧
    ∀ i ∈ new, fresh ≤ i ∧ i < fresh'
  fresh : fresh ≤ fresh'
  linked : n'.Linked
  shaped : ∀ m ∈ n'.walk, m.Shaped
  idle : n.Idle → n'.Idle

/-- A tree stays formed when one of its nodes is edited. -/
theorem Formed.modify {fresh fresh' : NodeId} (h : root.Formed fresh) (hn : n ∈ root.walk)
    (he : n.Edited fresh fresh' (edit n)) : (root.modify n.id edit).Formed fresh' := by
  obtain ⟨hk, hp, ⟨new, hids, hnew, hlt⟩, hf, hl, hs, hi⟩ := he
  have heq : ∀ m ∈ root.walk, m.id = n.id → m = n := fun m hm he => eq_of_id_eq h.nodup hm hn he
  have hkeeps : ∀ m ∈ root.walk, m.id = n.id → m.Keeps (edit m) := fun m hm he => heq m hm he ▸ hk
  obtain ⟨rest, h1, h2⟩ := exists_rest h.nodup hn
  have hsub : (root.modify n.id edit).ids.Subperm (root.ids ++ new) := by
    refine (h2 edit).subperm.trans (((List.subperm_append_left rest).2 hids).trans ?_)
    rw [← List.append_assoc]
    exact (h1.symm.append_right new).subperm
  have hnodup : (root.ids ++ new).Nodup := by
    refine List.nodup_append.2 ⟨h.nodup, hnew, fun i hi j hj he => ?_⟩
    have := h.lt_fresh i hi
    have := (hlt j hj).1
    subst he
    exact absurd ‹i < fresh› (Nat.not_lt.2 ‹_›)
  refine ⟨?_, fun i hi => ?_, ?_, ?_, ?_, fun m hm => ?_⟩
  · obtain ⟨l, hl, hsl⟩ := hsub
    exact hl.nodup_iff.1 (hnodup.sublist hsl)
  · rcases List.mem_append.1 (hsub.subset hi) with hi | hi
    · exact (h.lt_fresh i hi).trans_le hf
    · exact (hlt i hi).2
  · by_cases hr : root.id = n.id
    · obtain rfl := heq root root.self_mem_walk hr
      rw [modify_self]
      exact hp h.program
    · rw [modify_of_ne hr]
      exact h.program
  · rw [(Keeps.modify (hkeeps root root.self_mem_walk)).parent]
    exact h.top
  · refine h.linked.modify hkeeps fun m hm he => ?_
    rw [heq m hm he]
    exact hl
  · rcases mem_walk_modify hm with ⟨l, hlw, hne, rfl⟩ | ⟨l, hlw, hid, hm⟩
    · rw [modify_of_ne hne]
      have hc : ∀ c ∈ l.children, c ∈ root.walk := fun c hc =>
        mem_walk_trans (child_mem_walk hc) hlw
      refine (h.shaped l hlw).mapChildren (fun c hcl => Keeps.modify (hkeeps c (hc c hcl)))
        fun c hcl hci => hci.modify fun m hm he hmi => ?_
      obtain rfl := heq m (mem_walk_trans hm (hc c hcl)) he
      exact hi hmi
    · exact hs m (heq l hlw hid ▸ hm)

end Node

namespace Node

variable {fresh : NodeId} {label : Label} {n m root : Node}

theorem Shaped.rename (h : n.Shaped) (name : String) :
    { n with label := n.label.rename name : Node }.Shaped := by
  obtain ⟨id, parent, place, label, children⟩ := n
  cases label <;> first
    | exact h
    | exact ⟨fun _ => h.leaf rfl, fun _ h => (by cases h), fun _ h => (by cases h),
        fun _ _ h => (by cases h), fun _ h => (by cases h), fun _ h => (by cases h)⟩

theorem program_of_form (h : label.form = Label.program.form) : label = .program := by
  cases label <;> simp_all [Label.form]

theorem Linked.of_mem (h : root.Linked) (hn : n ∈ root.walk) : n.Linked :=
  fun m hm => h m (mem_walk_trans hm hn)

/-- An edit of a label that keeps its form. -/
theorem Edited.setLabel (h : root.Formed fresh) (hn : n ∈ root.walk)
    (hself : { n with label := label : Node }.Shaped) (hform : label.form = n.label.form)
    (hidle : n.label.isIdle → label.isIdle) :
    n.Edited fresh fresh { n with label := label } where
  keeps := ⟨rfl, rfl, hform⟩
  program hl := program_of_form (hl ▸ hform)
  ids := ⟨[], by
    rw [List.append_nil, ids_eq, ids_eq n], List.nodup_nil, fun i hi => by cases hi⟩
  fresh := Nat.le_refl _
  linked m hm := by
    rcases mem_walk.1 hm with rfl | ⟨k, hk, hm⟩
    · exact h.linked n hn
    · exact h.linked m (mem_walk_trans (mem_walk_of_child (n := n) hk hm) hn)
  shaped m hm := by
    rcases mem_walk.1 hm with rfl | ⟨k, hk, hm⟩
    · exact hself
    · exact h.shaped m (mem_walk_trans (mem_walk_of_child (n := n) hk hm) hn)
  idle hi m hm := by
    rcases mem_walk.1 hm with rfl | ⟨k, hk, hm⟩
    · exact hidle (hi n n.self_mem_walk)
    · exact hi m (mem_walk_of_child hk hm)

/-- An edit of the label and the children, which brings in no names. -/
theorem Edited.setChildren {children : List Node}
    (hself : { n with label := label, children := children : Node }.Shaped)
    (hform : label.form = n.label.form) (hidle : ¬n.label.isIdle)
    (hids : (children.flatMap Node.ids).Sublist (n.children.flatMap Node.ids))
    (hchildren : ∀ c ∈ children, c.parent = some n.id ∧ c.Linked ∧ ∀ m ∈ c.walk, m.Shaped) :
    n.Edited fresh fresh { n with label := label, children := children } where
  keeps := ⟨rfl, rfl, hform⟩
  program hl := program_of_form (hl ▸ hform)
  ids := ⟨[], by
    rw [List.append_nil, ids_eq, ids_eq n]
    exact (hids.cons_cons n.id).subperm, List.nodup_nil, fun i hi => by cases hi⟩
  fresh := Nat.le_refl _
  linked m hm := by
    rcases mem_walk.1 hm with rfl | ⟨k, hk, hm⟩
    · exact fun k hk => (hchildren k hk).1
    · exact (hchildren k hk).2.1 m hm
  shaped m hm := by
    rcases mem_walk.1 hm with rfl | ⟨k, hk, hm⟩
    · exact hself
    · exact (hchildren k hk).2.2 m hm
  idle hi := absurd (hi n n.self_mem_walk) hidle

end Node

/-! ### Documents -/

namespace Document.WellFormed

open Node

variable {d d' : Document} {n : Node} {edit : Node → Node} {id : NodeId}

/-- What was taken out of a document does not change when a node of its tree is edited. -/
theorem detached_modify (h : d.WellFormed) (hi : id ∈ d.root.ids) :
    (d.modify id edit).detached = d.detached :=
  (List.map_congr_left fun t ht => modify_of_not_mem fun hit => (h.apart t ht id hit).1 hi).trans
    (List.map_id' _)

/-- A document stays well-formed when a node of its tree is edited; what is taken out with the edit
must be idle. -/
theorem modify (h : d.WellFormed) (hn : n ∈ d.root.walk)
    (hroot : d'.root = d.root.modify n.id edit) (he : n.Edited d.fresh d'.fresh (edit n))
    (hdetached : ∀ t ∈ d'.detached, t ∈ d.detached ∨
      t.Idle ∧ ∀ i ∈ t.ids, i ∈ n.ids ∧ i ∉ (edit n).ids) : d'.WellFormed where
  root := hroot ▸ h.root.modify hn he
  idle t ht := (hdetached t ht).elim (h.idle t) (·.1)
  apart t ht i hi := by
    obtain ⟨new, hids, -, hlt⟩ := he.ids
    obtain ⟨rest, h1, h2⟩ := exists_rest h.root.nodup hn
    rw [hroot]
    rcases hdetached t ht with ht | ⟨-, htaken⟩
    · obtain ⟨hroot, hfresh⟩ := h.apart t ht i hi
      refine ⟨fun hm => ?_, hfresh.trans_le he.fresh⟩
      rcases List.mem_append.1 ((h2 edit).subset hm) with hm | hm
      · exact hroot (h1.symm.subset (List.mem_append_left _ hm))
      · rcases List.mem_append.1 (hids.subset hm) with hm | hm
        · exact hroot (ids_subset hn i hm)
        · exact absurd hfresh (Nat.not_lt.2 (hlt i hm).1)
    · obtain ⟨hin, hout⟩ := htaken i hi
      have hroot := ids_subset hn i hin
      refine ⟨fun hm => ?_, (h.root.lt_fresh i hroot).trans_le he.fresh⟩
      rcases List.mem_append.1 ((h2 edit).subset hm) with hm | hm
      · have hd := h1.nodup_iff.1 h.root.nodup
        exact (List.nodup_append.1 hd).2.2 i hm i hin rfl
      · exact hout hm

end Document.WellFormed

end JsxLint
