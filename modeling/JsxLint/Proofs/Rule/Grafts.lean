import JsxLint.Proofs.Rule.Effects

/-!
# What repairs put in

A repair keeps the place and the parent of every node that stays, and the order of the children that
a node has left. What it puts in stands below a list of parameters or an opening tag, and every node
of it has the line and column of the node around it.

* `Node.Graft`: what is put in, with its parent in view;
* `Rule.Edits.children_sublist`: the older children of an edited node;
* `Rule.Effect.graft`, `Rule.Effect.keeps_graft`: what a repair puts in, and what was put in before.
-/

namespace JsxLint

/-- Whether a node of a tree was put in, when the names of what was there are below `fresh`: it was
read from nowhere, its children were put in with it, and it has the line and column of its parent,
which was put in as well or is a list of parameters or an opening tag that was there. -/
structure Node.Graft (fresh : NodeId) (m root : Node) : Prop where
  span : m.place.span = none
  children : ∀ c ∈ m.children, ¬c.id < fresh
  parent : ∃ t ∈ root.walk, m.parent = some t.id ∧ t.place.position = m.place.position ∧
    (t.id < fresh → t.label.form = "Parameters" ∨ t.label.form = "JSXOpeningElement")

theorem Node.Graft.mono {low fresh : NodeId} {root m : Node} (h : m.Graft fresh root)
    (hlow : low ≤ fresh) : m.Graft low root where
  span := h.span
  children c hc hlt := h.children c hc (Nat.lt_of_lt_of_le hlt hlow)
  parent :=
    let ⟨t, ht, hparent, hposition, hform⟩ := h.parent
    ⟨t, ht, hparent, hposition, fun hlt => hform (Nat.lt_of_lt_of_le hlt hlow)⟩

namespace Rule

open Node

variable {w w' : Workspace} {start i k : NodeId} {rule : Rule} {m m' : Node} {x : Site}

/-! ### Edited nodes -/

theorem Edits.place (he : Edits w w' i rule m x) : x.place = m.place := by
  cases he <;> rfl

theorem Edits.parent (he : Edits w w' i rule m x) : x.parent = m.parent := by
  cases he <;> rfl

/-- The children that an edited node had before are still in their order. -/
theorem Edits.children_sublist (he : Edits w w' i rule m x) {low : NodeId}
    (hlow : low ≤ w.document.fresh) :
    (x.children.filter fun j => decide (j < low)).Sublist (m.children.map (·.id)) := by
  have hhigh : ∀ j, w.document.fresh ≤ j → decide (j < low) = false := fun j hj =>
    decide_eq_false (Nat.not_lt.2 (Nat.le_trans hlow hj))
  cases he with
  | spelling _ e => exact List.filter_sublist
  | owner e =>
    refine List.filter_sublist.trans ?_
    exact List.filter_sublist.map _
  | element e =>
    refine List.filter_sublist.trans (List.singleton_sublist.2 ?_)
    rw [children_eq_of_element? e.element?]
    exact List.mem_cons_self
  | opening e => exact List.filter_sublist
  | tag e =>
    have hmade : (e.head.id :: (w.document.fresh + e.added.length) ::
        e.attributes.map (·.id)).filter (fun j => decide (j < low)) =
          (e.head.id :: e.attributes.map (·.id)).filter fun j => decide (j < low) := by
      rw [List.filter_cons, List.filter_cons, List.filter_cons, hhigh _ (Nat.le_add_right _ _)]
      rfl
    rw [e.children, List.map_cons]
    dsimp only
    rw [hmade]
    exact List.filter_sublist
  | parameters e =>
    have hmade : (List.range' w.document.fresh e.added.length).filter
        (fun j => decide (j < low)) = [] := by
      refine List.filter_eq_nil_iff.2 fun j hj => ?_
      rw [hhigh j (List.mem_range'_1.1 hj).1]
      exact Bool.false_ne_true
    rw [ListKey.grownSite, List.filter_append, hmade, List.append_nil]
    exact List.filter_sublist
  | name e hm => exact List.filter_sublist

/-! ### Nodes that are put in -/

/-- What the sites of the nodes of a key say. -/
theorem placedKey_site {made parent : NodeId} {position : Position} {name : String}
    (hx : (ListKey.placedKey made parent position name).site? k = some x) :
    x.place = ⟨none, position⟩ ∧ (∀ j ∈ x.children, made ≤ j) ∧
      (x.parent = some parent ∨ ∃ j, made ≤ j ∧ x.parent = some j) := by
  obtain ⟨m, hm, -, rfl⟩ :=
    (site?_eq_some_iff (ListKey.placedKey_nodup made parent position name)).1 hx
  simp only [ListKey.placedKey, Document.placedIdentifier, walk, walkAll, List.nil_append,
    List.append_nil, List.cons_append, List.mem_cons, List.not_mem_nil, or_false] at hm
  rcases hm with rfl | rfl | rfl | rfl
  · refine ⟨rfl, ?_, .inl rfl⟩
    simp only [site, List.map_cons, List.map_nil, List.forall_mem_cons]
    exact ⟨Nat.le_add_right _ _, Nat.le_add_right _ _, fun _ hj => absurd hj List.not_mem_nil⟩
  · exact ⟨rfl, fun j hj => absurd hj List.not_mem_nil, .inr ⟨made, Nat.le_refl _, rfl⟩⟩
  · refine ⟨rfl, ?_, .inr ⟨made, Nat.le_refl _, rfl⟩⟩
    simp only [site, List.map_cons, List.map_nil, List.forall_mem_cons]
    exact ⟨Nat.le_add_right _ _, fun _ hj => absurd hj List.not_mem_nil⟩
  · exact ⟨rfl, fun j hj => absurd hj List.not_mem_nil,
      .inr ⟨made + 2, Nat.le_add_right _ _, rfl⟩⟩

section

variable (he : Effect w w' i rule) (h : w.Sound start) (h' : w'.Sound start)

include he h h'

/-- A node that is still there stands where it stood. -/
theorem Effect.place_eq (hm : m ∈ w.document.root.walk) (hm' : m' ∈ w'.document.root.walk)
    (hid : m'.id = m.id) : m'.place = m.place := by
  rcases he.site_cases h hm h' hm' hid with hsame | hedit
  · exact congrArg Site.place hsame
  · exact hedit.place

/-- A node that is still there has the parent that it had. -/
theorem Effect.parent_eq (hm : m ∈ w.document.root.walk) (hm' : m' ∈ w'.document.root.walk)
    (hid : m'.id = m.id) : m'.parent = m.parent := by
  rcases he.site_cases h hm h' hm' hid with hsame | hedit
  · exact congrArg Site.parent hsame
  · exact hedit.parent

/-- The older children of a node that is still there are in their order. -/
theorem Effect.children_sublist (hm : m ∈ w.document.root.walk) (hm' : m' ∈ w'.document.root.walk)
    (hid : m'.id = m.id) {low : NodeId} (hlow : low ≤ w.document.fresh) :
    ((m'.children.map (·.id)).filter fun j => decide (j < low)).Sublist
      (m.children.map (·.id)) := by
  rcases he.site_cases h hm h' hm' hid with hsame | hedit
  · have hchildren : m'.children.map (·.id) = m.children.map (·.id) := congrArg Site.children hsame
    rw [hchildren]
    exact List.filter_sublist
  · exact hedit.children_sublist hlow

/-- What hangs on a list of parameters or on an opening tag that was there has a parent as what is
put in has it. -/
theorem Effect.graft_parent (hm' : m' ∈ w'.document.root.walk) {n : Node}
    (hn : n ∈ w.document.root.walk) (hp : m'.parent = some n.id)
    (hposition : m'.place.position = n.place.position)
    (hform : n.label.form = "Parameters" ∨ n.label.form = "JSXOpeningElement") :
    ∃ t ∈ w'.document.root.walk, m'.parent = some t.id ∧
      t.place.position = m'.place.position ∧ (t.id < w.document.fresh →
        t.label.form = "Parameters" ∨ t.label.form = "JSXOpeningElement") := by
  obtain ⟨t, ht, -, hid⟩ := h'.formed.root.exists_parent hm' hp
  refine ⟨t, ht, hid ▸ hp, ?_, fun _ => ?_⟩
  · rw [he.place_eq h h' hn ht hid, hposition]
  · rwa [he.form h h' hn ht hid]

end

namespace Keying

variable (e : Keying w w' i) (h : w.Sound start) (h' : w'.Sound start)

include h

/-- What has a name that is new is a parameter or a part of the key. -/
theorem site?_of_new {j : NodeId} (hj : ¬j < w.document.fresh) : w'.document.root.site? j =
    (ListKey.placedParameters e.functionParts.parameters w.document.fresh e.added ++
      [ListKey.placedKey (w.document.fresh + e.added.length) e.parts.opening.id
        e.parts.opening.place.position e.name]).findSome? (·.site? j) := by
  have hne : ∀ {n : Node}, n ∈ w.document.root.walk → j ≠ n.id := fun hn hid =>
    hj (hid ▸ h.formed.root.lt_fresh _ (id_mem_ids hn))
  rw [e.site?, if_neg (hne (e.opening_mem h).1), if_neg (hne (e.parameters_mem h).1), if_neg hj]

include h'

/-- The parameters are put in below the list of parameters. -/
theorem graft_parameter (hm' : m' ∈ w'.document.root.walk) {n : Node}
    (hn : n ∈ ListKey.placedParameters e.functionParts.parameters w.document.fresh e.added)
    (hsite : n.site? m'.id = some m'.site) : m'.Graft w.document.fresh w'.document.root := by
  obtain ⟨hparameters, listed, hlabel⟩ := e.parameters_mem h
  obtain ⟨⟨name, made⟩, -, rfl⟩ := List.mem_map.1 hn
  rw [ListKey.placedIdentifier_site?] at hsite
  split_ifs at hsite
  have hsite := (Option.some.inj hsite).symm
  have hplace : m'.place = ⟨none, e.functionParts.parameters.place.position⟩ :=
    congrArg Site.place hsite
  have hchildren : m'.children.map (·.id) = [] := congrArg Site.children hsite
  refine ⟨congrArg Place.span hplace, fun c hc => ?_, ?_⟩
  · rw [List.map_eq_nil_iff.1 hchildren] at hc
    cases hc
  · exact (Effect.missingKey e).graft_parent h h' hm' hparameters (congrArg Site.parent hsite)
      (by rw [hplace]) (.inl (by rw [hlabel]; rfl))

/-- The key is put in below the opening tag, and each part of it below the one around it. -/
theorem graft_key (hm' : m' ∈ w'.document.root.walk)
    (hsite : (ListKey.placedKey (w.document.fresh + e.added.length) e.parts.opening.id
      e.parts.opening.place.position e.name).site? m'.id = some m'.site) :
    m'.Graft w.document.fresh w'.document.root := by
  obtain ⟨hopening, tagged, hlabel⟩ := e.opening_mem h
  obtain ⟨hplace, hchildren, hparent⟩ := placedKey_site hsite
  have hplace : m'.place = ⟨none, e.parts.opening.place.position⟩ := hplace
  have hnew : ∀ j, w.document.fresh + e.added.length ≤ j → ¬j < w.document.fresh :=
    fun j hj => Nat.not_lt.2 (Nat.le_trans (Nat.le_add_right _ _) hj)
  refine ⟨congrArg Place.span hplace, fun c hc => hnew _ (hchildren _ (List.mem_map_of_mem hc)), ?_⟩
  rcases hparent with hparent | ⟨j, hj, hparent⟩
  · exact (Effect.missingKey e).graft_parent h h' hm' hopening hparent
      (by rw [hplace]) (.inr (by rw [hlabel]; rfl))
  · obtain ⟨t, ht, -, hid⟩ := h'.formed.root.exists_parent hm' hparent
    -- the parent is a part of the key as well
    have htsite := site?_of_mem h'.formed.root.nodup ht
    rw [hid, e.site?_of_new h (hnew j hj), List.findSome?_append,
      ListKey.placedParameters_site?_eq_none (.inr hj), Option.none_or,
      List.findSome?_singleton] at htsite
    refine ⟨t, ht, hid ▸ hparent, ?_, fun hlt => absurd (hid ▸ hlt) (hnew j hj)⟩
    have htplace : t.place = _ := (placedKey_site htsite).1
    rw [htplace]
    exact (congrArg Place.position hplace).symm

end Keying

section

variable (he : Effect w w' i rule) (h : w.Sound start) (h' : w'.Sound start)

include he h h'

/-- A node that was not there before is one that the repair puts in. -/
theorem Effect.graft (hm' : m' ∈ w'.document.root.walk) (hnew : ¬m'.id < w.document.fresh) :
    m'.Graft w.document.fresh w'.document.root := by
  have hx := site?_of_mem h'.formed.root.nodup hm'
  have hnone : w.document.root.site? m'.id = none :=
    site?_eq_none_iff.2 fun hi => hnew (h.formed.root.lt_fresh _ hi)
  have hold : ∀ {n : Node}, n ∈ w.document.root.walk → m'.id ≠ n.id := fun hn hid =>
    hnew (hid ▸ h.formed.root.lt_fresh _ (id_mem_ids hn))
  cases he with
  | reservedProp e =>
    rw [e.site?, hnone, if_neg (hold (e.name_mem h).2)] at hx
    cases hx
  | camelCaseAttribute e =>
    rw [e.site?, hnone, if_neg (hold (e.name_mem h).2)] at hx
    cases hx
  | emptyExpression e =>
    rw [e.site?, hnone, if_neg (hold e.owner_mem)] at hx
    split_ifs at hx
  | selfClosingTag e =>
    rw [e.site?, hnone, if_neg (e.id ▸ hold e.mem), if_neg (hold (e.opening_mem h).1)] at hx
    split_ifs at hx
  | componentNaming e =>
    rw [e.site?, hnone] at hx
    split_ifs at hx
    cases hx
  | missingKey e =>
    rw [e.site?_of_new h hnew] at hx
    obtain ⟨n, hn, hsite⟩ := List.exists_of_findSome?_eq_some hx
    rcases List.mem_append.1 hn with hn | hn
    · exact e.graft_parameter h h' hm' hn hsite
    · obtain rfl := List.mem_singleton.1 hn
      exact e.graft_key h h' hm' hsite

/-- A node that was put in before stays so. -/
theorem Effect.keeps_graft {low : NodeId} (hlow : low ≤ w.document.fresh)
    (hm : m ∈ w.document.root.walk) (hm' : m' ∈ w'.document.root.walk) (hid : m'.id = m.id)
    (hg : m.Graft low w.document.root) : m'.Graft low w'.document.root := by
  have hplace := he.place_eq h h' hm hm' hid
  refine ⟨hplace ▸ hg.span, fun c hc hlt => ?_, ?_⟩
  · have hold := (he.children_sublist h h' hm hm' hid hlow).subset
      (List.mem_filter.2 ⟨List.mem_map_of_mem hc, decide_eq_true hlt⟩)
    obtain ⟨b, hb, hbid⟩ := List.mem_map.1 hold
    exact hg.children b hb (hbid ▸ hlt)
  · obtain ⟨t, ht, hparent, hposition, hform⟩ := hg.parent
    rw [← he.parent_eq h h' hm hm' hid] at hparent
    obtain ⟨t', ht', -, htid⟩ := h'.formed.root.exists_parent hm' hparent
    refine ⟨t', ht', htid ▸ hparent, ?_, fun hlt => ?_⟩
    · rw [he.place_eq h h' ht ht' htid, hplace, hposition]
    · rw [he.form h h' ht ht' htid]
      exact hform (htid ▸ hlt)

end

end Rule
end JsxLint
