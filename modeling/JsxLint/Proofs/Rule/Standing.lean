import JsxLint.Proofs.Analysis.Printing
import JsxLint.Proofs.Rule.Effects

/-!
# Where nodes stand

No repair moves a node: whatever is in a document after repairs, in its tree or taken out of it, is
new or has the span, the line and the column that it had.

* `Document.Stands`: documents with nodes where they were, but for new ones;
* `Rule.repair_stands`: repairs move no node.
-/

namespace JsxLint

open Node

namespace Document

variable {d d' d'' : Document} {m n : Node} {id : NodeId} {edit : Node → Node}

/-- Whether a document has a node of that name at that place. -/
def Places (d : Document) (m : Node) : Prop :=
  ∃ m₀ ∈ d.nodes, m₀.id = m.id ∧ m₀.place = m.place

theorem places_of_mem (h : m ∈ d.nodes) : d.Places m :=
  ⟨m, h, rfl, rfl⟩

theorem places_below (h : n ∈ d.nodes) {c : Node} (hc : c ∈ n.children) :
    ∀ m ∈ c.walk, d.Places m := fun _ hm =>
  places_of_mem (mem_nodes_of_walk h (mem_walk_of_child hc hm))

/-- Whether the nodes of a second document, in its tree or taken out of it, are new or stand where
they stood in the first. -/
structure Stands (d d' : Document) : Prop where
  fresh : d.fresh ≤ d'.fresh
  places : ∀ m ∈ d'.nodes, m.id < d.fresh → d.Places m

theorem Stands.refl (d : Document) : d.Stands d :=
  ⟨Nat.le_refl _, fun _ hm _ => places_of_mem hm⟩

theorem Stands.trans (h : d.Stands d') (h' : d'.Stands d'') : d.Stands d'' where
  fresh := Nat.le_trans h.fresh h'.fresh
  places m hm hlt := by
    obtain ⟨k, hk, hid, hplace⟩ := h'.places m hm (Nat.lt_of_lt_of_le hlt h.fresh)
    obtain ⟨l, hl, hlid, hlplace⟩ := h.places k hk (hid ▸ hlt)
    exact ⟨l, hl, hlid.trans hid, hlplace.trans hplace⟩

/-! ### Edits -/

/-- An edit of the nodes with one name moves nothing when it leaves those where they are and has
only new nodes and nodes of the document below them. -/
theorem stands_modify {fresh : NodeId} (hfresh : d.fresh ≤ fresh)
    (he : ∀ n ∈ d.nodes, n.id = id → (edit n).id = n.id ∧ (edit n).place = n.place ∧
      ∀ c ∈ (edit n).children, ∀ m ∈ c.walk, m.id < d.fresh → d.Places m) :
    d.Stands ({ d with fresh := fresh }.modify id edit) := by
  refine ⟨hfresh, fun m hm hlt => ?_⟩
  rcases mem_nodes_modify hm with ⟨l, hl, hne, rfl⟩ | ⟨l, hl, hid, hm⟩
  · rw [modify_of_ne hne]
    exact ⟨l, hl, rfl, rfl⟩
  · obtain ⟨hsame, hplace, hbelow⟩ := he l hl hid
    rcases mem_walk.1 hm with rfl | ⟨c, hc, hm⟩
    · exact ⟨l, hl, hsame.symm, hplace.symm⟩
    · exact hbelow c hc m hm hlt

theorem stands_modifyLabel (d : Document) (id : NodeId) (f : Label → Label) :
    d.Stands (d.modifyLabel id f) :=
  stands_modify (Nat.le_refl _) fun _ hn _ =>
    ⟨rfl, rfl, fun _ hc m hm _ => places_below hn hc m hm⟩

theorem stands_renameAll (ids : List NodeId) (name : String) (d : Document) :
    d.Stands (ids.foldl (·.rename · name) d) := by
  induction ids generalizing d with
  | nil => exact .refl d
  | cons id ids ih => exact (stands_modifyLabel d id _).trans (ih _)

/-- What is taken out stands where it stood. -/
theorem Stands.keep (h : d.Stands d') (hn : ∀ m ∈ n.walk, d.Places m) : d.Stands (d'.keep n) where
  fresh := h.fresh
  places m hm hlt := by
    rcases mem_nodes.1 hm with hroot | ⟨t, ht, htree⟩
    · exact h.places m (mem_nodes.2 (.inl hroot)) hlt
    · rcases List.mem_cons.1 ht with rfl | ht
      · exact hn m htree
      · exact h.places m (mem_nodes.2 (.inr ⟨t, ht, htree⟩)) hlt

theorem Stands.keepAll {kept : List Node} (h : d.Stands d')
    (hk : ∀ c ∈ kept, ∀ m ∈ c.walk, d.Places m) : d.Stands (kept.foldl Document.keep d') := by
  induction kept generalizing d' with
  | nil => exact h
  | cons c kept ih =>
    exact ih (h.keep (hk c List.mem_cons_self)) fun b hb => hk b (List.mem_cons_of_mem _ hb)

theorem stands_removeChild? {parent child : NodeId} (hr : d.removeChild? parent child = some d') :
    d.Stands d' := by
  obtain ⟨owner, taken, ho, ht, -, rfl⟩ := Rule.removeChild?_eq_some hr
  have htaken := mem_nodes_of_child (mem_nodes_of_node? ho).1 (content_subset taken ht)
  have hwithout : d.Stands (d.modify parent (Rule.without taken)) :=
    stands_modify (Nat.le_refl _) fun n hn _ => ⟨rfl, rfl, fun c hc m hm _ =>
      places_below hn (List.mem_filter.1 hc).1 m hm⟩
  refine hwithout.keep fun m hm => ?_
  rcases mem_walk.1 hm with rfl | ⟨c, hc, hm⟩
  · exact ⟨taken, htaken, rfl, rfl⟩
  · exact places_below htaken hc m hm

theorem stands_collapse {parts : ElementParts} (hn : d.node? n.id = some n)
    (hp : n.element? = some parts) : d.Stands (d.collapse n.id) := by
  have hmem := (mem_nodes_of_node? hn).1
  have hopening : parts.opening ∈ d.nodes :=
    mem_nodes_of_child hmem (by simp [children_eq_of_element? hp])
  have hclosed : d.Stands (d.modify n.id (Rule.closed parts.opening)) := by
    refine stands_modify (Nat.le_refl _) fun m _ _ => ⟨rfl, rfl, fun c hc k hk _ => ?_⟩
    cases List.mem_singleton.1 hc
    rcases mem_walk.1 hk with rfl | ⟨b, hb, hk⟩
    · exact ⟨parts.opening, hopening, rfl, rfl⟩
    · exact places_below hopening hb k hk
  rw [Rule.collapse_eq hn hp, ← Rule.foldl_keep]
  refine hclosed.keepAll fun c hc => places_below hmem ?_
  rw [children_eq_of_element? hp, List.cons_append]
  exact List.mem_cons_of_mem _ hc

/-- New nodes that are put in move nothing. -/
theorem stands_insert {fresh : NodeId} (added : Node) (hfresh : d.fresh ≤ fresh)
    (hadded : ∀ m ∈ added.walk, ¬m.id < d.fresh)
    (he : ∀ n ∈ d.nodes, n.id = id → (edit n).id = n.id ∧ (edit n).place = n.place ∧
      ∀ c ∈ (edit n).children, c = added ∨ c ∈ n.children) :
    d.Stands ({ d with fresh := fresh }.modify id edit) := by
  refine stands_modify hfresh fun n hn hid => ?_
  obtain ⟨hsame, hplace, hchildren⟩ := he n hn hid
  refine ⟨hsame, hplace, fun c hc m hm hlt => ?_⟩
  rcases hchildren c hc with rfl | hc
  · exact absurd hlt (hadded m hm)
  · exact places_below hn hc m hm

theorem stands_addParameter (d : Document) (parameters : Node) (name : String) :
    d.Stands (d.addParameter parameters (Rule.ListKey.madeIdentifier name)).2 := by
  rw [Rule.ListKey.madeIdentifier, addParameter_eq]
  refine stands_insert (placedIdentifier d.fresh parameters.id parameters.place.position name)
    (Nat.le_succ _) (fun m hm => ?_) fun n _ _ => ⟨rfl, rfl, fun c hc => ?_⟩
  · cases placedIdentifier_walk hm
    exact Nat.lt_irrefl _
  · exact (List.mem_append.1 hc).symm.imp_left List.mem_singleton.1

theorem stands_insertAttribute (d : Document) (opening : Node) (name : String) :
    d.Stands (d.insertAttribute opening 0 (Rule.ListKey.keyAttribute name)).2 := by
  rw [Rule.ListKey.insertAttribute_eq]
  refine stands_insert (Rule.ListKey.placedKey d.fresh opening.id opening.place.position name)
    (Nat.le_add_right _ 4) (fun m hm => ?_) fun n _ _ => ?_
  · exact Rule.ListKey.placedKey_ids_le (id_mem_ids hm)
  · rcases Rule.ListKey.withAttribute_cases n (Rule.ListKey.placedKey d.fresh opening.id
      opening.place.position name) with hsame | ⟨tag, attributes, hc, hwith⟩
    · rw [hsame]
      exact ⟨rfl, rfl, fun c hc => .inr hc⟩
    · rw [hwith, hc]
      refine ⟨rfl, rfl, fun c hm => ?_⟩
      simp only [List.mem_append, List.mem_cons, List.not_mem_nil, or_false] at hm ⊢
      tauto

end Document

/-! ### Repairs -/

namespace Rule

open Document

variable {w w' : Workspace} {finding : Finding} {change : Change}

theorem ListKey.stands_addParameters (parameters : Node) (s : ScopeId) (names : List String)
    (w : Workspace) : w.document.Stands (names.foldl (addParameter parameters s) w).document := by
  induction names generalizing w with
  | nil => exact .refl _
  | cons name names ih =>
    exact (stands_addParameter w.document parameters name).trans (ih (addParameter parameters s w name))

theorem ListKey.stands_withIndex {callback parameters : Node} {s : ScopeId} {between : Workspace}
    {name : String} {b : Option BindingId}
    (hr : withIndex w callback parameters s = .ok (between, name, b)) :
    w.document.Stands between.document := by
  rw [withIndex.eq_def] at hr
  split at hr
  · split at hr
    · cases hr
    · cases hr
      exact .refl _
  · split at hr
    · cases hr
    · cases hr
      have hadded := stands_addParameters parameters s (missingNames parameters.children) w
      exact hadded.trans (stands_modifyLabel _ parameters.id fun _ => .parameters true)

/-- Repairs move no node. -/
theorem repair_stands {rule : Rule} {repair : Repair} (hrule : rule ∈ all)
    (hr : rule.repair? = some repair) (hok : repair w finding = .ok (change, w')) :
    w.document.Stands w'.document := by
  cases repairing_of_repair? hrule hr with
  | emptyExpression =>
    obtain ⟨braces, parent, document, before, -, -, hremove, -, rfl⟩ :=
      EmptyExpression.repair_eq_ok hok
    exact stands_removeChild? hremove
  | reservedProp | camelCaseAttribute =>
    obtain ⟨n, name, value, newName, -, -, -, -, -, rfl⟩ := AttributeSpelling.repair_eq_ok hok
    exact stands_modifyLabel _ _ _
  | selfClosingTag =>
    obtain ⟨n, parts, hn, hp, -, -, -, -, rfl⟩ := VoidElement.repair_eq_ok hok
    obtain ⟨-, hid⟩ := mem_nodes_of_node? hn
    rw [← hid] at hn
    exact stands_collapse hn hp
  | missingKey =>
    obtain ⟨p, -, rfl⟩ := ListKey.repair_eq_ok hok
    refine (ListKey.stands_withIndex p.index).trans ?_
    rw [ListKey.insertKey_document]
    exact stands_insertAttribute _ _ _
  | componentNaming =>
    obtain ⟨-, b, binding, -, -, hb, -, -, -, rfl⟩ := ComponentName.repair_eq_ok hok
    rw [Workspace.rename_eq hb]
    exact stands_renameAll _ _ _

end Rule

/-- The repairs of a round move no node. -/
theorem Engine.Repairs.stands {w w' : Workspace} {new : List (Rule × Finding)}
    {changes : List Change} (h : Engine.Repairs w new changes w')
    (hnew : ∀ x ∈ new, x.1 ∈ Rule.all) : w.document.Stands w'.document :=
  h.invariant (I := fun v => w.document.Stands v.document)
    (fun x hx _ hr _ hv _ _ hok => hv.trans (Rule.repair_stands (hnew x hx) hr hok)) (.refl _)

end JsxLint
