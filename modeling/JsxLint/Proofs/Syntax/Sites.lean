import JsxLint.Proofs.Syntax.Upkeep

/-!
# Trees node by node

The site of a node is what a tree says of it apart from what is below it: its parent, its place, its
label and the names of its children. A tree is determined by the name of its root and its sites. An
edit of one node leaves all other sites as they are, but for nodes that it puts in or takes out.

* `Node.Site`, `Node.site?`: the site of the node with a name;
* `Node.site?_modify`: the sites of a tree in which one node was edited;
* `Node.site?_relabel`: an edit of a label changes one site;
* `Node.site?_modify_kept`, `site?_modify_gone`, `site?_modify_grown`,
  `site?_modify_inserted`: edits of the children.
-/

namespace JsxLint.Node

/-- What a node is apart from what is below it. -/
structure Site where
  parent : Option NodeId
  place : Place
  label : Label
  children : List NodeId
  deriving DecidableEq, Repr

/-- What a node is, without what is below it. -/
def site (n : Node) : Site :=
  ⟨n.parent, n.place, n.label, n.children.map (·.id)⟩

/-- The site of the node with the given name. -/
def site? (root : Node) (i : NodeId) : Option Site :=
  (root.find? i).map site

variable {id i : NodeId} {edit : Node → Node} {c l m n root : Node} {x : Site}

/-! ### Sites of a tree -/

theorem site?_eq_some_iff (h : root.ids.Nodup) :
    root.site? i = some x ↔ ∃ m ∈ root.walk, m.id = i ∧ m.site = x := by
  rw [site?, Option.map_eq_some_iff]
  simp only [find?_eq_some_iff h, and_assoc]

theorem site?_of_mem (h : root.ids.Nodup) (hm : m ∈ root.walk) :
    root.site? m.id = some m.site :=
  (site?_eq_some_iff h).2 ⟨m, hm, rfl, rfl⟩

theorem site?_eq_none_iff : root.site? i = none ↔ i ∉ root.ids := by
  rw [site?, Option.map_eq_none_iff, find?_eq_none_iff]

/-- The tree below a node says the same of it. -/
theorem site?_of_below (h : root.ids.Nodup) (hn : n ∈ root.walk) (hi : i ∈ n.ids) :
    root.site? i = n.site? i := by
  obtain ⟨m, hm, rfl⟩ := mem_ids.1 hi
  rw [site?_of_mem h (mem_walk_trans hm hn), site?_of_mem (nodup_of_mem h hn) hm]

/-! ### Sites after an edit -/

/-- A node that is not below the edited one is still there, its children edited. -/
theorem modify_mem_walk_of_apart (hl : l ∈ root.walk)
    (h : ∀ n ∈ root.walk, n.id = id → l.id ∉ n.ids) :
    l.modify id edit ∈ (root.modify id edit).walk := by
  induction root using induct with
  | step n ih =>
    have hid : n.id ≠ id := fun he => h n n.self_mem_walk he (id_mem_ids hl)
    rcases mem_walk.1 hl with rfl | ⟨c, hc, hlc⟩
    · exact self_mem_walk _
    · rw [modify_of_ne hid]
      exact mem_walk_of_child (List.mem_map_of_mem hc)
        (ih c hc hlc fun m hm => h m (mem_walk_of_child hc hm))

/-- An edit that keeps the name of its node keeps the sites of the nodes around. -/
theorem site_modify (hl : l.id ≠ id) (he : ∀ m ∈ l.children, m.id = id → (edit m).id = id) :
    (l.modify id edit).site = l.site := by
  rw [modify_of_ne hl, site, site]
  congr 1
  rw [mapChildren, List.map_map]
  refine List.map_congr_left fun c hc => ?_
  rw [Function.comp, modify_eq]
  split_ifs with hid
  · rw [he c hc hid, hid]
  · rfl

/-- The sites of a tree in which one node was edited. -/
theorem site?_modify (h : root.ids.Nodup) (hn : n ∈ root.walk)
    (h' : (root.modify n.id edit).ids.Nodup) (hid : (edit n).id = n.id) (i : NodeId) :
    (root.modify n.id edit).site? i =
      if i ∈ (edit n).ids then (edit n).site? i
      else if i ∈ n.ids then none else root.site? i := by
  split_ifs with hnew hold
  · obtain ⟨m, hm, rfl⟩ := mem_ids.1 hnew
    have hm' : m ∈ (root.modify n.id edit).walk := mem_walk_modify_of_edit h hn hm
    have hd : (edit n).ids.Nodup := by
      obtain ⟨rest, -, hperm⟩ := exists_rest h hn
      exact (List.nodup_append.1 ((hperm edit).nodup_iff.1 h')).2.1
    rw [site?_of_mem h' hm', site?_of_mem hd hm]
  · obtain ⟨rest, hp, hperm⟩ := exists_rest h hn
    refine site?_eq_none_iff.2 fun hi => ?_
    rcases List.mem_append.1 ((hperm edit).mem_iff.1 hi) with hi | hi
    · exact (List.nodup_append.1 (hp.nodup_iff.1 h)).2.2 i hi i hold rfl
    · exact hnew hi
  · by_cases hi : i ∈ root.ids
    · obtain ⟨l, hl, rfl⟩ := mem_ids.1 hi
      have hapart : ∀ m ∈ root.walk, m.id = n.id → l.id ∉ m.ids := by
        intro m hm he
        rwa [eq_of_id_eq h hm hn he]
      have hne : l.id ≠ n.id := fun he => hold (he ▸ id_mem_ids n.self_mem_walk)
      have hl' : l.modify n.id edit ∈ (root.modify n.id edit).walk :=
        modify_mem_walk_of_apart hl hapart
      have hsite : (l.modify n.id edit).site = l.site := by
        refine site_modify hne fun m hm he => ?_
        rw [eq_of_id_eq h (mem_walk_trans (child_mem_walk hm) hl) hn he, hid]
      have hsame : (l.modify n.id edit).id = l.id := by rw [modify_of_ne hne]; rfl
      rw [site?_of_mem h hl, ← hsite, ← site?_of_mem h' hl', hsame]
    · rw [site?_eq_none_iff.2 hi, site?_eq_none_iff]
      obtain ⟨rest, hp, hperm⟩ := exists_rest h hn
      intro hi'
      rcases List.mem_append.1 ((hperm edit).mem_iff.1 hi') with hi' | hi'
      · exact hi (hp.mem_iff.2 (List.mem_append_left _ hi'))
      · exact hnew hi'

/-- A tree with another label at its root. -/
theorem site?_withLabel (label : Label) (i : NodeId) :
    { n with label : Node }.site? i =
      if i = n.id then some { n.site with label } else n.site? i := by
  rw [site?, find?, walk_eq, List.find?_cons, site?, find?, walk_eq n, List.find?_cons]
  by_cases hi : i = n.id
  · simp only [hi, beq_self_eq_true, if_pos]
    rfl
  · have hne : (n.id == i) = false := beq_false_of_ne fun he => hi he.symm
    simp only [hne, if_neg hi]

/-- An edit of a label changes one site. -/
theorem site?_relabel (f : Label → Label) (h : root.ids.Nodup) (id i : NodeId) :
    (root.modify id fun m => { m with label := f m.label }).site? i =
      if i = id then (root.site? i).map fun x => { x with label := f x.label }
      else root.site? i := by
  by_cases hid : id ∈ root.ids
  · obtain ⟨n, hn, rfl⟩ := mem_ids.1 hid
    have hids : { n with label := f n.label : Node }.ids = n.ids := by rw [ids_eq, ids_eq n]
    have h' : (root.modify n.id fun m => { m with label := f m.label }).ids.Nodup := by
      obtain ⟨rest, hp, hperm⟩ := exists_rest h hn
      have hperm := hperm fun m => { m with label := f m.label }
      rw [hids] at hperm
      exact (hperm.trans hp.symm).nodup_iff.2 h
    rw [site?_modify h hn h' rfl, hids, site?_withLabel]
    by_cases hi : i = n.id
    · rw [hi, if_pos (id_mem_ids n.self_mem_walk), if_pos rfl, if_pos rfl, site?_of_mem h hn]
      rfl
    · rw [if_neg hi, if_neg hi]
      split_ifs with hin
      · rw [site?_of_below h hn hin]
      · rfl
  · rw [modify_of_not_mem hid]
    split_ifs with hi
    · rw [hi, site?_eq_none_iff.2 hid]
      rfl
    · rfl

section Children

variable (h : root.ids.Nodup) (hn : n ∈ root.walk) (h' : (root.modify n.id edit).ids.Nodup)
  (hid : (edit n).id = n.id)

include h hn h'

/-- What stands below a child that an edit keeps, or puts in, is in the edited tree. -/
theorem site?_modify_child (hc : c ∈ (edit n).children) (hi : i ∈ c.ids) :
    (root.modify n.id edit).site? i = c.site? i :=
  site?_of_below h' (mem_walk_modify_of_edit h hn (child_mem_walk hc)) hi

/-- What stands below a child that an edit keeps stays as it is. -/
theorem site?_modify_kept (hc : c ∈ n.children) (hc' : c ∈ (edit n).children) (hi : i ∈ c.ids) :
    (root.modify n.id edit).site? i = root.site? i := by
  rw [site?_modify_child h hn h' hc' hi,
    site?_of_below h (mem_walk_trans (child_mem_walk hc) hn) hi]

include hid

theorem site?_modify_self : (root.modify n.id edit).site? n.id = some (edit n).site := by
  have hm : edit n ∈ (root.modify n.id edit).walk :=
    mem_walk_modify_of_edit h hn (self_mem_walk _)
  rw [← hid, hid, ← site?_of_mem h' hm, hid]

theorem site?_modify_apart (hi : i ∉ n.ids) (hi' : i ∉ (edit n).ids) :
    (root.modify n.id edit).site? i = root.site? i := by
  rw [site?_modify h hn h' hid, if_neg hi', if_neg hi]

theorem site?_modify_gone (hi : i ∈ n.ids) (hi' : i ∉ (edit n).ids) :
    (root.modify n.id edit).site? i = none := by
  rw [site?_modify h hn h' hid, if_neg hi', if_pos hi]

/-- An edit that keeps all children changes the site of its node and adds sites. -/
theorem site?_modify_grown (hkeep : n.children ⊆ (edit n).children) (hi : i ∈ root.ids)
    (hne : i ≠ n.id) : (root.modify n.id edit).site? i = root.site? i := by
  by_cases hin : i ∈ n.ids
  · rw [ids_eq] at hin
    obtain ⟨c, hc, hic⟩ := List.mem_flatMap.1 ((List.mem_cons.1 hin).resolve_left hne)
    exact site?_modify_kept h hn h' hc (hkeep hc) hic
  · refine site?_modify_apart h hn h' hid hin fun hi' => ?_
    obtain ⟨rest, hp, hperm⟩ := exists_rest h hn
    have hrest := (List.mem_append.1 (hp.mem_iff.1 hi)).resolve_right hin
    exact (List.nodup_append.1 ((hperm edit).nodup_iff.1 h')).2.2 i hrest i hi' rfl

/-- An edit that puts in one child more changes the site of its node and adds the sites below the
child. -/
theorem site?_modify_inserted (hkeep : n.children ⊆ (edit n).children)
    (hput : c ∈ (edit n).children) (hnew : ∀ m ∈ (edit n).children, m ∈ n.children ∨ m = c)
    {next : NodeId} (hlow : ∀ j ∈ root.ids, j < next) (hhigh : ∀ j ∈ c.ids, ¬j < next)
    (i : NodeId) : (root.modify n.id edit).site? i =
      if i = n.id then some (edit n).site else if i < next then root.site? i else c.site? i := by
  have hapart : i ≠ n.id → i ∉ root.ids → i ∉ c.ids →
      (root.modify n.id edit).site? i = root.site? i := by
    intro hi hir hic
    have hin : i ∉ n.ids := fun hin => hir (ids_subset hn i hin)
    refine site?_modify_apart h hn h' hid hin fun hi' => ?_
    rw [ids_eq, hid] at hi'
    obtain ⟨m, hm, him⟩ := List.mem_flatMap.1 ((List.mem_cons.1 hi').resolve_left hi)
    rcases hnew m hm with hm | rfl
    · exact hin (mem_ids_of_child hm him)
    · exact hic him
  split_ifs with hi hlt
  · rw [hi, site?_modify_self h hn h' hid]
  · by_cases hir : i ∈ root.ids
    · exact site?_modify_grown h hn h' hid hkeep hir hi
    · exact hapart hi hir fun hic => hhigh i hic hlt
  · have hir : i ∉ root.ids := fun hir => hlt (hlow i hir)
    by_cases hic : i ∈ c.ids
    · exact site?_modify_child h hn h' hput hic
    · rw [hapart hi hir hic, site?_eq_none_iff.2 hir, site?_eq_none_iff.2 hic]

end Children

end JsxLint.Node
