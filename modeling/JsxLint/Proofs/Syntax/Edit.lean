import Mathlib.Data.List.Flatten
import Mathlib.Data.List.Nodup
import Mathlib.Data.List.Pairwise
import JsxLint.Proofs.Syntax.Tree

/-!
# Edits of a tree

What an edit of one node leaves of a tree whose nodes have names of their own.

* `Node.ids`: the names in a tree;
* `Node.mem_walk_modify`: the nodes of an edited tree;
* `Node.exists_rest`: the names of a tree are those of one node and a rest that edits of it leave;
* `Node.Path`: a node and those above it.
-/

namespace JsxLint.Node

variable {id : NodeId} {edit : Node → Node} {l m n : Node}

/-! ### Names -/

/-- The names of a node and of everything below it. -/
def ids (n : Node) : List NodeId :=
  n.walk.map (·.id)

theorem ids_eq (n : Node) : n.ids = n.id :: n.children.flatMap ids := by
  rw [ids, walk_eq, List.map_cons, List.map_flatMap]
  rfl

theorem mem_ids {i : NodeId} : i ∈ n.ids ↔ ∃ m ∈ n.walk, m.id = i :=
  List.mem_map

theorem id_mem_ids (h : m ∈ n.walk) : m.id ∈ n.ids :=
  List.mem_map_of_mem h

theorem mem_ids_of_child {c : Node} {i : NodeId} (hc : c ∈ n.children) (hi : i ∈ c.ids) :
    i ∈ n.ids := by
  obtain ⟨m, hm, rfl⟩ := mem_ids.1 hi
  exact id_mem_ids (mem_walk_of_child hc hm)

theorem ids_subset (h : m ∈ n.walk) : ∀ i ∈ m.ids, i ∈ n.ids := by
  intro i hi
  obtain ⟨l, hl, rfl⟩ := mem_ids.1 hi
  exact id_mem_ids (mem_walk_trans hl h)

/-- In a tree whose nodes have names of their own, a name has one node. -/
theorem eq_of_id_eq (h : n.ids.Nodup) (hl : l ∈ n.walk) (hm : m ∈ n.walk) (he : l.id = m.id) :
    l = m :=
  List.inj_on_of_nodup_map h hl hm he

theorem find?_eq_some_iff (h : n.ids.Nodup) : n.find? id = some m ↔ m ∈ n.walk ∧ m.id = id := by
  constructor
  · intro hf
    rw [find?] at hf
    have hm := List.find?_some hf
    exact ⟨List.mem_of_find?_eq_some hf, beq_iff_eq.1 hm⟩
  · rintro ⟨hm, rfl⟩
    cases hf : n.find? m.id with
    | none => exact absurd (beq_self_eq_true m.id) (List.find?_eq_none.1 hf m hm)
    | some l =>
      rw [find?] at hf
      have hl := List.find?_some hf
      rw [eq_of_id_eq h (List.mem_of_find?_eq_some hf) hm (beq_iff_eq.1 hl)]

theorem find?_eq_none_iff : n.find? id = none ↔ id ∉ n.ids := by
  rw [find?, List.find?_eq_none, mem_ids]
  simp

theorem nodup_of_child {c : Node} (h : n.ids.Nodup) (hc : c ∈ n.children) : c.ids.Nodup := by
  rw [ids_eq, List.nodup_cons] at h
  exact (List.nodup_flatMap.1 h.2).1 c hc

theorem nodup_children (h : n.ids.Nodup) : (n.children.map (·.id)).Nodup := by
  rw [ids_eq, List.nodup_cons] at h
  refine List.Sublist.nodup ?_ h.2
  rw [List.map_eq_flatMap]
  exact List.Sublist.flatMap_right _ fun c _ => by
    rw [ids_eq]
    exact List.singleton_sublist.2 List.mem_cons_self

theorem nodup_of_mem (h : n.ids.Nodup) (hm : m ∈ n.walk) : m.ids.Nodup := by
  induction n using induct with
  | step n ih =>
    rcases mem_walk.1 hm with rfl | ⟨c, hc, hm⟩
    · exact h
    · exact ih c hc (nodup_of_child h hc) hm

theorem id_not_mem_child {c : Node} (h : n.ids.Nodup) (hc : c ∈ n.children) : n.id ∉ c.ids := by
  rw [ids_eq, List.nodup_cons] at h
  exact fun hi => h.1 (List.mem_flatMap.2 ⟨c, hc, hi⟩)

/-- Different children have no name in common. -/
theorem child_eq_of_mem_ids {b c : Node} {i : NodeId} (h : n.ids.Nodup) (hb : b ∈ n.children)
    (hc : c ∈ n.children) (hib : i ∈ b.ids) (hic : i ∈ c.ids) : b = c := by
  rw [ids_eq, List.nodup_cons] at h
  by_contra hne
  have hd := (List.nodup_flatMap.1 h.2).2
  have : Std.Symm (Function.onFun List.Disjoint ids) := ⟨fun _ _ h i hi hi' => h hi' hi⟩
  exact hd.forall hb hc hne hib hic

/-! ### Edited trees -/

/-- An edit that leaves its node alone changes nothing. -/
theorem modify_eq_self (h : ∀ m ∈ n.walk, m.id = id → edit m = m) : n.modify id edit = n := by
  induction n using induct with
  | step n ih =>
    rw [modify_eq]
    split_ifs with hid
    · exact h n n.self_mem_walk hid
    · have hc : n.children.map (modify id edit) = n.children.map fun c => c :=
        List.map_congr_left fun c hc => ih c hc fun m hm => h m (mem_walk_of_child hc hm)
      rw [hc, List.map_id' n.children]
      cases n
      rfl

/-- An edit of a node that is not there changes nothing. -/
theorem modify_of_not_mem (h : id ∉ n.ids) : n.modify id edit = n :=
  modify_eq_self fun _ hm he => absurd (mem_ids.2 ⟨_, hm, he⟩) h

theorem modify_congr {edit' : Node → Node} (h : ∀ m ∈ n.walk, m.id = id → edit m = edit' m) :
    n.modify id edit = n.modify id edit' := by
  induction n using induct with
  | step n ih =>
    rw [modify_eq, modify_eq]
    split_ifs with hid
    · exact h n n.self_mem_walk hid
    · congr 1
      exact List.map_congr_left fun c hc => ih c hc fun m hm => h m (mem_walk_of_child hc hm)

/-- A node of an edited tree stands below the edited node, or is another node around the edit. -/
theorem mem_walk_modify (h : m ∈ (n.modify id edit).walk) :
    (∃ l ∈ n.walk, l.id ≠ id ∧ m = l.modify id edit) ∨
      ∃ l ∈ n.walk, l.id = id ∧ m ∈ (edit l).walk := by
  induction n using induct with
  | step n ih =>
    by_cases hid : n.id = id
    · rw [modify_eq, if_pos hid] at h
      exact .inr ⟨n, n.self_mem_walk, hid, h⟩
    · rcases mem_walk.1 h with rfl | ⟨c, hc, hm⟩
      · exact .inl ⟨n, n.self_mem_walk, hid, rfl⟩
      · rw [modify_eq, if_neg hid] at hc
        obtain ⟨b, hb, rfl⟩ := List.mem_map.1 hc
        rcases ih b hb hm with ⟨l, hl, h1, h2⟩ | ⟨l, hl, h1, h2⟩
        · exact .inl ⟨l, mem_walk_of_child hb hl, h1, h2⟩
        · exact .inr ⟨l, mem_walk_of_child hb hl, h1, h2⟩

/-- What stands below the edited node stands in the edited tree. -/
theorem mem_walk_modify_of_edit (h : n.ids.Nodup) (hl : l ∈ n.walk) (hm : m ∈ (edit l).walk) :
    m ∈ (n.modify l.id edit).walk := by
  induction n using induct with
  | step n ih =>
    rw [modify_eq]
    split_ifs with hid
    · rwa [eq_of_id_eq h n.self_mem_walk hl hid]
    · rcases mem_walk.1 hl with rfl | ⟨c, hc, hlc⟩
      · exact absurd rfl hid
      · exact mem_walk_of_child (List.mem_map_of_mem hc) (ih c hc (nodup_of_child h hc) hlc)

theorem perm_middle {i : NodeId} {before middle after rest part : List NodeId}
    (h : middle.Perm (rest ++ part)) : (i :: (before ++ (middle ++ after))).Perm
      ((i :: (before ++ after) ++ rest) ++ part) := by
  refine List.perm_iff_count.2 fun a => ?_
  have hc := h.count_eq a
  simp only [List.count_append, List.count_cons, List.cons_append] at hc ⊢
  omega

/-- An edit of a node below a child leaves the other children. -/
theorem map_modify_of_child {c : Node} (h : n.ids.Nodup) (hc : c ∈ n.children) (hi : id ∈ c.ids) :
    ∃ before after, n.children = before ++ c :: after ∧
      ∀ edit, n.children.map (modify id edit) = before ++ c.modify id edit :: after := by
  obtain ⟨before, after, hs⟩ := List.append_of_mem hc
  refine ⟨before, after, hs, fun edit => ?_⟩
  rw [ids_eq, hs, List.flatMap_append, List.flatMap_cons] at h
  have hd := (List.nodup_cons.1 h).2
  have hsame : ∀ bs : List Node, (∀ b ∈ bs, id ∉ b.ids) → bs.map (modify id edit) = bs :=
    fun bs hbs => (List.map_congr_left fun b hb => modify_of_not_mem (hbs b hb)).trans
      (List.map_id' bs)
  rw [hs, List.map_append, List.map_cons, hsame before, hsame after]
  · intro b hb hib
    exact (List.nodup_append.1 (List.nodup_append.1 hd).2.1).2.2 _ hi _
      (List.mem_flatMap.2 ⟨b, hb, hib⟩) rfl
  · intro b hb hib
    exact (List.nodup_append.1 hd).2.2 _ (List.mem_flatMap.2 ⟨b, hb, hib⟩) _
      (List.mem_append_left _ hi) rfl

/-- The names of a tree are those at or below one node and a rest, which edits of it leave. -/
theorem exists_rest (h : n.ids.Nodup) (hl : l ∈ n.walk) : ∃ rest, n.ids.Perm (rest ++ l.ids) ∧
    ∀ edit, (n.modify l.id edit).ids.Perm (rest ++ (edit l).ids) := by
  induction n using induct with
  | step n ih =>
    by_cases hid : n.id = l.id
    · obtain rfl := eq_of_id_eq h n.self_mem_walk hl hid
      refine ⟨[], .refl _, fun edit => ?_⟩
      rw [modify_eq, if_pos rfl]
      exact .refl _
    · rcases mem_walk.1 hl with rfl | ⟨c, hc, hlc⟩
      · exact absurd rfl hid
      · obtain ⟨rest, h1, h2⟩ := ih c hc (nodup_of_child h hc) hlc
        obtain ⟨before, after, hs, hmodify⟩ := map_modify_of_child h hc (id_mem_ids hlc)
        refine ⟨n.id :: (before.flatMap ids ++ after.flatMap ids) ++ rest, ?_, fun edit => ?_⟩
        · rw [ids_eq, hs, List.flatMap_append, List.flatMap_cons]
          exact perm_middle h1
        · rw [modify_eq, if_neg hid, ids_eq, hmodify, List.flatMap_append, List.flatMap_cons]
          exact perm_middle (h2 edit)

/-- An edit below a node is an edit of that node. -/
theorem modify_below (h : n.ids.Nodup) (hl : l ∈ n.walk) (hi : id ∈ l.ids) :
    n.modify id edit = n.modify l.id (modify id edit) := by
  induction n using induct with
  | step n ih =>
    by_cases hid : n.id = l.id
    · obtain rfl := eq_of_id_eq h n.self_mem_walk hl hid
      rw [modify_eq n.id, if_pos rfl]
    · rcases mem_walk.1 hl with rfl | ⟨c, hc, hlc⟩
      · exact absurd rfl hid
      · have hic := ids_subset hlc id hi
        have hne : n.id ≠ id := fun he => id_not_mem_child h hc (he ▸ hic)
        rw [modify_eq, if_neg hne, modify_eq, if_neg hid]
        congr 1
        refine List.map_congr_left fun b hb => ?_
        by_cases hb' : id ∈ b.ids
        · obtain rfl := child_eq_of_mem_ids h hb hc hb' hic
          exact ih b hb (nodup_of_child h hb) hlc
        · rw [modify_of_not_mem hb', modify_of_not_mem]
          intro hlb
          obtain rfl := child_eq_of_mem_ids h hb hc hlb (id_mem_ids hlc)
          exact hb' hic

/-! ### The way up -/

/-- A node of a tree, and those above it, the nearest first. -/
inductive Path (root : Node) : List Node → Node → Prop
  | root : Path root [] root
  | child {above : List Node} {n c : Node} (h : Path root above n) (hc : c ∈ n.children) :
    Path root (n :: above) c

variable {root : Node} {above : List Node}

theorem exists_path (h : m ∈ root.walk) : ∃ above, root.Path above m := by
  suffices ∀ n above, root.Path above n → m ∈ n.walk → ∃ above, root.Path above m from
    this root [] .root h
  intro n
  induction n using induct with
  | step n ih =>
    intro above hp hm
    rcases mem_walk.1 hm with rfl | ⟨c, hc, hm⟩
    · exact ⟨above, hp⟩
    · exact ih c hc (n :: above) (.child hp hc) hm

theorem Path.mem_walk (h : root.Path above n) : n ∈ root.walk := by
  induction h with
  | root => exact root.self_mem_walk
  | child _ hc ih => exact mem_walk_trans (child_mem_walk hc) ih

/-- The root is the last node on the way up. -/
theorem Path.root_mem (h : root.Path above n) : root ∈ n :: above := by
  induction h with
  | root => exact List.mem_cons_self
  | child _ _ ih => exact List.mem_cons_of_mem _ ih

/-- A node stands strictly below each one above it. -/
theorem Path.exists_child (h : root.Path above n) (hm : m ∈ above) :
    ∃ b ∈ m.children, n ∈ b.walk := by
  induction h with
  | root => cases hm
  | @child _ _ c _ hc ih =>
    rcases List.mem_cons.1 hm with rfl | hm
    · exact ⟨c, hc, c.self_mem_walk⟩
    · obtain ⟨b, hb, hn⟩ := ih hm
      exact ⟨b, hb, mem_walk_trans (child_mem_walk hc) hn⟩

theorem Path.mem_walk_above (h : root.Path above n) (hm : m ∈ above) : n ∈ m.walk :=
  let ⟨_, hb, hn⟩ := h.exists_child hm
  mem_walk_of_child hb hn

theorem Path.split {before after : List Node} (h : root.Path (before ++ m :: after) n) :
    root.Path after m := by
  generalize hs : before ++ m :: after = above at h
  induction h generalizing before with
  | root => simp at hs
  | child hp _ ih =>
    cases before with
    | nil =>
      cases hs
      exact hp
    | cons b before =>
      cases hs
      exact ih rfl

theorem Path.above_mem_walk (h : root.Path above n) (hm : m ∈ above) : m ∈ root.walk := by
  obtain ⟨before, after, rfl⟩ := List.append_of_mem hm
  exact h.split.mem_walk

/-- No two nodes on the way up have the same name. -/
theorem Path.nodup (h : root.Path above n) (hd : root.ids.Nodup) :
    ((n :: above).map (·.id)).Nodup := by
  induction h with
  | root => exact List.nodup_singleton _
  | child hp hc ih =>
    have h := Path.child hp hc
    rw [List.map_cons, List.nodup_cons]
    refine ⟨fun hi => ?_, ih⟩
    obtain ⟨l, hl, he⟩ := List.mem_map.1 hi
    obtain ⟨b, hb, hn⟩ := h.exists_child hl
    exact id_not_mem_child (nodup_of_mem hd (h.above_mem_walk hl)) hb (he ▸ id_mem_ids hn)

theorem Path.id_ne (h : root.Path above n) (hd : root.ids.Nodup) (hm : m ∈ above) :
    m.id ≠ n.id := by
  have hnodup := h.nodup hd
  rw [List.map_cons, List.nodup_cons] at hnodup
  exact fun he => hnodup.1 (he ▸ List.mem_map_of_mem hm)

end JsxLint.Node
