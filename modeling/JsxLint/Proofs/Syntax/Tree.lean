import Mathlib.Data.List.Forall2
import JsxLint.Syntax.Printer

/-!
# Syntax trees as trees

The walks over a syntax tree in terms of its children, and induction over a tree.

* `Node.induct`: what holds of a node when it holds of its children holds of all nodes;
* `Node.walk_eq`, `Node.mem_walk`: the list of nodes;
* `Node.number_fst`, `Node.link_eq`: names and parents for a tree that was just built;
* `Node.unwrapped_eq`, `Node.returnsWithin_eq`: expressions and returns;
* `Node.modify_eq`, `Node.print_eq`: edits and printing.
-/

namespace JsxLint.Node

/-- What holds of a node when it holds of its children holds of all nodes. -/
theorem induct {P : Node → Prop} (step : ∀ n : Node, (∀ c ∈ n.children, P c) → P n) :
    ∀ n, P n
  | ⟨id, parent, place, label, children⟩ =>
    step ⟨id, parent, place, label, children⟩ fun c _ => induct step c
termination_by n => sizeOf n
decreasing_by
  have := List.sizeOf_lt_of_mem ‹c ∈ _›
  simp_all only [Node.mk.sizeOf_spec]
  omega

/-! ### The list of nodes -/

theorem walkAll_eq (ns : List Node) : walkAll ns = ns.flatMap walk := by
  induction ns with
  | nil => rfl
  | cons n ns ih => rw [walkAll, ih, List.flatMap_cons]

theorem walk_eq (n : Node) : n.walk = n :: n.children.flatMap walk := by
  rw [← walkAll_eq]
  cases n
  rw [walk]

theorem mem_walk {m n : Node} : m ∈ n.walk ↔ m = n ∨ ∃ c ∈ n.children, m ∈ c.walk := by
  rw [walk_eq, List.mem_cons, List.mem_flatMap]

theorem self_mem_walk (n : Node) : n ∈ n.walk :=
  mem_walk.2 (.inl rfl)

theorem mem_walk_of_child {m c n : Node} (hc : c ∈ n.children) (hm : m ∈ c.walk) : m ∈ n.walk :=
  mem_walk.2 (.inr ⟨c, hc, hm⟩)

theorem mem_walk_trans {l m n : Node} (hl : l ∈ m.walk) (hm : m ∈ n.walk) : l ∈ n.walk := by
  induction n using induct with
  | step n ih =>
    rcases mem_walk.1 hm with rfl | ⟨c, hc, hm⟩
    · exact hl
    · exact mem_walk_of_child hc (ih c hc hm)

theorem child_mem_walk {c n : Node} (hc : c ∈ n.children) : c ∈ n.walk :=
  mem_walk_of_child hc c.self_mem_walk

/-! ### Names and parents -/

theorem number_fst (n : Node) (next : NodeId) :
    (n.number next).1 = { n with id := next, children := (numberAll (next + 1) n.children).1 } := by
  cases n
  rw [number]

theorem numberAll_fst_forall₂ {α : Type} {R : α → Node → Prop} {l : List α} {ns : List Node}
    (h : List.Forall₂ (fun a n => ∀ next, R a (n.number next).1) l ns) (next : NodeId) :
    List.Forall₂ R l (numberAll next ns).1 := by
  induction h generalizing next with
  | nil => exact .nil
  | cons h1 _ ih => exact .cons (h1 next) (ih _)

theorem linkAll_eq (parent : NodeId) (ns : List Node) :
    linkAll parent ns = ns.map (link (some parent)) := by
  induction ns with
  | nil => rfl
  | cons n ns ih => rw [linkAll, ih, List.map_cons]

theorem link_eq (parent : Option NodeId) (n : Node) :
    n.link parent = { n with parent, children := n.children.map (link (some n.id)) } := by
  rw [← linkAll_eq]
  cases n
  rw [link]

/-! ### Expressions and returns -/

theorem unwrapped_eq (n : Node) : n.unwrapped =
    if n.label = .parenthesized then (n.children.head?.map unwrapped).getD n else n := by
  obtain ⟨id, parent, place, label, children⟩ := n
  rw [unwrapped]
  split_ifs
  · cases children <;> rfl
  · rfl

theorem returnsWithinAll_eq (ns : List Node) : returnsWithinAll ns = ns.flatMap returnsWithin := by
  induction ns with
  | nil => rfl
  | cons n ns ih => rw [returnsWithinAll, ih, List.flatMap_cons]

theorem returnsWithin_eq (n : Node) : n.returnsWithin =
    if n.label.isFunction then []
    else if n.label = .returnStatement then n :: n.children.flatMap returnsWithin
    else n.children.flatMap returnsWithin := by
  rw [← returnsWithinAll_eq]
  cases n
  rw [returnsWithin]

theorem mem_walk_of_returnsWithin {m n : Node} (h : m ∈ n.returnsWithin) :
    m ∈ n.walk ∧ m.label = .returnStatement := by
  induction n using induct with
  | step n ih =>
    rw [returnsWithin_eq] at h
    split_ifs at h with hf hl
    · cases h
    · rcases List.mem_cons.1 h with rfl | h
      · exact ⟨self_mem_walk _, hl⟩
      · obtain ⟨c, hc, h⟩ := List.mem_flatMap.1 h
        exact (ih c hc h).imp_left (mem_walk_of_child hc)
    · obtain ⟨c, hc, h⟩ := List.mem_flatMap.1 h
      exact (ih c hc h).imp_left (mem_walk_of_child hc)

/-! ### Edits and printing -/

theorem modifyAll_eq (id : NodeId) (edit : Node → Node) (ns : List Node) :
    modifyAll id edit ns = ns.map (modify id edit) := by
  induction ns with
  | nil => rfl
  | cons n ns ih => rw [modifyAll, ih, List.map_cons]

theorem modify_eq (id : NodeId) (edit : Node → Node) (n : Node) :
    n.modify id edit =
      if n.id = id then edit n else { n with children := n.children.map (modify id edit) } := by
  rw [← modifyAll_eq]
  cases n
  rw [modify]

end JsxLint.Node

namespace JsxLint

theorem exists_of_forall₂ {α β : Type} {R : α → β → Prop} {l : List α} {m : List β}
    (h : List.Forall₂ R l m) {b : β} (hb : b ∈ m) : ∃ a ∈ l, R a b := by
  induction h with
  | nil => cases hb
  | @cons a b' l m h1 _ ih =>
    rcases List.mem_cons.1 hb with rfl | hb
    · exact ⟨a, List.mem_cons_self, h1⟩
    · obtain ⟨a', ha, h2⟩ := ih hb
      exact ⟨a', List.mem_cons_of_mem a ha, h2⟩

theorem printAll_eq (source : Bytes) (ns : List Node) :
    printAll source ns = ns.map fun n => (n, n.print source) := by
  induction ns with
  | nil => rfl
  | cons n ns ih => rw [printAll, ih, List.map_cons]

theorem Node.print_eq (source : Bytes) (n : Node) :
    n.print source = Printer.assemble source n (n.children.map fun c => (c, c.print source)) := by
  rw [← printAll_eq]
  cases n
  rw [Node.print]

end JsxLint
