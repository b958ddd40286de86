import JsxLint.Proofs.Workspace.Sound

/-!
# Edits of one node

Repairs edit the tree one node at a time. When the edited node declares and opens what it did
before, and uses no name that it did not, a sound workspace stays sound with the same table.

* `Node.Succeeds`: nodes that come from those below another one;
* `Node.Seen`: what the table sees of a node stays;
* `Node.Silent`, `Node.Seen.of_quiet`: markup around parts that the table sees nothing of;
* `Workspace.Sound.modify`: an edit of a node of which the table sees the same.
-/

namespace JsxLint

open Node

/-- Labels of markup and of lists, which neither declare nor open nor bind anything. -/
def Label.isQuiet : Label → Bool
  | .markupAttribute | .openingTag _ | .element .. | .fragment _ | .parameters _ => true
  | _ => false

namespace Node

variable {id : NodeId} {edit : Node → Node} {n n' root : Node}

/-- Whether the older nodes of a tree come from nodes of another one of the same form. -/
def Succeeds (fresh : NodeId) (n n' : Node) : Prop :=
  ∀ m' ∈ n'.walk, m'.id < fresh → ∃ m ∈ n.walk, m.id = m'.id ∧
    m'.label.form = m.label.form ∧ (m.isEmptyContainer → m'.isEmptyContainer)

/-- Whether the table sees the same of an edited node: what it declares and opens, and nothing new
among the uses. -/
structure Seen (fresh : NodeId) (n n' : Node) : Prop where
  view : n'.view = n.view
  declarations : ∀ f c, n'.declarations f c = n.declarations f c
  regions : ∀ f c, n'.regions f c = n.regions f c
  uses : ∀ f c, ∀ u ∈ n'.uses f c, fresh ≤ u.identifier ∨ u ∈ n.uses f c
  succeeds : Succeeds fresh n n'

theorem Succeeds.modify {fresh : NodeId} (h : ∀ m ∈ n.walk, m.id = id → Succeeds fresh m (edit m)) :
    Succeeds fresh n (n.modify id edit) := by
  intro m' hm' hlt
  rcases mem_walk_modify hm' with ⟨l, hl, hne, rfl⟩ | ⟨l, hl, hid, hm'⟩
  · rw [modify_of_ne hne]
    refine ⟨l, hl, rfl, rfl, fun he => ?_⟩
    rw [isEmptyContainer.eq_def] at he ⊢
    rw [mapChildren]
    dsimp only
    cases hl : l.label <;> rw [hl] at he <;> first
      | exact absurd he Bool.false_ne_true
      | simpa using he
  · obtain ⟨m, hm, he⟩ := h l hl hid m' hm' hlt
    exact ⟨m, mem_walk_trans hm hl, he⟩

theorem Succeeds.refl (fresh : NodeId) (n : Node) : Succeeds fresh n n :=
  fun m hm _ => ⟨m, hm, rfl, rfl, fun he => he⟩

/-- Another label of the same form, unless it is that of braces. -/
theorem Succeeds.setLabel {fresh : NodeId} {label : Label} (hform : label.form = n.label.form)
    (hc : ¬n.isEmptyContainer) : Succeeds fresh n { n with label := label } := by
  intro m hm _
  rcases mem_walk.1 hm with rfl | ⟨k, hk, hm⟩
  · exact ⟨n, n.self_mem_walk, rfl, hform, fun he => absurd he hc⟩
  · exact ⟨m, mem_walk_of_child (n := n) hk hm, rfl, rfl, fun he => he⟩

/-- The table sees the same of a tree when it does of the edited node. -/
theorem Seen.modify {fresh : NodeId} (h : ∀ m ∈ n.walk, m.id = id → Seen fresh m (edit m)) :
    Seen fresh n (n.modify id edit) := by
  obtain ⟨hview, hdeclarations⟩ := declarations_modify (g := fun _ x => x) (fun _ _ _ => rfl)
    (n := n) fun m hm he => by
      obtain ⟨hv, hd, -⟩ := h m hm he
      exact ⟨hv.trans (view_map_self _).symm, fun f c =>
        (hd f c).trans (declarations_map_self _).symm⟩
  refine ⟨hview.trans (view_map_self _), fun f c => (hdeclarations f c).trans
    (declarations_map_self _), regions_modify fun m hm he => (h m hm he).regions, fun f c u hu => ?_,
    .modify fun m hm he => (h m hm he).succeeds⟩
  have huses := uses_modify (P := fun u => fresh ≤ u.identifier) (g := fun _ x => x)
    (fun _ _ _ => rfl) (n := n) (fun m hm he f c u hu =>
      ((h m hm he).uses f c u hu).imp_right fun hu => ⟨u, hu, rfl⟩) f c u hu
  exact huses.imp_right fun ⟨v, hv, he⟩ => he ▸ hv

/-! ### Markup -/

/-- Whether the table sees nothing of what a node declares, opens or binds. -/
structure Silent (n : Node) : Prop where
  names : n.patternNames = []
  declarations : ∀ f c, n.declarations f c = []
  regions : ∀ f c, n.regions f c = []

section Quiet

variable {f : Bool} {c : List Region} (h : n.label.isQuiet)

include h

theorem quiet_view : n.view =
    ⟨(n.id, ""), false, [], (n.children.flatMap patternNames).map entry, []⟩ := by
  obtain ⟨id, parent, place, label, children⟩ := n
  cases label <;> first
    | exact absurd h Bool.false_ne_true
    | rfl

theorem quiet_declarations : n.declarations f c = n.children.flatMap (declarations false c) := by
  rw [declarations_eq]
  obtain ⟨id, parent, place, label, children⟩ := n
  cases label <;> first
    | exact absurd h Bool.false_ne_true
    | rfl

theorem quiet_regions : n.regions f c = n.children.flatMap (regions false c) := by
  rw [regions_eq]
  obtain ⟨id, parent, place, label, children⟩ := n
  cases label <;> first
    | exact absurd h Bool.false_ne_true
    | rfl

theorem quiet_uses : n.uses f c = n.children.flatMap (uses false c) := by
  rw [uses_eq]
  obtain ⟨id, parent, place, label, children⟩ := n
  cases label <;> first
    | exact absurd h Bool.false_ne_true
    | rfl

/-- The table sees the same of markup when it does of the parts. -/
theorem Seen.of_quiet {fresh : NodeId} (h' : n'.label.isQuiet) (hid : n'.id = n.id)
    (hnames : (n'.children.flatMap patternNames).map entry =
      (n.children.flatMap patternNames).map entry)
    (hdeclarations : ∀ f c, n'.children.flatMap (Node.declarations f c) =
      n.children.flatMap (Node.declarations f c))
    (hregions : ∀ f c, n'.children.flatMap (Node.regions f c) =
      n.children.flatMap (Node.regions f c))
    (huses : ∀ f c, ∀ u ∈ n'.children.flatMap (Node.uses f c),
      fresh ≤ u.identifier ∨ u ∈ n.children.flatMap (Node.uses f c))
    (hsucceeds : Succeeds fresh n n') : Seen fresh n n' where
  view := by rw [quiet_view h, quiet_view h', hid, hnames]
  declarations f c := by rw [quiet_declarations h, quiet_declarations h', hdeclarations]
  regions f c := by rw [quiet_regions h, quiet_regions h', hregions]
  uses f c u hu := by
    rw [quiet_uses h'] at hu
    rw [quiet_uses h]
    exact huses _ _ u hu
  succeeds := hsucceeds

end Quiet

/-- Idle syntax declares and opens nothing. -/
theorem Idle.nothing (h : n.Idle) (f : Bool) (c : List Region) :
    n.declarations f c = [] ∧ n.regions f c = [] := by
  induction n using induct generalizing f c with
  | step n ih =>
    have hchild : ∀ k ∈ n.children, ∀ f c, k.declarations f c = [] ∧ k.regions f c = [] :=
      fun k hk => ih k hk fun m hm => h m (mem_walk_of_child hk hm)
    have hl := h n n.self_mem_walk
    have hself : n.declares c = [] ∧ n.region? f = none := by
      rw [declares.eq_def, region?.eq_def]
      cases hlabel : n.label <;> rw [hlabel] at hl <;> first
        | exact absurd hl Bool.false_ne_true
        | exact ⟨rfl, rfl⟩
        | skip
      next kind fields detail =>
        have hk : kind ∈ tagNameKinds := List.contains_iff_mem.1 hl
        simp only [tagNameKinds, List.mem_cons, List.not_mem_nil, or_false] at hk
        rcases hk with rfl | rfl | rfl | rfl | rfl | rfl | rfl | rfl | rfl <;> exact ⟨rfl, rfl⟩
    rw [declarations_eq, regions_eq, hself.1, hself.2]
    exact ⟨List.flatMap_eq_nil_iff.2 fun k hk => (hchild k hk _ _).1,
      List.flatMap_eq_nil_iff.2 fun k hk => (hchild k hk _ _).2⟩

theorem Idle.silent (h : n.Idle) (hn : n.patternNames = []) : n.Silent :=
  ⟨hn, fun f c => (h.nothing f c).1, fun f c => (h.nothing f c).2⟩

end Node

namespace Workspace

variable {w : Workspace} {d : Document} {start : NodeId} {n : Node} {edit : Node → Node}

/-- An edit of one node is sound when the table sees the same of the tree. -/
theorem Sound.modify (h : w.Sound start) (hn : n ∈ w.document.root.walk)
    (hroot : d.root = w.document.root.modify n.id edit)
    (he : n.Edited w.document.fresh d.fresh (edit n))
    (hs : Seen w.document.fresh w.document.root d.root)
    (hdetached : ∀ t ∈ d.detached, t ∈ w.document.detached ∨
      t.Idle ∧ ∀ i ∈ t.ids, i ∈ n.ids ∧ i ∉ (edit n).ids) :
    Step start w { w with document := d } := by
  have hnode : ∀ m ∈ w.document.root.walk, m.id = n.id → m = n := fun m hm he =>
    eq_of_id_eq h.formed.root.nodup hm hn he
  have hprogram : d.root.program = w.document.root.program := by
    have hk : w.document.root.Keeps d.root := by
      rw [hroot]
      exact Keeps.modify fun hid => hnode _ (self_mem_walk _) hid ▸ he.keeps
    rw [program, program, hk.id]
  have hf : w.document.Follows d := ⟨he.fresh, hs.succeeds⟩
  refine ⟨h.edit (h.formed.modify hn hroot he hdetached) hf ?_ ?_ fun u hu => ?_, hf,
    fun i _ => rfl⟩
  · rw [Document.declarations, hprogram, hs.declarations]
    rfl
  · rw [Document.regions, hprogram, hs.regions]
    rfl
  · rw [Document.uses, hprogram] at hu
    exact hs.uses _ _ u hu

/-- The table sees the same of a tree when it does of one of its nodes. -/
theorem Sound.seen (h : w.Sound start) (hn : n ∈ w.document.root.walk)
    (hs : n.Seen w.document.fresh (edit n)) :
    Seen w.document.fresh w.document.root (w.document.root.modify n.id edit) :=
  .modify fun m hm he => by
    obtain rfl := eq_of_id_eq h.formed.root.nodup hm hn he
    exact hs

end Workspace
end JsxLint
