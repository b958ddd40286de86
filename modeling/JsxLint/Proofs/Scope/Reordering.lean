import JsxLint.Proofs.Scope.Resolution

/-!
# The order of statements

What an identifier stands for does not depend on the order of the statements around it: a name may
be used above its declaration or below it. The scope and the name of the binding that an identifier
belongs to are those of its own declaration, or come from the nearest scope in which the name is
declared anywhere.

* `ScopeTable.target?`: the scope and the name of the binding of an identifier;
* `ScopeTable.Resolved.target?_congr`: what it depends on;
* `Arrangement`, `Node.arranged`: the statements of a tree in another order;
* `ScopeTable.resolve_arranged`: the table of a tree in another order.
-/

namespace JsxLint

namespace ScopeTable

variable {t t' : ScopeTable} {ds ds' : List Declaration} {us us' : List Use} {s : ScopeId}
  {b : BindingId} {i : NodeId}

/-! ### What an identifier stands for -/

/-- The scope, by the node that opens it, and the name of the binding that an identifier belongs
to. -/
def target? (t : ScopeTable) (identifier : NodeId) : Option (NodeId × String) :=
  (t.bindingOf? identifier).bind fun b => t.bindings[b]?.bind fun B =>
    (t.nodeOf? B.scope).map fun node => (node, B.name)

/-- The nearest of some scopes in which a name is declared. -/
def visible? (ds : List Declaration) (around : List Region) (name : String) :
    Option (NodeId × String) :=
  around.findSome? fun r => (firstDeclaration ds r.node name).map fun _ => (r.node, name)

theorem firstDeclaration_isSome_iff {scope : NodeId} {name : String} :
    (firstDeclaration ds scope name).isSome ↔ ∃ d ∈ ds, d.scope = scope ∧ d.name = name := by
  constructor
  · intro h
    obtain ⟨i, hi⟩ := Option.isSome_iff_exists.1 h
    obtain ⟨d, hd, hs, hn, -⟩ := exists_of_firstDeclaration hi
    exact ⟨d, hd, hs, hn⟩
  · rintro ⟨d, hd, rfl, rfl⟩
    exact firstDeclaration_isSome hd

theorem visible?_congr (hd : ∀ d, d ∈ ds' ↔ d ∈ ds) (around : List Region) (name : String) :
    visible? ds' around name = visible? ds around name := by
  refine congrArg (List.findSome? · around) (funext fun r => ?_)
  have hiff : (firstDeclaration ds' r.node name).isSome = (firstDeclaration ds r.node name).isSome := by
    rw [Bool.eq_iff_iff, firstDeclaration_isSome_iff, firstDeclaration_isSome_iff]
    simp only [hd]
  cases h' : firstDeclaration ds' r.node name <;> cases h : firstDeclaration ds r.node name <;>
    first | rfl | (rw [h', h] at hiff; cases hiff)

/-- A declared name stands for itself in its scope. -/
theorem Lists.target?_of_mem (h : t.Lists ds) {d : Declaration} (hd : d ∈ ds) :
    t.target? d.identifier = some (d.scope, d.name) := by
  obtain ⟨b, B, hb, hB, hn, hx⟩ := h.complete d hd
  rw [target?, bindingOf?_of_declared hb, Option.bind_some, hB, Option.bind_some, hn, hx]
  rfl

/-- The binding of a name that a scope sees is the one in the nearest scope that has the name. -/
theorem Lists.target?_of_lookup? (h : t.Lists ds) {c : List Region} (ha : t.Around s c) {x : String}
    (hi : t.bindingOf? i = t.lookup? s x) : t.target? i = visible? ds c x := by
  have hchain := ha.chain
  rw [target?, hi, lookup?, visible?]
  generalize t.chain s = ss at hchain
  clear ha hi
  induction hchain with
  | nil => rfl
  | @cons s r ss c hr _ ih =>
    have hnode : t.nodeOf? s = some r.node := by rw [nodeOf?, hr]; rfl
    have hfirst := h.bound?_bind hnode x
    rw [List.findSome?_cons, List.findSome?_cons]
    cases hb : t.bound? s x with
    | none =>
      rw [← hfirst, hb]
      exact ih
    | some b =>
      obtain ⟨B, hB, rfl, rfl⟩ := (h.bound_iff s x b).1 hb
      rw [← hfirst, hb]
      simp [hB, hnode, declarationAt?]

theorem Resolved.target?_of_use (h : t.Resolved ds us) {u : Use} (hu : u ∈ us)
    (hd : t.declared.lookup u.identifier = none) :
    t.target? u.identifier = visible? ds u.around u.name :=
  let ⟨_, hr⟩ := h.knows u hu hd
  h.lists.target?_of_lookup? hr.around hr.binding

theorem Lists.declared_iff (h : t.Lists ds) (i : NodeId) :
    (t.declared.lookup i).isSome ↔ ∃ d ∈ ds, d.identifier = i := by
  refine ⟨h.declared i, ?_⟩
  rintro ⟨d, hd, rfl⟩
  obtain ⟨b, -, hb, -⟩ := h.complete d hd
  rw [hb]
  rfl

/-- An identifier is unresolved when it is used, declares nothing and no scope around it has the
name. -/
theorem Resolved.mem_unresolved_iff (h : t.Resolved ds us) : i ∈ t.unresolved ↔
    (∀ d ∈ ds, d.identifier ≠ i) ∧ (∃ u ∈ us, u.identifier = i) ∧ t.target? i = none := by
  have htarget : t.bindingOf? i = none → t.target? i = none := fun hb => by
    rw [target?, hb, Option.bind_none]
  constructor
  · intro hi
    have hb := h.lists.unresolved i hi
    have hd : t.declared.lookup i = none := (Option.or_eq_none_iff.1 hb).1
    refine ⟨fun d hdm he => ?_, ?_, htarget hb⟩
    · have := (h.lists.declared_iff i).2 ⟨d, hdm, he⟩
      rw [hd] at this
      cases this
    · by_contra hno
      exact (h.unused i hd fun u hu he => hno ⟨u, hu, he⟩).2.2 hi
  · rintro ⟨hds, ⟨u, hu, rfl⟩, ht⟩
    have hd : t.declared.lookup u.identifier = none := by
      rw [← Option.not_isSome_iff_eq_none, h.lists.declared_iff]
      rintro ⟨d, hdm, he⟩
      exact hds d hdm he
    obtain ⟨s, hr⟩ := h.knows u hu hd
    refine (hr.unresolved ?_).2
    -- a binding that an identifier belongs to has a scope
    cases hb : t.bindingOf? u.identifier with
    | none => rfl
    | some b =>
      obtain ⟨B, hB⟩ := h.lists.exists_binding hb
      obtain ⟨n, hn, -⟩ := h.lists.first b B hB
      rw [target?, hb, Option.bind_some, hB, Option.bind_some, hn] at ht
      cases ht

/-- What an identifier stands for depends on what is declared and used, in whatever order. -/
theorem Resolved.target?_congr (h : t.Resolved ds us) (h' : t'.Resolved ds' us')
    (hd : ∀ d, d ∈ ds' ↔ d ∈ ds) (hu : ∀ u, u ∈ us' ↔ u ∈ us) (i : NodeId) :
    t'.target? i = t.target? i := by
  by_cases hdecl : ∃ d ∈ ds, d.identifier = i
  · obtain ⟨d, hm, rfl⟩ := hdecl
    rw [h.lists.target?_of_mem hm, h'.lists.target?_of_mem ((hd d).2 hm)]
  · have hnone : t.declared.lookup i = none := by
      rwa [← Option.not_isSome_iff_eq_none, h.lists.declared_iff]
    have hnone' : t'.declared.lookup i = none := by
      rw [← Option.not_isSome_iff_eq_none, h'.lists.declared_iff]
      rintro ⟨d, hm, he⟩
      exact hdecl ⟨d, (hd d).1 hm, he⟩
    by_cases huse : ∃ u ∈ us, u.identifier = i
    · obtain ⟨u, hm, rfl⟩ := huse
      rw [h.target?_of_use hm hnone, h'.target?_of_use ((hu u).2 hm) hnone', visible?_congr hd]
    · have hb := (h.unused i hnone fun u hm he => huse ⟨u, hm, he⟩).1
      have hb' := (h'.unused i hnone' fun u hm he => huse ⟨u, (hu u).1 hm, he⟩).1
      rw [target?, target?, hb, hb', Option.bind_none, Option.bind_none]

theorem Resolved.unresolved_congr (h : t.Resolved ds us) (h' : t'.Resolved ds' us')
    (hd : ∀ d, d ∈ ds' ↔ d ∈ ds) (hu : ∀ u, u ∈ us' ↔ u ∈ us) (i : NodeId) :
    i ∈ t'.unresolved ↔ i ∈ t.unresolved := by
  rw [h'.mem_unresolved_iff, h.mem_unresolved_iff, h.target?_congr h' hd hu]
  simp only [hd, hu]

end ScopeTable

/-! ### Statements in another order -/

/-- An order for the statements of each block, which goes by its node. -/
structure Arrangement where
  order : NodeId → List Node → List Node
  perm : ∀ block statements, (order block statements).Perm statements

/-- Whether the children of a node are statements. -/
def Label.isSequence : Label → Bool
  | .program | .block => true
  | _ => false

namespace Node

variable {a : Arrangement} {f : Bool} {c : List Region} {k m n root : Node}

mutual

/-- A tree with the statements of its blocks in another order. -/
def arranged (a : Arrangement) : Node → Node
  | ⟨id, parent, place, label, children⟩ =>
    ⟨id, parent, place, label,
      if label.isSequence then a.order id (arrangedAll a children) else arrangedAll a children⟩

/-- `arranged` on several trees. -/
def arrangedAll (a : Arrangement) : List Node → List Node
  | [] => []
  | n :: ns => n.arranged a :: arrangedAll a ns

end

theorem arrangedAll_eq (ns : List Node) : arrangedAll a ns = ns.map (arranged a) := by
  induction ns with
  | nil => rfl
  | cons n ns ih => rw [arrangedAll, ih, List.map_cons]

theorem arranged_eq (n : Node) : n.arranged a =
    { n with
      children := if n.label.isSequence then a.order n.id (n.children.map (arranged a))
        else n.children.map (arranged a) } := by
  rw [← arrangedAll_eq]
  cases n
  rw [arranged]

theorem arranged_of_not_sequence (h : n.label.isSequence = false) :
    n.arranged a = n.mapChildren (arranged a) := by
  rw [arranged_eq, h, mapChildren]
  rfl

theorem arranged_label (n : Node) : (n.arranged a).label = n.label := by
  rw [arranged_eq]

theorem arranged_entry (n : Node) : (n.arranged a).entry = n.entry := by
  rw [arranged_eq]
  rfl

theorem arranged_children_perm (n : Node) :
    (n.arranged a).children.Perm (n.children.map (arranged a)) := by
  rw [arranged_eq]
  dsimp only
  split_ifs
  · exact a.perm _ _
  · exact .refl _

theorem mem_arranged_children : k ∈ (n.arranged a).children ↔ ∃ b ∈ n.children, b.arranged a = k := by
  rw [(arranged_children_perm n).mem_iff, List.mem_map]

/-- The nodes of a tree in another order. -/
theorem mem_walk_arranged : m ∈ (n.arranged a).walk ↔ ∃ k ∈ n.walk, k.arranged a = m := by
  induction n using induct with
  | step n ih =>
    rw [mem_walk]
    constructor
    · rintro (rfl | ⟨k, hk, hm⟩)
      · exact ⟨n, n.self_mem_walk, rfl⟩
      · obtain ⟨b, hb, rfl⟩ := mem_arranged_children.1 hk
        obtain ⟨l, hl, he⟩ := (ih b hb).1 hm
        exact ⟨l, mem_walk_of_child hb hl, he⟩
    · rintro ⟨k, hk, rfl⟩
      rcases mem_walk.1 hk with rfl | ⟨b, hb, hk⟩
      · exact .inl rfl
      · exact .inr ⟨b.arranged a, mem_arranged_children.2 ⟨b, hb, rfl⟩, (ih b hb).2 ⟨k, hk, rfl⟩⟩

theorem arranged_ids_perm (n : Node) : (n.arranged a).ids.Perm n.ids := by
  induction n using induct with
  | step n ih =>
    have hid : (n.arranged a).id = n.id := congrArg Prod.fst n.arranged_entry
    rw [ids_eq, ids_eq, hid]
    refine ((arranged_children_perm n).flatMap_right ids |>.trans ?_).cons _
    rw [List.flatMap_map]
    exact List.Perm.flatMap_left _ ih

/-! ### What is declared and used in another order -/

theorem arranged_bound (n : Node) :
    (n.arranged a).patternNames.map entry = n.patternNames.map entry := by
  induction n using induct with
  | step n ih =>
    cases hl : n.label.isSequence with
    | true =>
      obtain ⟨id, parent, place, label, children⟩ := n
      rw [patternNames_eq, patternNames_eq, arranged_label]
      cases label <;> first | rfl | cases hl
    | false =>
      have h := patternNames_mapChildren (g := fun _ x => x) (n := n) (h := arranged a)
        (fun c hc => (ih c hc).trans (names_map_self _).symm) rfl
      rw [arranged_of_not_sequence hl, h, names_map_self]

theorem arranged_shows (n : Node) : Shows (fun _ x => x) n (n.arranged a) := by
  have hnames := names_map_self
  refine ⟨n.arranged_entry, by rw [arranged_label], by rw [hnames, arranged_bound], ?_⟩
  cases hl : n.label.isSequence with
  | true =>
    have hnone : ∀ m : Node, m.label.isSequence → m.declarator? = none := by
      intro m hm
      obtain ⟨id, parent, place, label, children⟩ := m
      cases label <;> first | rfl | cases hm
    rw [hnone n hl, hnone (n.arranged a) (by rw [arranged_label]; exact hl)]
    rfl
  | false =>
    rw [arranged_of_not_sequence hl, declarator?_mapChildren, hnames]
    cases n.declarator? with
    | none => rfl
    | some d =>
      simp only [Option.map_some, Option.toList_some, List.flatMap_singleton]
      exact arranged_bound d.1

theorem isSequence_of_function {parts : FunctionParts} (h : n.function? = some parts) :
    n.label.isSequence = false := by
  obtain ⟨id, parent, place, label, children⟩ := n
  cases label <;> first | rfl | cases h

theorem arranged_lists (h : n.ListsParameters) : (n.arranged a).ListsParameters := by
  intro parts hf
  cases hl : n.label.isSequence with
  | true =>
    have := isSequence_of_function hf
    rw [arranged_label, hl] at this
    cases this
  | false =>
    rw [arranged_of_not_sequence hl, function?_mapChildren] at hf
    obtain ⟨parts, hp, rfl⟩ := Option.map_eq_some_iff.1 hf
    exact (congrArg Label.form (arranged_label parts.parameters)).trans (h parts hp)

/-- A node declares the same when statements below it are in another order. -/
theorem arranged_declares (h : n.ListsParameters) : (n.arranged a).declares c = n.declares c := by
  cases hl : n.label.isSequence with
  | true =>
    obtain ⟨id, parent, place, label, children⟩ := n
    rw [declares.eq_def, declares.eq_def, arranged_label]
    cases label <;> first | rfl | cases hl
  | false =>
    rw [arranged_of_not_sequence hl, declares_of_shows (g := fun _ x => x)
      (fun k _ => k.arranged_shows), declarations_map_self]
    intro parts hf
    have hp : parts.parameters.label.isSequence = false := by
      have hform := h parts hf
      cases hpl : parts.parameters.label <;> first | rfl | exact absurd (hpl ▸ hform) (by decide)
    rw [arranged_of_not_sequence hp]
    exact entries_flatMap fun k _ => k.arranged_shows.bound

theorem arranged_region? (n : Node) : (n.arranged a).region? f = n.region? f := by
  rw [arranged_eq]
  rfl

theorem arranged_inner (n : Node) : (n.arranged a).inner f c = n.inner f c := by
  rw [inner, inner, arranged_region?]

theorem mem_arranged_declarations (h : ∀ m ∈ n.walk, m.ListsParameters) (d : Declaration) :
    d ∈ (n.arranged a).declarations f c ↔ d ∈ n.declarations f c := by
  induction n using induct generalizing f c with
  | step n ih =>
    rw [declarations_eq, declarations_eq, arranged_declares (h n n.self_mem_walk), arranged_label,
      arranged_inner, List.mem_append, List.mem_append]
    refine or_congr_right ?_
    rw [((arranged_children_perm n).flatMap_right _).mem_iff, List.flatMap_map]
    simp only [List.mem_flatMap]
    exact exists_congr fun k => and_congr_right fun hk =>
      ih k hk fun m hm => h m (mem_walk_of_child hk hm)

theorem arranged_use? (n : Node) : (n.arranged a).use? c = n.use? c := by
  rw [arranged_eq]
  rfl

theorem mem_arranged_uses (u : Use) : u ∈ (n.arranged a).uses f c ↔ u ∈ n.uses f c := by
  induction n using induct generalizing f c with
  | step n ih =>
    rw [uses_eq, uses_eq, arranged_use?, arranged_label, arranged_inner, List.mem_append,
      List.mem_append]
    refine or_congr_right ?_
    rw [((arranged_children_perm n).flatMap_right _).mem_iff, List.flatMap_map]
    simp only [List.mem_flatMap]
    exact exists_congr fun k => and_congr_right fun hk => ih k hk

end Node

namespace ScopeTable

open Node

variable {root : Node}

/-- The table of a tree does not depend on the order of statements. -/
theorem resolve_arranged (hd : root.ids.Nodup) (hs : ∀ n ∈ root.walk, n.ListsParameters)
    (hl : root.label = .program) (a : Arrangement) (i : NodeId) :
    (resolve (root.arranged a)).target? i = (resolve root).target? i ∧
      (i ∈ (resolve (root.arranged a)).unresolved ↔ i ∈ (resolve root).unresolved) := by
  have hlists : ∀ n ∈ (root.arranged a).walk, n.ListsParameters := by
    intro n hn
    obtain ⟨k, hk, rfl⟩ := mem_walk_arranged.1 hn
    exact arranged_lists (hs k hk)
  have hprogram : (root.arranged a).program = root.program := by
    rw [arranged_eq]
    rfl
  have h := (resolve_resolved hd hs hl).1
  have h' := (resolve_resolved ((arranged_ids_perm root).nodup_iff.2 hd) hlists
    ((arranged_label root).trans hl)).1
  rw [hprogram] at h'
  exact ⟨h.target?_congr h' (mem_arranged_declarations hs) mem_arranged_uses i,
    h.unresolved_congr h' (mem_arranged_declarations hs) mem_arranged_uses i⟩

end ScopeTable
end JsxLint
