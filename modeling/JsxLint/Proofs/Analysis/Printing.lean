import JsxLint.Proofs.Analysis.Bindings
import JsxLint.Proofs.Printing.Printable

/-!
# Printing after all rounds

Whatever the repairs do to a document that was read, it can be printed: what they make stands where
there is a place for it, and what they remove is noted as whole spans. This needs neither scopes
nor the ways up in the tree, only that a name always stands for nodes of one kind.

* `Document.Grows`: documents that stay printable while they get new nodes;
* `Document.Printable.rename`, `removeChild?`, `collapse`, `addParameter`, `insertAttribute`: edits;
* `Rule.repair_grows`: every repair keeps documents printable;
* `Engine.rounds_printText`: after all rounds the document prints a text.
-/

namespace JsxLint

open Node

/-! ### Nodes -/

namespace Node

variable {text : String} {forms : NodeId → String} {fresh : NodeId} {f : Node → Node} {n c : Node}

theorem isMade_of_place {m : Node} (h : m.place = n.place) : m.isMade = n.isMade := by
  rw [isMade, isMade, h]

/-- More names in use do not hurt a node. -/
theorem Ready.mono {forms' : NodeId → String} {fresh' : NodeId} (h : n.Ready text forms fresh)
    (hforms : ∀ i < fresh, forms' i = forms i) (hfresh : fresh ≤ fresh') :
    n.Ready text forms' fresh' where
  printable := h.printable
  form := by rw [h.form, hforms _ h.fresh]
  fresh := Nat.lt_of_lt_of_le h.fresh hfresh
  parameters := h.parameters
  opening := h.opening

/-- Printing needs the same of a node when its children change but stay of their kind. -/
theorem Ready.mapChildren (h : n.Ready text forms fresh)
    (hf : ∀ c ∈ n.children, (f c).label.form = c.label.form ∧ (f c).place = c.place) :
    (n.mapChildren f).Ready text forms fresh where
  printable := by
    refine ⟨h.printable.syntactic, h.printable.whole, h.printable.removed, h.printable.makable,
      fun i c hc hm => ?_, fun hform hnil => ?_⟩
    · rw [Node.mapChildren, List.getElem?_map, Option.map_eq_some_iff] at hc
      obtain ⟨b, hb, rfl⟩ := hc
      rw [isMade_of_place (hf b (List.mem_of_getElem? hb)).2] at hm
      exact h.printable.placed i b hb hm
    · rw [Node.mapChildren, List.map_eq_nil_iff] at hnil
      exact h.printable.tagged hform hnil
  form := h.form
  fresh := h.fresh
  parameters parts hp := by
    rw [function?_mapChildren, Option.map_eq_some_iff] at hp
    obtain ⟨old, ho, rfl⟩ := hp
    have hmem : old.parameters ∈ n.children := by simp [children_eq_of_function? ho]
    exact (hf _ hmem).1.trans (h.parameters old ho)
  opening parts hp := by
    rw [element?_mapChildren, Option.map_eq_some_iff] at hp
    obtain ⟨old, ho, rfl⟩ := hp
    have hmem : old.opening ∈ n.children := by simp [children_eq_of_element? ho]
    exact (hf _ hmem).1.trans (h.opening old ho)

/-- Another label of the same form, for nodes that are neither functions nor elements. -/
theorem Ready.relabel {label : Label} (h : n.Ready text forms fresh)
    (hform : label.form = n.label.form) (hremoved : label.removed = [])
    (hparts : label.isFunction = false ∧ label.isMarkup = false) :
    { n with label := label : Node }.Ready text forms fresh where
  printable := by
    have hbare : label ≠ .bare := by
      rintro rfl
      have hs := h.printable.syntactic
      cases hl : n.label <;> rw [hl] at hform hs <;> simp [Label.form] at hform hs
    refine ⟨hbare, h.printable.whole, fun span hs => ?_, fun hm => ?_, fun i c hc hm => ?_,
      fun ho => h.printable.tagged (hform ▸ ho)⟩
    · rw [hremoved] at hs
      cases hs
    · have hmakable := h.printable.makable hm
      cases hl : n.label <;> cases label <;>
        simp_all [Label.form, Label.isMakable]
    · have hplaced := h.printable.placed i c hc hm
      rw [← hform] at hplaced
      exact hplaced
  form := hform.trans h.form
  fresh := h.fresh
  parameters parts hp := by
    rw [function?.eq_def] at hp
    split at hp <;> simp_all [Label.isFunction]
  opening parts hp := by
    rw [element?.eq_def] at hp
    split at hp <;> simp_all [Label.isMarkup]

theorem Ready.rename (h : n.Ready text forms fresh) (name : String) :
    { n with label := n.label.rename name : Node }.Ready text forms fresh := by
  by_cases hn : n.label.name?.isSome
  · cases hl : n.label <;> rw [hl] at hn <;> first
      | exact absurd hn Bool.false_ne_true
      | exact h.relabel (by rw [hl]; rfl) rfl ⟨rfl, rfl⟩
  · have hsame : { n with label := n.label.rename name : Node } = n := by
      obtain ⟨id, parent, place, label, children⟩ := n
      cases label <;> first
        | rfl
        | exact absurd rfl hn
    rw [hsame]
    exact h

/-- Printing needs nothing of the parent of a node. -/
theorem Ready.unlink (h : n.Ready text forms fresh) :
    { n with parent := none : Node }.Ready text forms fresh := by
  obtain ⟨⟨h1, h2, h3, h4, h5, h6⟩, h7, h8, h9, h10⟩ := h
  exact ⟨⟨h1, h2, h3, h4, h5, h6⟩, h7, h8, h9, h10⟩

/-- What was read has no made child below an element or a fragment. -/
theorem Ready.read_of_markup (h : n.Ready text forms fresh) (hl : n.label.isMarkup)
    (hc : c ∈ n.children) : c.isMade = false := by
  have hform : n.label.form ≠ "Parameters" ∧ n.label.form ≠ "JSXOpeningElement" ∧
      n.label.isMakable = false := by
    cases hn : n.label <;> rw [hn] at hl <;> first
      | exact absurd hl Bool.false_ne_true
      | exact ⟨by simp [Label.form], by simp [Label.form], rfl⟩
  have hn : n.isMade = false := by
    by_contra hm
    rw [Bool.not_eq_false] at hm
    have hmakable := h.printable.makable hm
    rw [hform.2.2] at hmakable
    cases hmakable
  exact h.printable.read_of_child hn hform.1 hform.2.1 hc

/-- Markup without one of its children is markup that has removed that child, too. -/
theorem without_eq (taken : Node) (h : n.label.isMarkup) : ∃ label,
    Rule.without taken n = { n with
      label := label, children := n.children.filter (·.id != taken.id) } ∧
    label.form = n.label.form ∧ label.isMarkup ∧
    (∀ span ∈ label.removed, span ∈ n.label.removed ∨ taken.place.span = some span) ∧
    ∀ isClosed removed, label = .element isClosed removed →
      ∃ removed', n.label = .element isClosed removed' := by
  refine ⟨_, rfl, ?_⟩
  have hnote : ∀ (spans : List Span) (span : Span), ∀ r ∈ spans ++ [span],
      r ∈ spans ∨ some span = some r := by
    intro spans span r hr
    rcases List.mem_append.1 hr with hr | hr
    · exact .inl hr
    · exact .inr (congrArg some (List.mem_singleton.1 hr).symm)
  cases hl : n.label <;> rw [hl] at h <;> first
    | exact absurd h Bool.false_ne_true
    | skip
  · cases taken.place.span with
    | none => exact ⟨rfl, rfl, fun _ h => .inl h, fun _ _ h => ⟨_, by cases h; rfl⟩⟩
    | some span => exact ⟨rfl, rfl, hnote _ span, fun _ _ h => ⟨_, by cases h; rfl⟩⟩
  · cases taken.place.span with
    | none => exact ⟨rfl, rfl, fun _ h => .inl h, fun _ _ h => by cases h⟩
    | some span => exact ⟨rfl, rfl, hnote _ span, fun _ _ h => by cases h⟩

theorem element?_opening {isClosed : Bool} {removed : List Span} {opening : Node} {rest : List Node}
    (hl : n.label = .element isClosed removed) (hc : n.children = opening :: rest) :
    ∃ parts, n.element? = some parts ∧ parts.opening = opening := by
  cases isClosed
  · exact ⟨⟨opening, rest, none⟩, by rw [element?, hl, hc], rfl⟩
  · exact ⟨⟨opening, rest.dropLast, rest.getLast?⟩, by rw [element?, hl, hc], rfl⟩

/-- Printing needs the same of markup without a child, unless that is the opening tag. -/
theorem Ready.without {taken : Node} (h : n.Ready text forms fresh) (hl : n.label.isMarkup)
    (hspan : ∀ span, taken.place.span = some span → span.Whole text)
    (hopening : ∀ parts, n.element? = some parts → parts.opening.id ≠ taken.id) :
    (Rule.without taken n).Ready text forms fresh := by
  obtain ⟨label, heq, hform, hmarkup, hremoved, helement⟩ := without_eq taken hl
  have hread : ∀ c ∈ n.children.filter (·.id != taken.id), c.isMade = false := fun c hc =>
    h.read_of_markup hl (List.mem_filter.1 hc).1
  have hself : n.label.isMakable = false ∧ label ≠ .bare ∧ label.form ≠ "JSXOpeningElement" ∧
      label.isFunction = false := by
    refine ⟨?_, ?_⟩
    · cases hn : n.label <;> rw [hn] at hl <;> first
        | rfl
        | exact absurd hl Bool.false_ne_true
    · cases label <;> first
        | exact absurd hmarkup Bool.false_ne_true
        | exact ⟨by simp, by simp [Label.form], rfl⟩
  obtain ⟨hmakable, hbare, htag, hfunction⟩ := hself
  rw [heq]
  refine ⟨⟨hbare, h.printable.whole, fun span hs => ?_, fun hm => ?_, fun i c hc hm => ?_,
    fun ho => absurd ho htag⟩, hform.trans h.form, h.fresh, fun parts hf => ?_, fun parts he => ?_⟩
  · rcases hremoved span hs with hs | hs
    · exact h.printable.removed span hs
    · exact hspan span hs
  · have hmade := h.printable.makable hm
    rw [hmakable] at hmade
    cases hmade
  · rw [hread c (List.mem_of_getElem? hc)] at hm
    cases hm
  · have hf := isFunction_of_function? hf
    rw [hfunction] at hf
    cases hf
  · -- the first child is still there
    obtain ⟨isClosed, removed, hle⟩ := Rule.label_of_element? he
    obtain ⟨removed', hln⟩ := helement isClosed removed hle
    have hc := children_eq_of_element? he
    cases hn : n.children with
    | nil => simp [hn] at hc
    | cons opening rest =>
      obtain ⟨old, ho, rfl⟩ := element?_opening hln hn
      have hid : (old.opening.id != taken.id) = true := bne_iff_ne.2 (hopening old ho)
      simp only [hn, List.filter_cons, if_pos hid, List.cons_append, List.cons.injEq] at hc
      rw [← hc.1]
      exact h.opening old ho

/-- A made child has a place among parameters and behind the name of a tag. -/
theorem Ready.insert {before after : List Node} (h : n.Ready text forms fresh)
    (hc : n.children = before ++ after) (hplace : n.label.form = "Parameters" ∨
      n.label.form = "JSXOpeningElement" ∧ before ≠ []) :
    { n with children := before ++ c :: after : Node }.Ready text forms fresh := by
  have hparts : n.label.isFunction = false ∧ n.label.isMarkup = false := by
    cases hl : n.label <;> rw [hl] at hplace <;> simp [Label.form] at hplace <;> exact ⟨rfl, rfl⟩
  refine ⟨⟨h.printable.syntactic, h.printable.whole, h.printable.removed, h.printable.makable,
    fun i k hk hm => ?_, fun _ hnil => by simp at hnil⟩, h.form, h.fresh, fun parts hf => ?_,
    fun parts he => ?_⟩
  · rcases hplace with hform | ⟨hform, hne⟩
    · exact .inr (.inl hform)
    · by_cases hi : 0 < i
      · exact .inr (.inr ⟨hform, hi⟩)
      · -- the first child is the one that was there
        obtain ⟨b, bs, rfl⟩ := List.exists_cons_of_ne_nil hne
        obtain rfl : i = 0 := by omega
        simp only [List.cons_append, List.getElem?_cons_zero, Option.some.injEq] at hk
        subst hk
        exact h.printable.placed 0 b (by simp [hc]) hm
  · have hfunction : n.label.isFunction :=
      isFunction_of_function? (n := { n with children := before ++ c :: after }) hf
    rw [hparts.1] at hfunction
    cases hfunction
  · obtain ⟨isClosed, removed, hl⟩ := Rule.label_of_element? he
    have hmarkup := hparts.2
    rw [show n.label = _ from hl] at hmarkup
    cases hmarkup

/-- Printing needs the same of an element that is closed by its opening tag. -/
theorem Ready.closed {opening : Node} (h : n.Ready text forms fresh)
    (hform : n.label.form = "JSXElement") (hread : opening.isMade = false) :
    (Rule.closed opening n).Ready text forms fresh := by
  have hmade : n.isMade = false := by
    by_contra hm
    rw [Bool.not_eq_false] at hm
    have hmakable := h.printable.makable hm
    cases hl : n.label <;> rw [hl] at hform hmakable <;>
      simp [Label.form, Label.isMakable] at hform hmakable
  refine ⟨⟨by simp [Rule.closed], h.printable.whole, h.printable.removed, fun hm => ?_,
    fun i c hc hm => ?_, fun ho => by simp [Rule.closed, Label.form] at ho⟩,
    hform.symm.trans h.form, h.fresh, fun parts hf => by simp [Rule.closed, function?] at hf,
    fun parts he => ?_⟩
  · exact absurd hm (by rw [Bool.not_eq_true]; exact hmade)
  · cases List.mem_singleton.1 (List.mem_of_getElem? hc)
    have hm : opening.isMade := hm
    rw [hread] at hm
    cases hm
  · simp only [Rule.closed, element?, Option.some.injEq] at he
    rw [← he]
    rfl

end Node

/-! ### Documents -/

namespace Document

variable {text : String} {forms forms' : NodeId → String} {d d' d'' : Document} {m n c : Node}
  {id : NodeId} {edit : Node → Node}

theorem mem_nodes_of_walk (hn : n ∈ d.nodes) (hm : m ∈ n.walk) : m ∈ d.nodes := by
  obtain ⟨t, ht, hn⟩ := List.mem_flatMap.1 hn
  exact List.mem_flatMap.2 ⟨t, ht, mem_walk_trans hm hn⟩

theorem mem_nodes_of_child (hn : n ∈ d.nodes) (hc : c ∈ n.children) : c ∈ d.nodes :=
  mem_nodes_of_walk hn (child_mem_walk hc)

/-- The nodes of an edited document. -/
theorem mem_nodes_modify {fresh : NodeId}
    (hm : m ∈ ({ d with fresh := fresh }.modify id edit).nodes) :
    (∃ l ∈ d.nodes, l.id ≠ id ∧ m = l.modify id edit) ∨
      ∃ l ∈ d.nodes, l.id = id ∧ m ∈ (edit l).walk := by
  have htree : ∃ t ∈ d.root :: d.detached, m ∈ (t.modify id edit).walk := by
    rcases mem_nodes.1 hm with hm | ⟨t, ht, hm⟩
    · exact ⟨d.root, List.mem_cons_self, hm⟩
    · obtain ⟨u, hu, rfl⟩ := List.mem_map.1 ht
      exact ⟨u, List.mem_cons_of_mem _ hu, hm⟩
  obtain ⟨t, ht, hm⟩ := htree
  rcases mem_walk_modify hm with ⟨l, hl, hne, rfl⟩ | ⟨l, hl, hid, hm⟩
  · exact .inl ⟨l, List.mem_flatMap.2 ⟨t, ht, hl⟩, hne, rfl⟩
  · exact .inr ⟨l, List.mem_flatMap.2 ⟨t, ht, hl⟩, hid, hm⟩

theorem mem_nodes_of_ancestors (h : m ∈ d.ancestors n) : m ∈ d.nodes := by
  rw [ancestors] at h
  generalize n.parent = parent at h
  generalize d.fresh = steps at h
  induction steps generalizing parent with
  | zero => cases h
  | succ steps ih =>
    cases parent with
    | none => cases h
    | some id =>
      rw [ancestorsFrom] at h
      split at h
      · next k hk =>
        rcases List.mem_cons.1 h with rfl | h
        · exact (mem_nodes_of_node? hk).1
        · exact ih _ h
      · cases h

/-- A node that was taken out, or put aside, must be one that printing could deal with. -/
theorem Printable.keep (h : d.Printable text forms)
    (hn : ∀ m ∈ n.walk, m.Ready text forms d.fresh) : (d.keep n).Printable text forms where
  bytes := h.bytes
  read := h.read
  ready m hm := by
    rcases mem_nodes.1 hm with hroot | ⟨t, ht, htree⟩
    · exact h.ready m (mem_nodes.2 (.inl hroot))
    · rcases List.mem_cons.1 ht with rfl | ht
      · exact hn m htree
      · exact h.ready m (mem_nodes.2 (.inr ⟨t, ht, htree⟩))

/-- An edit of the nodes with one name, which may bring in new names, keeps a document printable when
it keeps name, kind and place of the nodes, and printing can deal with what is below them. -/
theorem Printable.modify {fresh : NodeId} (h : d.Printable text forms)
    (hforms : ∀ i < d.fresh, forms' i = forms i) (hfresh : d.fresh ≤ fresh)
    (he : ∀ n ∈ d.nodes, n.id = id → (edit n).label.form = n.label.form ∧
      (edit n).place = n.place ∧ ∀ m ∈ (edit n).walk, m.Ready text forms' fresh) :
    ({ d with fresh := fresh }.modify id edit).Printable text forms' := by
  have hkind : ∀ n ∈ d.nodes, (n.modify id edit).label.form = n.label.form ∧
      (n.modify id edit).place = n.place := by
    intro n hn
    by_cases hid : n.id = id
    · subst hid
      rw [modify_self]
      exact ⟨(he n hn rfl).1, (he n hn rfl).2.1⟩
    · rw [modify_of_ne hid]
      exact ⟨rfl, rfl⟩
  have hroot : d.root ∈ d.nodes := mem_nodes.2 (.inl (self_mem_walk _))
  refine ⟨h.bytes, (isMade_of_place (hkind _ hroot).2).trans h.read, fun m hm => ?_⟩
  rcases mem_nodes_modify hm with ⟨l, hl, hne, rfl⟩ | ⟨l, hl, hid, hm⟩
  · rw [modify_of_ne hne]
    exact ((h.ready l hl).mapChildren fun c hc => hkind c (mem_nodes_of_child hl hc)).mono hforms
      hfresh
  · exact (he l hl hid).2.2 m hm

/-- Documents that stay printable while they get new nodes; the names in use keep their kind. -/
def Grows (text : String) (forms : NodeId → String) (d d' : Document) : Prop :=
  ∃ forms', d.fresh ≤ d'.fresh ∧ (∀ i < d.fresh, forms' i = forms i) ∧ d'.Printable text forms'

theorem Grows.refl (h : d.Printable text forms) : d.Grows text forms d :=
  ⟨forms, Nat.le_refl _, fun _ _ => rfl, h⟩

/-- An edit that brings in no names. -/
theorem Grows.of_printable (h : d'.Printable text forms) (hfresh : d'.fresh = d.fresh) :
    d.Grows text forms d' :=
  ⟨forms, hfresh.ge, fun _ _ => rfl, h⟩

theorem Grows.trans (h : d.Grows text forms d') (h' : ∀ forms', (∀ i < d.fresh, forms' i = forms i) →
    d'.Printable text forms' → d'.Grows text forms' d'') : d.Grows text forms d'' := by
  obtain ⟨forms', hfresh, hforms, hp⟩ := h
  obtain ⟨forms'', hfresh', hforms', hp'⟩ := h' forms' hforms hp
  refine ⟨forms'', hfresh.trans hfresh', fun i hi => ?_, hp'⟩
  rw [hforms' i (Nat.lt_of_lt_of_le hi hfresh), hforms i hi]

/-! ### Edits -/

/-- A node whose own label or children changed, with all below it. -/
theorem ready_walk {children : List Node} {label : Label}
    (hself : { n with label := label, children := children : Node }.Ready text forms d.fresh)
    (hchildren : ∀ c ∈ children, ∀ m ∈ c.walk, m.Ready text forms d.fresh) :
    ∀ m ∈ { n with label := label, children := children : Node }.walk,
      m.Ready text forms d.fresh := by
  intro m hm
  rcases mem_walk.1 hm with rfl | ⟨c, hc, hm⟩
  · exact hself
  · exact hchildren c hc m hm

theorem Printable.ready_below (h : d.Printable text forms) (hn : n ∈ d.nodes) :
    ∀ c ∈ n.children, ∀ m ∈ c.walk, m.Ready text forms d.fresh := fun _ hc m hm =>
  h.ready m (mem_nodes_of_walk hn (mem_walk_of_child hc hm))

theorem Printable.rename (h : d.Printable text forms) (id : NodeId) (name : String) :
    (d.rename id name).Printable text forms := by
  refine h.modify (fun _ _ => rfl) (Nat.le_refl _) fun n hn _ => ⟨rename_form name n.label, rfl, ?_⟩
  exact ready_walk ((h.ready n hn).rename name) (h.ready_below hn)

theorem Printable.renameAll (h : d.Printable text forms) (ids : List NodeId) (name : String) :
    d.Grows text forms (ids.foldl (·.rename · name) d) := by
  induction ids generalizing d with
  | nil => exact .refl h
  | cons id ids ih => exact ih (h.rename id name)

theorem isMarkup_of_form {label label' : Label} (hform : label.form = label'.form)
    (h : label'.isMarkup) : label.isMarkup := by
  cases label' <;> first
    | exact absurd h Bool.false_ne_true
    | (cases label <;> first
        | rfl
        | simp [Label.form] at hform)

/-- The removal of a child other than the opening tag. -/
theorem Printable.removeChild? {parent child : NodeId} (h : d.Printable text forms)
    (hchild : forms child ≠ "JSXOpeningElement") (hr : d.removeChild? parent child = some d') :
    d'.Printable text forms := by
  obtain ⟨owner, taken, ho, ht, rfl, rfl⟩ := Rule.removeChild?_eq_some hr
  obtain ⟨hmem, rfl⟩ := mem_nodes_of_node? ho
  have htaken := mem_nodes_of_child hmem (content_subset taken ht)
  have hspan := (h.ready taken htaken).printable.whole
  have howner : owner.label.isMarkup := by
    rw [content.eq_def] at ht
    split at ht
    · next hl => rw [hl]; rfl
    · cases he : owner.element? with
      | none => rw [he] at ht; cases ht
      | some parts =>
        obtain ⟨isClosed, removed, hl⟩ := Rule.label_of_element? he
        rw [hl]
        rfl
  have hwithout : (d.modify owner.id (Rule.without taken)).Printable text forms := by
    refine h.modify (fun _ _ => rfl) (Nat.le_refl _) fun n hn hid => ?_
    have hready := h.ready n hn
    -- all nodes of that name are elements or fragments
    have hmarkup : n.label.isMarkup := by
      have hform := hready.form.trans ((congrArg forms hid).trans (h.ready owner hmem).form.symm)
      exact isMarkup_of_form hform howner
    have hself := hready.without hmarkup hspan fun parts hp hid => by
      have hopening : parts.opening ∈ n.children := by simp [children_eq_of_element? hp]
      have hform := (h.ready parts.opening (mem_nodes_of_child hn hopening)).form
      rw [hready.opening parts hp, hid] at hform
      exact hchild hform.symm
    obtain ⟨label, heq, hform, -⟩ := without_eq taken hmarkup
    rw [heq] at hself ⊢
    refine ⟨hform, rfl, ready_walk hself fun c hc => ?_⟩
    exact h.ready_below hn c (List.mem_filter.1 hc).1
  refine hwithout.keep fun m hm => ?_
  rcases mem_walk.1 hm with rfl | ⟨c, hc, hm⟩
  · exact (h.ready taken htaken).unlink
  · exact h.ready_below htaken c hc m hm

theorem Printable.keepAll {kept : List Node} (h : d.Printable text forms)
    (hk : ∀ c ∈ kept, ∀ m ∈ c.walk, m.Ready text forms d.fresh) :
    (kept.foldl Document.keep d).Printable text forms := by
  induction kept generalizing d with
  | nil => exact h
  | cons c kept ih =>
    exact ih (h.keep (hk c List.mem_cons_self)) fun b hb => hk b (List.mem_cons_of_mem _ hb)

/-- The collapse of an element. -/
theorem Printable.collapse {parts : ElementParts} (h : d.Printable text forms) (hn : n ∈ d.nodes)
    (hid : d.node? n.id = some n) (hp : n.element? = some parts) :
    (d.collapse n.id).Printable text forms := by
  have hopening : parts.opening ∈ n.children := by simp [children_eq_of_element? hp]
  have hmem := mem_nodes_of_child hn hopening
  have hform := (h.ready n hn).opening parts hp
  obtain ⟨selfClosing, ho⟩ := Rule.openingTag_of_form hform
  have htag : { parts.opening with label := .openingTag true : Node }.Ready text forms d.fresh :=
    (h.ready parts.opening hmem).relabel (by rw [ho]; rfl) rfl ⟨rfl, rfl⟩
  obtain ⟨isClosed, removed, hl⟩ := Rule.label_of_element? hp
  have hread := (h.ready n hn).read_of_markup (by rw [hl]; rfl) hopening
  have hclosed : (d.modify n.id (Rule.closed parts.opening)).Printable text forms := by
    refine h.modify (fun _ _ => rfl) (Nat.le_refl _) fun m hm hmid => ?_
    have hmform : m.label.form = "JSXElement" := by
      rw [(h.ready m hm).form, hmid, ← (h.ready n hn).form, hl]
      rfl
    refine ⟨hmform.symm, rfl, ready_walk ((h.ready m hm).closed hmform hread) fun c hc k hk => ?_⟩
    cases List.mem_singleton.1 hc
    exact ready_walk htag (h.ready_below hmem) k hk
  rw [Rule.collapse_eq hid hp, ← Rule.foldl_keep]
  refine hclosed.keepAll fun c hc m hm => ?_
  refine h.ready m (mem_nodes_of_walk (mem_nodes_of_child hn ?_) hm)
  rw [children_eq_of_element? hp, List.cons_append]
  exact List.mem_cons_of_mem _ hc

/-- The forms of names when some more are in use. -/
def formsWith (forms : NodeId → String) (fresh : NodeId) (added : List Node) (i : NodeId) : String :=
  if i < fresh then forms i else ((added.find? (·.id == i)).map (·.label.form)).getD ""

theorem formsWith_of_lt {fresh i : NodeId} {added : List Node} (h : i < fresh) :
    formsWith forms fresh added i = forms i :=
  if_pos h

/-- A made tree is put among parameters or behind the name of a tag. -/
theorem Printable.insert {fresh : NodeId} {added : Node} (h : d.Printable text forms)
    (hfresh : d.fresh ≤ fresh)
    (hadded : ∀ m ∈ added.walk, m.Ready text (formsWith forms d.fresh added.walk) fresh)
    (he : ∀ n ∈ d.nodes, n.id = id → edit n = n ∨ ∃ before after, n.children = before ++ after ∧
      edit n = { n with children := before ++ added :: after } ∧
      (n.label.form = "Parameters" ∨ n.label.form = "JSXOpeningElement" ∧ before ≠ [])) :
    d.Grows text forms ({ d with fresh := fresh }.modify id edit) := by
  have hforms : ∀ i < d.fresh, formsWith forms d.fresh added.walk i = forms i := fun i hi =>
    formsWith_of_lt hi
  have hold : ∀ m ∈ d.nodes, m.Ready text (formsWith forms d.fresh added.walk) fresh := fun m hm =>
    (h.ready m hm).mono hforms hfresh
  refine ⟨formsWith forms d.fresh added.walk, hfresh, hforms, ?_⟩
  refine h.modify hforms hfresh fun n hn hid => ?_
  rcases he n hn hid with hsame | ⟨before, after, hc, hedit, hplace⟩
  · rw [hsame]
    exact ⟨rfl, rfl, fun m hm => hold m (mem_nodes_of_walk hn hm)⟩
  · rw [hedit]
    refine ⟨rfl, rfl, fun m hm => ?_⟩
    rcases mem_walk.1 hm with rfl | ⟨k, hk, hkm⟩
    · exact (hold n hn).insert hc hplace
    · have hcases : k = added ∨ k ∈ n.children := by
        simp only [List.mem_append, List.mem_cons] at hk
        rw [hc, List.mem_append]
        tauto
      rcases hcases with rfl | hk
      · exact hadded m hkm
      · exact hold m (mem_nodes_of_walk hn (mem_walk_of_child hk hkm))

/-- A made node can be printed when its label allows for it. -/
theorem ready_made {fresh id parent : NodeId} {position : Position} {label : Label}
    {children : List Node} (hl : label.isMakable) (hform : label.form = forms id) (hid : id < fresh) :
    (⟨id, some parent, ⟨none, position⟩, label, children⟩ : Node).Ready text forms fresh := by
  have hlabel : label ≠ .bare ∧ label.removed = [] ∧ label.form ≠ "JSXOpeningElement" ∧
      label.isFunction = false ∧ label.isMarkup = false := by
    cases label <;> first
      | exact absurd hl Bool.false_ne_true
      | exact ⟨by simp, rfl, by simp [Label.form], rfl, rfl⟩
  obtain ⟨hbare, hremoved, htag, hfunction, hmarkup⟩ := hlabel
  refine ⟨⟨hbare, fun span hs => (by cases hs), fun span hs => ?_, fun _ => hl,
    fun i c _ _ => .inl rfl, fun ho => absurd ho htag⟩, hform, hid, fun parts hf => ?_,
    fun parts he => ?_⟩
  · rw [hremoved] at hs
    cases hs
  · have hf := isFunction_of_function? hf
    rw [hfunction] at hf
    cases hf
  · obtain ⟨isClosed, removed, he⟩ := Rule.label_of_element? he
    rw [show label = _ from he] at hmarkup
    cases hmarkup

/-- One more parameter. -/
theorem Printable.addParameter {parameters : Node} (h : d.Printable text forms)
    (hp : forms parameters.id = "Parameters") (name : String) :
    d.Grows text forms (d.addParameter parameters (Rule.ListKey.madeIdentifier name)).2 := by
  rw [Rule.ListKey.madeIdentifier, addParameter_eq]
  refine h.insert (Nat.le_succ _) (fun m hm => ?_) fun n hn hid => .inr ⟨n.children, [], ?_, rfl, ?_⟩
  · cases placedIdentifier_walk hm
    refine ready_made rfl ?_ (Nat.lt_succ_self _)
    simp [formsWith, placedIdentifier, walk_eq, Label.form]
  · rw [List.append_nil]
  · exact .inl ((h.ready n hn).form.trans (by rw [hid, hp]))

/-- Parentheses around parameters. -/
theorem Printable.parenthesize (h : d.Printable text forms) (hp : forms id = "Parameters") :
    (d.modifyLabel id fun _ => .parameters true).Printable text forms := by
  refine h.modify (fun _ _ => rfl) (Nat.le_refl _) fun n hn hid => ?_
  have hform : (Label.parameters true).form = n.label.form := by
    rw [(h.ready n hn).form, hid, hp]
    rfl
  refine ⟨hform, rfl, ready_walk ?_ (h.ready_below hn)⟩
  exact (h.ready n hn).relabel hform rfl ⟨rfl, rfl⟩

/-- A key. -/
theorem Printable.insertAttribute {opening : Node} (h : d.Printable text forms)
    (ho : forms opening.id = "JSXOpeningElement") (name : String) :
    d.Grows text forms (d.insertAttribute opening 0 (Rule.ListKey.keyAttribute name)).2 := by
  rw [Rule.ListKey.insertAttribute_eq]
  have hadded : ∀ m ∈ (Rule.ListKey.placedKey d.fresh opening.id opening.place.position name).walk,
      m.Ready text (formsWith forms d.fresh (Rule.ListKey.placedKey d.fresh opening.id
        opening.place.position name).walk) (d.fresh + 4) := by
    intro m hm
    rw [Rule.ListKey.placedKey_walk] at hm ⊢
    simp only [List.mem_cons, List.not_mem_nil, or_false] at hm
    have hlt : ∀ k, ¬d.fresh + k < d.fresh := fun k => Nat.not_lt.2 (Nat.le_add_right _ _)
    have hnew : ∀ k < 4, d.fresh + k < d.fresh + 4 := fun k hk => Nat.add_lt_add_left hk _
    rcases hm with rfl | rfl | rfl | rfl
    · exact ready_made rfl (by simp [formsWith, Rule.ListKey.placedKey, Label.form]) (hnew 0 (by decide))
    · exact ready_made rfl (by simp [formsWith, Rule.ListKey.placedKey, Label.form, hlt])
        (hnew 1 (by decide))
    · exact ready_made rfl (by simp [formsWith, Rule.ListKey.placedKey, Label.form, hlt])
        (hnew 2 (by decide))
    · exact ready_made rfl (by simp [formsWith, Rule.ListKey.placedKey, placedIdentifier,
        Label.form, hlt]) (hnew 3 (by decide))
  refine h.insert (Nat.le_add_right _ 4) hadded fun n hn hid => ?_
  rcases Rule.ListKey.withAttribute_cases n (Rule.ListKey.placedKey d.fresh opening.id
    opening.place.position name) with hsame | ⟨tag, attributes, hc, hwith⟩
  · exact .inl hsame
  · refine .inr ⟨[tag], attributes, by rw [hc]; rfl, hwith, .inr ⟨?_, by simp⟩⟩
    rw [(h.ready n hn).form, hid, ho]

end Document

/-! ### Repairs -/

namespace Rule

variable {text : String} {forms : NodeId → String} {w w' : Workspace} {finding : Finding}
  {change : Change}

theorem AttributeSpelling.repair_grows {info : RuleInfo} {names : List (String × String)}
    (h : w.document.Printable text forms)
    (hr : AttributeSpelling.repair info names w finding = .ok (change, w')) :
    w.document.Grows text forms w'.document := by
  obtain ⟨n, name, value, newName, -, -, -, -, -, rfl⟩ := AttributeSpelling.repair_eq_ok hr
  exact .of_printable (h.rename _ _) rfl

theorem EmptyExpression.repair_grows (h : w.document.Printable text forms)
    (hf : forms finding.node = "JSXExpressionContainer")
    (hr : EmptyExpression.repair w finding = .ok (change, w')) :
    w.document.Grows text forms w'.document := by
  obtain ⟨braces, parent, document, before, -, -, hremove, -, rfl⟩ :=
    EmptyExpression.repair_eq_ok hr
  have hp := h.removeChild? (by rw [hf]; decide) hremove
  obtain ⟨_, _, -, -, -, rfl⟩ := removeChild?_eq_some hremove
  exact .of_printable hp rfl

theorem VoidElement.repair_grows (h : w.document.Printable text forms)
    (hr : VoidElement.repair w finding = .ok (change, w')) :
    w.document.Grows text forms w'.document := by
  obtain ⟨n, parts, hn, hp, -, -, -, -, rfl⟩ := VoidElement.repair_eq_ok hr
  obtain ⟨hmem, hid⟩ := Document.mem_nodes_of_node? hn
  rw [← hid] at hn
  refine .of_printable (h.collapse hmem hn hp) ?_
  rw [collapse_eq hn hp]
  rfl

theorem ComponentName.repair_grows (h : w.document.Printable text forms)
    (hr : ComponentName.repair w finding = .ok (change, w')) :
    w.document.Grows text forms w'.document := by
  obtain ⟨-, b, binding, -, -, hb, -, -, -, rfl⟩ := ComponentName.repair_eq_ok hr
  rw [Workspace.rename_eq hb]
  exact h.renameAll _ _

namespace ListKey

theorem addParameters_grows {parameters : Node} (s : ScopeId) (names : List String)
    (h : w.document.Printable text forms) (hp : forms parameters.id = "Parameters")
    (hlt : parameters.id < w.document.fresh) :
    w.document.Grows text forms (names.foldl (addParameter parameters s) w).document := by
  induction names generalizing w forms with
  | nil => exact .refl h
  | cons name names ih =>
    have hdocument : (addParameter parameters s w name).document =
        (w.document.addParameter parameters (madeIdentifier name)).2 := rfl
    refine (h.addParameter hp name).trans fun forms' hforms h' => ?_
    rw [← hdocument] at h' ⊢
    exact ih h' ((hforms _ hlt).trans hp) (Nat.lt_succ_of_lt hlt)

theorem withIndex_grows {callback parameters : Node} {s : ScopeId} {between : Workspace}
    {name : String} {b : Option BindingId} (h : w.document.Printable text forms)
    (hp : forms parameters.id = "Parameters") (hlt : parameters.id < w.document.fresh)
    (hr : withIndex w callback parameters s = .ok (between, name, b)) :
    w.document.Grows text forms between.document := by
  rw [withIndex.eq_def] at hr
  split at hr
  · split at hr
    · cases hr
    · cases hr
      exact .refl h
  · split at hr
    · cases hr
    · cases hr
      have hadded := addParameters_grows s (missingNames parameters.children) h hp hlt
      refine hadded.trans fun forms' hforms h' => ?_
      exact .of_printable (h'.parenthesize ((hforms _ hlt).trans hp)) rfl

theorem repair_grows (h : w.document.Printable text forms)
    (hr : repair w finding = .ok (change, w')) : w.document.Grows text forms w'.document := by
  obtain ⟨p, -, rfl⟩ := repair_eq_ok hr
  have helement := (Document.mem_nodes_of_node? p.node).1
  have hcallback := Document.mem_nodes_of_ancestors (List.mem_of_find?_eq_some p.enclosing)
  have hopening : p.parts.opening ∈ w.document.nodes :=
    Document.mem_nodes_of_child helement (by simp [children_eq_of_element? p.element?])
  have hparameters : p.functionParts.parameters ∈ w.document.nodes :=
    Document.mem_nodes_of_child hcallback (by simp [children_eq_of_function? p.function?])
  have ho := (h.ready _ helement).opening _ p.element?
  have hp := (h.ready _ hcallback).parameters _ p.function?
  rw [(h.ready _ hopening).form] at ho
  rw [(h.ready _ hparameters).form] at hp
  refine (withIndex_grows h hp (h.ready _ hparameters).fresh p.index).trans fun forms' hforms h' => ?_
  rw [insertKey_document]
  exact h'.insertAttribute ((hforms _ (h.ready _ hopening).fresh).trans ho) p.name

end ListKey

/-- A repair in a round keeps documents printable. -/
theorem repair_grows {d : Document} {rule : Rule} {repair : Repair} (hrule : rule ∈ all)
    (hd : d.Printable text forms) (h : d.Grows text forms w.document)
    (hr : rule.repair? = some repair) (hf : finding ∈ rule.detect (.ofDocument d) d.root.walk)
    (hok : repair w finding = .ok (change, w')) : d.Grows text forms w'.document := by
  refine h.trans fun forms' hforms h' => ?_
  cases repairing_of_repair? hrule hr with
  | emptyExpression =>
    obtain ⟨n, hn, hempty, hid⟩ := isEmptyContainer_of_detect hf
    have hready := hd.ready n (Document.mem_nodes.2 (.inl hn))
    obtain ⟨⟨hasComment, hl⟩, -⟩ := emptyContainer_leaf hempty
    refine EmptyExpression.repair_grows h' ?_ hok
    rw [hid, hforms _ hready.fresh, ← hready.form, hl]
    rfl
  | reservedProp => exact AttributeSpelling.repair_grows h' hok
  | camelCaseAttribute => exact AttributeSpelling.repair_grows h' hok
  | selfClosingTag => exact VoidElement.repair_grows h' hok
  | missingKey => exact ListKey.repair_grows h' hok
  | componentNaming => exact ComponentName.repair_grows h' hok

end Rule

/-! ### All rounds -/

namespace Engine

variable {e : Engine} {path text : String} {d : Document}

/-- All rounds keep documents printable. -/
theorem rounds_printable (hg : ∀ c ∈ (e.grammar (.ofPath path) text).walk, c.Printable text)
    (hread : Document.read e.grammar path text = .ok d) (hrules : e.rules ⊆ Rule.all) (fix : Bool)
    (n : Nat) (calls : Calls) :
    ∃ forms, (e.rounds fix n (.start d calls)).1.document.Printable text forms := by
  obtain ⟨forms, hforms⟩ := Reading.read_printable hg hread
  refine rounds_invariant (I := fun d => ∃ forms, d.Printable text forms) ?_ fix n ⟨forms, hforms⟩
  rintro d₁ ⟨forms₁, h₁⟩ new changes w' hnew hr
  have hgrows : d₁.Grows text forms₁ w'.document := by
    refine hr.invariant (I := fun w => d₁.Grows text forms₁ w.document) ?_ (.refl h₁)
    intro x hx repair hrepair v hv change v' hok
    exact Rule.repair_grows (hrules (hnew x hx).1) h₁ hv hrepair (hnew x hx).2 hok
  obtain ⟨forms', -, -, h'⟩ := hgrows
  exact ⟨forms', h'⟩

/-- After all rounds, of whatever rules, the document prints a text: made nodes stand among
parameters, behind the name of a tag and below made nodes only, all other nodes have spans, and
these and the spans of removed content hold whole characters. -/
theorem rounds_printText (hg : ∀ c ∈ (e.grammar (.ofPath path) text).walk, c.Printable text)
    (hread : Document.read e.grammar path text = .ok d) (hrules : e.rules ⊆ Rule.all) (fix : Bool)
    (n : Nat) (calls : Calls) {d' : Document}
    (hd : (e.rounds fix n (.start d calls)).1.document = d') :
    (∃ t, d'.printText = .ok t) ∧ d'.root.isMade = false ∧ ∀ m ∈ d'.root.walk, m.Printable text := by
  obtain ⟨forms, h⟩ := rounds_printable hg hread hrules fix n calls
  rw [hd] at h
  exact ⟨h.printText, h.read, fun m hm => (h.ready m (Document.mem_nodes.2 (.inl hm))).printable⟩

end Engine

/-! ### A list of hollow elements -/

namespace Concrete

/-- The tree of `items.map(x => <p>é\x7b\x7d<br>\x7b\x7d</br></p>);`. -/
def hollowList : Concrete :=
  rule "program" 0 40 none
    [rule "expression_statement" 0 39 none
      [rule "call_expression" 0 38 none
        [rule "member_expression" 0 9 (some "function")
            [rule "identifier" 0 5 (some "object") [], token "." 5 6,
              rule "property_identifier" 6 9 (some "property") []],
          rule "arguments" 9 38 (some "arguments")
            [token "(" 9 10,
              rule "arrow_function" 10 37 none
                [rule "identifier" 10 11 (some "parameter") [], token "=>" 12 14,
                  rule "jsx_element" 15 37 (some "body")
                    [rule "jsx_opening_element" 15 18 (some "open_tag")
                        [token "<" 15 16, rule "identifier" 16 17 (some "name") [], token ">" 17 18],
                      rule "jsx_text" 18 20 none [],
                      rule "jsx_expression" 20 22 none [token "\x7b" 20 21, token "\x7d" 21 22],
                      rule "jsx_element" 22 33 none
                        [rule "jsx_opening_element" 22 26 (some "open_tag")
                            [token "<" 22 23, rule "identifier" 23 25 (some "name") [],
                              token ">" 25 26],
                          rule "jsx_expression" 26 28 none
                            [token "\x7b" 26 27, token "\x7d" 27 28],
                          rule "jsx_closing_element" 28 33 (some "close_tag")
                            [token "</" 28 30, rule "identifier" 30 32 (some "name") [],
                              token ">" 32 33]],
                      rule "jsx_closing_element" 33 37 (some "close_tag")
                        [token "</" 33 35, rule "identifier" 35 36 (some "name") [],
                          token ">" 36 37]]],
              token ")" 37 38]],
        token ";" 38 39]]

end Concrete

namespace Engine

/-- All rules at work on `Concrete.hollowList`. -/
def hollow : Engine :=
  ⟨Rule.all, fun _ _ => Concrete.hollowList, .none, true, 3⟩

/-- The text of `Concrete.hollowList`. -/
def hollowText : String :=
  "items.map(x => <p>é\x7b\x7d<br>\x7b\x7d</br></p>);\n"

/-- Removed braces, a key and a collapsed tag in one document, which is printed. -/
theorem hollow_printText : ∃ d, Document.read hollow.grammar "A.jsx" hollowText = .ok d ∧
    (hollow.rounds true 3 (.start d .none)).1.changes.map (·.rule) =
      ["empty-expression", "empty-expression", "missing-key", "self-closing-tag"] ∧
    ∃ t, (hollow.rounds true 3 (.start d .none)).1.document.printText = .ok t := by
  have hrules : (Document.read hollow.grammar "A.jsx" hollowText).map
      (fun d => (hollow.rounds true 3 (.start d .none)).1.changes.map (·.rule)) =
        .ok ["empty-expression", "empty-expression", "missing-key", "self-closing-tag"] := by
    decide +kernel
  obtain ⟨d, hd, hchanges⟩ := Reading.map_eq_ok.1 hrules
  exact ⟨d, hd, hchanges, (rounds_printText (by decide +kernel) hd (List.Subset.refl _) true 3 .none
    rfl).1⟩

end Engine
end JsxLint
