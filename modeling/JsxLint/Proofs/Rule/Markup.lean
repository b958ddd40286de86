import JsxLint.Proofs.Workspace.Editing
import JsxLint.Rule.AttributeSpelling
import JsxLint.Rule.EmptyExpression
import JsxLint.Rule.VoidElement

/-!
# Repairs of markup

The repairs that touch neither names nor scopes: attributes get another spelling, empty braces go,
and void elements lose their content and closing tag.

* `Rule.AttributeSpelling.repair_step`;
* `Rule.EmptyExpression.repair_step`;
* `Rule.VoidElement.repair_step`.
-/

namespace JsxLint

open Node

namespace Node

variable {fresh : NodeId} {name : String} {n m root : Node}

theorem markupName_of_form (h : n.label.form = "JSXName") : ∃ name, n.label = .markupName name := by
  cases hl : n.label <;> rw [hl] at h <;> first
    | exact ⟨_, rfl⟩
    | (simp only [Label.form] at h; exact absurd h (by decide))

theorem label_of_attribute? {name : Node} {value : Option Node}
    (h : n.attribute? = some (name, value)) : n.label = .markupAttribute := by
  rw [attribute?.eq_def] at h
  split at h
  · assumption
  · cases h

/-- An attribute that goes by a name is in the tree. -/
theorem mem_walk_of_attribute? {d : Document} {i : NodeId} {part : Node × Option Node}
    (h : d.WellFormed) (hn : d.node? i = some n) (ha : n.attribute? = some part) :
    n ∈ d.root.walk := by
  refine h.mem_walk_of_node? hn ?_
  rw [label_of_attribute? ha]
  exact Bool.false_ne_true

/-- The first child of an attribute is its name. -/
theorem Formed.attribute_name {value : Option Node} (h : root.Formed fresh) (hn : n ∈ root.walk)
    (ha : n.attribute? = some (m, value)) :
    m ∈ n.children ∧ m ∈ root.walk ∧ ∃ name, m.label = .markupName name := by
  obtain ⟨rest, hc⟩ := children_eq_of_attribute? ha
  have hm : m ∈ n.children := hc ▸ List.mem_cons_self
  exact ⟨hm, mem_walk_trans (child_mem_walk hm) hn,
    markupName_of_form ((h.shaped n hn).name m value ha)⟩

/-- The names of tags and attributes declare nothing. -/
theorem markupName_silent (hl : n.label = .markupName name) (hc : n.children = []) : n.Silent := by
  refine Idle.silent (fun m hm => ?_) ?_
  · rw [walk_eq, hc] at hm
    cases List.mem_singleton.1 hm
    rw [hl]
    rfl
  · rw [patternNames_eq, hl]

theorem markupName_uses {f : Bool} {c : List Region} (hl : n.label = .markupName name)
    (hc : n.children = []) : n.uses f c = [] := by
  rw [uses_eq, hc, use?, hl]
  rfl

/-- The table sees the same of an attribute under another name. -/
theorem Seen.renameAttribute {value : Option Node} (h : root.Formed fresh) (hn : n ∈ root.walk)
    (ha : n.attribute? = some (m, value)) :
    Seen fresh n (n.modify m.id fun l => { l with label := l.label.rename name }) := by
  obtain ⟨hm, hmr, old, hl⟩ := h.attribute_name hn ha
  have hleaf : m.children = [] := (h.shaped m hmr).leaf (by rw [hl]; rfl)
  have hd := nodup_of_mem h.nodup hn
  have hne : n.id ≠ m.id := fun he => id_not_mem_child hd hm (he ▸ id_mem_ids m.self_mem_walk)
  obtain ⟨before, after, hs, hmodify⟩ := map_modify_of_child hd hm (id_mem_ids m.self_mem_walk)
  have hsilent := markupName_silent hl hleaf
  have hsilent' := markupName_silent (n := { m with label := m.label.rename name }) (by rw [hl]; rfl) hleaf
  have hsucceeds : Succeeds fresh n
      (n.modify m.id fun l => { l with label := l.label.rename name }) :=
    .modify fun l hlw he => by
      obtain rfl := eq_of_id_eq hd hlw (child_mem_walk hm) he
      refine .setLabel (by rw [hl]; rfl) ?_
      rw [isEmptyContainer.eq_def, hl]
      exact Bool.false_ne_true
  rw [modify_of_ne hne, mapChildren, hmodify, modify_self] at hsucceeds ⊢
  have hq := label_of_attribute? ha
  refine .of_quiet (by rw [hq]; rfl) (by rw [hq]; rfl) rfl ?_ ?_ ?_ ?_ hsucceeds
  · simp only [hs, List.flatMap_append, List.flatMap_cons, hsilent.names, hsilent'.names]
  · intro f c
    simp only [hs, List.flatMap_append, List.flatMap_cons, hsilent.declarations,
      hsilent'.declarations]
  · intro f c
    simp only [hs, List.flatMap_append, List.flatMap_cons, hsilent.regions, hsilent'.regions]
  · intro f c u hu
    simp only [hs, List.flatMap_append, List.flatMap_cons, markupName_uses hl hleaf,
      markupName_uses (n := { m with label := m.label.rename name })
        (by rw [hl]; rfl) hleaf] at hu ⊢
    exact .inr hu

/-! ### Content -/

theorem content_subset : ∀ k ∈ n.content, k ∈ n.children := by
  intro k hk
  rw [content.eq_def] at hk
  split at hk
  · exact hk
  · cases he : n.element? with
    | none =>
      rw [he] at hk
      cases hk
    | some parts =>
      rw [he] at hk
      rw [children_eq_of_element? he]
      exact List.mem_append_left _ (List.mem_cons_of_mem _ hk)

theorem emptyContainer_leaf (h : n.isEmptyContainer) :
    (∃ hasComment, n.label = .container hasComment) ∧ n.children = [] := by
  rw [isEmptyContainer.eq_def] at h
  split at h
  · next hasComment hl =>
    rw [Bool.and_eq_true, List.isEmpty_iff] at h
    exact ⟨⟨hasComment, hl⟩, h.1⟩
  · cases h

theorem idle_of_leaf (hl : n.label.isIdle) (hc : n.children = []) : n.Idle := by
  intro m hm
  rw [walk_eq, hc] at hm
  cases List.mem_singleton.1 hm
  exact hl

theorem emptyContainer_idle (h : n.isEmptyContainer) : n.Idle := by
  obtain ⟨⟨hasComment, hl⟩, hc⟩ := emptyContainer_leaf h
  exact idle_of_leaf (by rw [hl]; rfl) hc

theorem emptyContainer_silent (h : n.isEmptyContainer) : n.Silent := by
  obtain ⟨⟨hasComment, hl⟩, hc⟩ := emptyContainer_leaf h
  exact (emptyContainer_idle h).silent (by rw [patternNames_eq, hl])

/-- The children of a node without one of them. -/
theorem filter_children (h : n.ids.Nodup) (hm : m ∈ n.children) :
    ∃ before after, n.children = before ++ m :: after ∧
      n.children.filter (·.id != m.id) = before ++ after := by
  obtain ⟨before, after, hs⟩ := List.append_of_mem hm
  have hd : ((before ++ m :: after).map (·.id)).Nodup := hs ▸ nodup_children h
  rw [List.map_append, List.map_cons] at hd
  refine ⟨before, after, hs, ?_⟩
  have hrest : ∀ ks : List Node, m.id ∉ ks.map (·.id) → ks.filter (·.id != m.id) = ks := by
    intro ks hks
    refine List.filter_eq_self.2 fun k hk => bne_iff_ne.2 fun he => hks ?_
    rw [← he]
    exact List.mem_map_of_mem hk
  rw [hs, List.filter_append, List.filter_cons, if_neg (by simp), hrest before, hrest after]
  · exact (List.nodup_cons.1 (List.nodup_append.1 hd).2.1).1
  · exact fun hi => (List.nodup_append.1 hd).2.2 _ hi _ List.mem_cons_self rfl

end Node

namespace Rule

variable {w w' : Workspace} {start : NodeId} {finding : Finding} {change : Change}

/-- What the repair of a finding goes through when it succeeds: an attribute gets a name that its tag
does not have. -/
theorem AttributeSpelling.repair_eq_ok {info : RuleInfo} {names : List (String × String)}
    (hr : repair info names w finding = .ok (change, w')) : ∃ n name value newName,
    w.document.node? finding.node = some n ∧ n.attribute? = some (name, value) ∧
      names.lookup name.text = some newName ∧
      (openingAround? w n).bind (·.findAttribute? newName) = none ∧
      change = info.change finding .renameAttribute (some name.text) (some newName) none ∧
      w' = { w with document := w.document.rename name.id newName } := by
  rw [repair] at hr
  split at hr
  · cases hr
  · next n hn =>
    split at hr
    · cases hr
    · next name value ha =>
      split at hr
      · cases hr
      · next newName hlookup =>
        split_ifs at hr with hfree
        cases hr
        exact ⟨n, name, value, newName, hn, ha, hlookup, Option.not_isSome_iff_eq_none.1 hfree, rfl,
          rfl⟩

/-- Another spelling of an attribute keeps what names refer to. -/
theorem AttributeSpelling.repair_step {info : RuleInfo} {names : List (String × String)}
    (h : w.Sound start) (hr : repair info names w finding = .ok (change, w')) :
    Workspace.Step start w w' := by
  obtain ⟨n, name, value, newName, hn, ha, -, -, -, rfl⟩ := repair_eq_ok hr
  have hroot := mem_walk_of_attribute? h.formed hn ha
  have hform := h.formed.root
  obtain ⟨hm, hmr, old, hl⟩ := hform.attribute_name hroot ha
  have hleaf : name.children = [] := (hform.shaped name hmr).leaf (by rw [hl]; rfl)
  have hd : (w.document.rename name.id newName).detached = w.document.detached :=
    h.formed.detached_modify (id_mem_ids hmr)
  refine h.modify hmr rfl (.setLabel hform hmr ((hform.shaped name hmr).rename newName)
    (by rw [hl]; rfl) fun _ => by rw [hl]; rfl) ?_ fun t ht => .inl (hd ▸ ht)
  have hbelow : w.document.root.modify name.id
      (fun l => { l with label := l.label.rename newName }) = _ :=
    modify_below hform.nodup hroot (mem_ids_of_child hm (id_mem_ids name.self_mem_walk))
  show Seen _ _ (w.document.root.modify name.id fun l =>
    { l with label := l.label.rename newName })
  rw [hbelow]
  exact h.seen hroot (.renameAttribute hform hroot ha)

/-! ### Removals -/

/-- An element or fragment without one of its children, whose span it notes. -/
def without (taken : Node) (n : Node) : Node :=
  { n with
    label := match taken.place.span with
      | some span => Document.noteRemoved span n.label
      | none => n.label
    children := n.children.filter (·.id != taken.id) }

theorem removeChild?_eq_some {d d' : Document} {parent child : NodeId}
    (h : d.removeChild? parent child = some d') : ∃ owner taken, d.node? parent = some owner ∧
      taken ∈ owner.content ∧ taken.id = child ∧
      d' = (d.modify parent (without taken)).keep { taken with parent := none } := by
  rw [Document.removeChild?] at h
  obtain ⟨owner, ho, h⟩ := Option.bind_eq_some_iff.1 h
  obtain ⟨taken, ht, h⟩ := Option.bind_eq_some_iff.1 h
  have hid := List.find?_some ht
  rw [beq_iff_eq] at hid
  subst hid
  exact ⟨owner, taken, ho, List.mem_of_find?_eq_some ht, rfl, (Option.some.inj h).symm⟩

theorem without_label {n : Node} (taken : Node) (h : n.label.isMarkup) :
    (∃ isClosed removed removed', n.label = .element isClosed removed ∧
      (without taken n).label = .element isClosed removed') ∨
    ∃ removed removed', n.label = .fragment removed ∧
      (without taken n).label = .fragment removed' := by
  rw [without]
  cases hl : n.label <;> rw [hl] at h <;> first
    | exact absurd h Bool.false_ne_true
    | skip
  · cases taken.place.span <;> exact .inl ⟨_, _, _, rfl, rfl⟩
  · cases taken.place.span <;> exact .inr ⟨_, _, rfl, rfl⟩

/-- Without a part of its content an element has the rest of it, and its tags. -/
theorem without_element? {n taken : Node} {parts : ElementParts} (hp : n.element? = some parts)
    (hl : n.label.isMarkup) (hd : n.ids.Nodup) (ht : taken ∈ parts.content) :
    (without taken n).element? =
      some { parts with content := parts.content.filter (·.id != taken.id) } := by
  rcases without_label taken hl with ⟨isClosed, removed, removed', hn, hw⟩ | ⟨removed, -, hn, -⟩
  · have hc := children_eq_of_element? hp
    -- neither tag is the part that goes
    have hdc := nodup_children hd
    rw [hc, List.cons_append, List.map_cons, List.nodup_cons, List.map_append] at hdc
    have hopening : parts.opening.id ≠ taken.id := fun he' => hdc.1
      (he' ▸ List.mem_append_left _ (List.mem_map_of_mem ht))
    have hclosing : ∀ c ∈ parts.closing, c.id ≠ taken.id := fun c hcl he' =>
      (List.nodup_append.1 hdc.2).2.2 _ (List.mem_map_of_mem ht) _
        (List.mem_map_of_mem (Option.mem_toList.2 hcl)) he'.symm
    have hkeep : parts.closing.toList.filter (·.id != taken.id) = parts.closing.toList :=
      List.filter_eq_self.2 fun c hcl => bne_iff_ne.2 (hclosing c (Option.mem_toList.1 hcl))
    refine element?_of_children hw ?_ (closing_isSome hn hp (.inl (List.ne_nil_of_mem ht)))
    show n.children.filter _ = _
    rw [hc, List.cons_append, List.filter_cons, if_pos (bne_iff_ne.2 hopening),
      List.filter_append, hkeep]
    rfl
  · rw [element?.eq_def, hn] at hp
    cases hp

/-- Without a part of its content an element or fragment still has the parts that its label says. -/
theorem without_shaped {n taken : Node} (hl : n.label.isMarkup) (h : n.Shaped) (hd : n.ids.Nodup)
    (ht : taken ∈ n.content) : (without taken n).Shaped := by
  rcases without_label taken hl with ⟨isClosed, removed, removed', hn, hw⟩ | ⟨_, _, -, hw⟩
  · rw [Node.content.eq_def, hn] at ht
    cases he : n.element? with
    | none =>
      rw [he] at ht
      cases ht
    | some parts =>
      rw [he] at ht
      exact shaped_of_element hw (without_element? he hl hd ht) (h.opening parts he)
        (h.closing parts he)
  · exact shaped_of_loose (by rw [hw]; rfl)

/-- The table sees the same of content without empty braces. -/
theorem without_seen {fresh : NodeId} {n taken : Node} (hl : n.label.isMarkup) (hd : n.ids.Nodup)
    (ht : taken ∈ n.children) (he : taken.isEmptyContainer) : Seen fresh n (without taken n) := by
  obtain ⟨before, after, hs, hfilter⟩ := filter_children hd ht
  have hsilent := emptyContainer_silent he
  have hquiet : n.label.isQuiet ∧ (without taken n).label.isQuiet ∧
      (without taken n).label.form = n.label.form ∧ ¬n.isEmptyContainer := by
    rw [isEmptyContainer.eq_def]
    rcases without_label taken hl with ⟨_, _, _, hn, hw⟩ | ⟨_, _, hn, hw⟩ <;> rw [hn, hw] <;>
      exact ⟨rfl, rfl, rfl, Bool.false_ne_true⟩
  obtain ⟨hq, hq', hform, hbraces⟩ := hquiet
  have hchildren : (without taken n).children = before ++ after := hfilter
  have hsub : ∀ k ∈ (without taken n).children, k ∈ n.children := fun k hk =>
    (List.mem_filter.1 hk).1
  refine .of_quiet hq hq' rfl ?_ ?_ ?_ ?_ ?_
  · simp only [hchildren, hs, List.flatMap_append, List.flatMap_cons, hsilent.names, List.nil_append]
  · intro f c
    simp only [hchildren, hs, List.flatMap_append, List.flatMap_cons, hsilent.declarations,
      List.nil_append]
  · intro f c
    simp only [hchildren, hs, List.flatMap_append, List.flatMap_cons, hsilent.regions,
      List.nil_append]
  · intro f c u hu
    obtain ⟨k, hk, hu⟩ := List.mem_flatMap.1 hu
    exact .inr (List.mem_flatMap.2 ⟨k, hsub k hk, hu⟩)
  · intro m hm _
    rcases mem_walk.1 hm with rfl | ⟨k, hk, hm⟩
    · exact ⟨n, n.self_mem_walk, rfl, hform, fun he => absurd he hbraces⟩
    · exact ⟨m, mem_walk_of_child (hsub k hk) hm, rfl, rfl, fun he => he⟩

/-- The nodes that the rule reports are empty braces. -/
theorem isEmptyContainer_of_detect {nodes : List Node}
    (h : finding ∈ EmptyExpression.detect w nodes) :
    ∃ n ∈ nodes, n.isEmptyContainer ∧ finding.node = n.id := by
  rw [EmptyExpression.detect] at h
  obtain ⟨n, hn, rfl⟩ := List.mem_map.1 h
  exact ⟨n, (List.mem_filter.1 hn).1, (List.mem_filter.1 hn).2, rfl⟩

/-- The braces that were found when a round began are still empty. -/
theorem EmptyExpression.found_empty {d : Document} (hd : d.WellFormed)
    (hf : finding ∈ detect (.ofDocument d) d.root.walk)
    (h : Workspace.Step d.fresh (.ofDocument d) w) :
    ∀ m ∈ w.document.root.walk, m.id = finding.node → m.isEmptyContainer := by
  intro m hm he
  obtain ⟨n, hn, hempty, hnode⟩ := isEmptyContainer_of_detect hf
  have hlt := hd.root.lt_fresh _ (id_mem_ids hn)
  obtain ⟨l, hl, hid, -, hkeep⟩ := h.follows.node m hm (by rw [he, hnode]; exact hlt)
  cases eq_of_id_eq hd.root.nodup hl hn (hid.trans (he.trans hnode))
  exact hkeep hempty

/-- What the repair of a finding goes through when it succeeds: the braces go from the content of the
node that they know as their parent. -/
theorem EmptyExpression.repair_eq_ok (hr : repair w finding = .ok (change, w')) :
    ∃ braces parent document before, w.document.node? finding.node = some braces ∧
      markupParent? w braces = some parent ∧
      w.document.removeChild? parent.id finding.node = some document ∧
      change = info.change finding .removeExpression before none (some "removed") ∧
      w' = { w with document } := by
  rw [repair] at hr
  split at hr
  · cases hr
  · next parent hparent =>
    split at hr
    · cases hr
    · next document hremove =>
      cases hr
      obtain ⟨braces, hbraces, hparent⟩ := Option.bind_eq_some_iff.1 hparent
      exact ⟨braces, parent, document, _, hbraces, hparent, hremove, rfl, rfl⟩

/-- In a sound workspace the braces go from an element or a fragment of the tree. -/
theorem EmptyExpression.repair_removes (h : w.Sound start)
    (hr : repair w finding = .ok (change, w')) : ∃ parent ∈ w.document.root.walk,
      parent.label.isMarkup ∧ ∃ taken ∈ parent.content, taken.id = finding.node ∧
        w' = ⟨(w.document.modify parent.id (without taken)).keep { taken with parent := none },
          w.scopes⟩ := by
  obtain ⟨braces, parent, document, before, -, hparent, hremove, -, rfl⟩ := repair_eq_ok hr
  rw [markupParent?, Option.filter_eq_some_iff] at hparent
  obtain ⟨hparent, hmarkup⟩ := hparent
  obtain ⟨p, -, hp⟩ := Option.bind_eq_some_iff.1 hparent
  have hroot := h.formed.mem_walk_of_node? hp (Label.not_isIdle_of_isMarkup hmarkup)
  obtain ⟨owner, taken, ho, ht, hid, rfl⟩ := removeChild?_eq_some hremove
  rw [h.formed.node?_eq hroot] at ho
  cases ho
  exact ⟨parent, hroot, hmarkup, taken, ht, hid, rfl⟩

/-- The removal of empty braces keeps what names refer to. -/
theorem EmptyExpression.repair_step (h : w.Sound start)
    (hf : ∀ m ∈ w.document.root.walk, m.id = finding.node → m.isEmptyContainer)
    (hr : repair w finding = .ok (change, w')) : Workspace.Step start w w' := by
  obtain ⟨parent, hroot, hmarkup, taken, ht, hid, rfl⟩ := repair_removes h hr
  have htc := content_subset taken ht
  have htr := mem_walk_trans (child_mem_walk htc) hroot
  have hempty := hf taken htr hid
  have hd := nodup_of_mem h.formed.root.nodup hroot
  have hdetached : ((w.document.modify parent.id (without taken)).keep
      { taken with parent := none }).detached =
      { taken with parent := none } :: w.document.detached :=
    congrArg (List.cons _) (h.formed.detached_modify (id_mem_ids hroot))
  obtain ⟨before, after, hs, hfilter⟩ := filter_children hd htc
  have hsub : ∀ k ∈ (without taken parent).children, k ∈ parent.children := fun k hk =>
    (List.mem_filter.1 hk).1
  have hedited : parent.Edited w.document.fresh w.document.fresh (without taken parent) := by
    refine .setChildren (without_shaped hmarkup (h.formed.root.shaped _ hroot) hd ht) ?_ ?_ ?_
      fun k hk => ?_
    · rcases without_label taken hmarkup with ⟨_, _, _, hn, hw⟩ | ⟨_, _, hn, hw⟩
      · exact (congrArg Label.form hw).trans (congrArg Label.form hn).symm
      · exact (congrArg Label.form hw).trans (congrArg Label.form hn).symm
    · rcases without_label taken hmarkup with ⟨_, _, _, hn, -⟩ | ⟨_, _, hn, -⟩ <;> rw [hn] <;>
        exact Bool.false_ne_true
    · exact List.Sublist.flatMap List.filter_sublist _
    · have hkp := (List.mem_filter.1 hk).1
      have hkr := mem_walk_trans (child_mem_walk hkp) hroot
      exact ⟨h.formed.root.linked _ hroot k hkp, h.formed.root.linked.of_mem hkr,
        fun m hm => h.formed.root.shaped m (mem_walk_trans hm hkr)⟩
  refine h.modify hroot rfl hedited (h.seen hroot (without_seen hmarkup hd htc hempty))
    fun t ht' => ?_
  rw [hdetached] at ht'
  rcases List.mem_cons.1 ht' with rfl | ht'
  · obtain ⟨⟨_, hl⟩, hleaf⟩ := emptyContainer_leaf hempty
    refine .inr ⟨idle_of_leaf (by rw [hl]; rfl) hleaf, fun i hi => ?_⟩
    rw [ids_eq, hleaf] at hi
    cases List.mem_singleton.1 hi
    have htaken := id_mem_ids taken.self_mem_walk
    refine ⟨mem_ids_of_child htc htaken, fun hm => ?_⟩
    rw [ids_eq] at hm
    rcases List.mem_cons.1 hm with he | hm
    · exact id_not_mem_child hd htc (he ▸ htaken)
    · obtain ⟨k, hk, hi⟩ := List.mem_flatMap.1 hm
      cases child_eq_of_mem_ids hd (hsub k hk) htc hi htaken
      exact absurd rfl (bne_iff_ne.1 (List.mem_filter.1 hk).2)
  · exact .inl ht'

/-! ### Collapsed elements -/

theorem foldl_keep (ts : List Node) (d : Document) :
    ts.foldl Document.keep d = { d with detached := ts.reverse ++ d.detached } := by
  induction ts generalizing d with
  | nil => rfl
  | cons t ts ih =>
    rw [List.foldl_cons, ih, List.reverse_cons, List.append_assoc]
    rfl

/-- An element as one tag without content. -/
def closed (opening n : Node) : Node :=
  { n with
    label := .element false n.label.removed
    children := [{ opening with label := .openingTag true }] }

theorem collapse_eq {d : Document} {n : Node} {parts : ElementParts} (hn : d.node? n.id = some n)
    (hp : n.element? = some parts) : d.collapse n.id =
      { d.modify n.id (closed parts.opening) with
        detached := (parts.content ++ parts.closing.toList).reverse ++
          (d.modify n.id (closed parts.opening)).detached } := by
  rw [Document.collapse, hn, Option.bind_some, hp]
  exact foldl_keep _ _

theorem openingTag_of_form {n : Node} (h : n.label.form = "JSXOpeningElement") :
    ∃ selfClosing, n.label = .openingTag selfClosing := by
  cases hl : n.label <;> rw [hl] at h <;> first
    | exact ⟨_, rfl⟩
    | (simp only [Label.form] at h; exact absurd h (by decide))

theorem closingTag_of_form {n : Node} (h : n.label.form = "JSXClosingElement") :
    n.label = .closingTag := by
  cases hl : n.label <;> rw [hl] at h <;> first
    | rfl
    | (simp only [Label.form] at h; exact absurd h (by decide))

theorem blankText_leaf {n : Node} (h : n.isBlankText) (hs : n.Shaped) : n.Idle ∧ n.Silent := by
  rw [Node.isBlankText.eq_def] at h
  split at h
  · next text hl =>
    have hi := idle_of_leaf (by rw [hl]; rfl) (hs.text text hl)
    exact ⟨hi, hi.silent (by rw [patternNames_eq, hl])⟩
  · cases h

theorem label_of_element? {n : Node} {parts : ElementParts} (h : n.element? = some parts) :
    ∃ isClosed removed, n.label = .element isClosed removed := by
  rw [element?.eq_def] at h
  split at h <;> first
    | exact ⟨_, _, ‹n.label = _›⟩
    | cases h

/-- The content and the closing tag of an element that is collapsed. -/
theorem collapsed_idle {n : Node} {parts : ElementParts} (hs : ∀ m ∈ n.walk, m.Shaped)
    (hp : n.element? = some parts) (hblank : parts.content.all (·.isBlankText)) :
    ∀ t ∈ parts.content ++ parts.closing.toList, t.Idle ∧ t.Silent := by
  have hc := children_eq_of_element? hp
  intro t ht
  rcases List.mem_append.1 ht with htc | htc
  · have htn : t ∈ n.children := by
      rw [hc]
      exact List.mem_append_left _ (List.mem_cons_of_mem _ htc)
    exact blankText_leaf (List.all_eq_true.1 hblank t htc) (hs t (child_mem_walk htn))
  · obtain ⟨hform, hidle⟩ := (hs n n.self_mem_walk).closing parts hp t (Option.mem_toList.1 htc)
    exact ⟨hidle, hidle.silent (by rw [patternNames_eq, closingTag_of_form hform])⟩

/-- The table sees the same of a collapsed element. -/
theorem closed_seen {fresh : NodeId} {n : Node} {parts : ElementParts} (hs : ∀ m ∈ n.walk, m.Shaped)
    (hp : n.element? = some parts) (hblank : parts.content.all (·.isBlankText)) :
    Seen fresh n (closed parts.opening n) := by
  have hc := children_eq_of_element? hp
  obtain ⟨isClosed, removed, hl⟩ := label_of_element? hp
  obtain ⟨selfClosing, ho⟩ := openingTag_of_form ((hs n n.self_mem_walk).opening parts hp)
  have hsilent := fun t ht => (collapsed_idle hs hp hblank t ht).2
  have hq : parts.opening.label.isQuiet := by
    rw [ho]
    rfl
  have hrest : ∀ {α : Type} (g : Node → List α), (∀ t : Node, t.Silent → g t = []) →
      n.children.flatMap g = g parts.opening := by
    intro α g hg
    rw [hc, List.cons_append, List.flatMap_cons,
      List.flatMap_eq_nil_iff.2 fun t ht => hg t (hsilent t ht), List.append_nil]
  have hopening : Seen fresh parts.opening { parts.opening with label := .openingTag true } :=
    .of_quiet hq rfl rfl rfl (fun _ _ => rfl) (fun _ _ => rfl) (fun _ _ _ hu => .inr hu)
      (.setLabel (by rw [ho]; rfl) (by
        rw [isEmptyContainer.eq_def, ho]
        exact Bool.false_ne_true))
  have hmem : parts.opening ∈ n.children := hc ▸ List.mem_cons_self
  refine .of_quiet (by rw [hl]; rfl) rfl rfl ?_ (fun f c => ?_) (fun f c => ?_) (fun f c u hu => ?_)
    fun m hm hlt => ?_
  · rw [hrest patternNames fun t ht => ht.names, patternNames_eq parts.opening, ho]
    rfl
  · rw [hrest _ fun t ht => ht.declarations f c, ← hopening.declarations f c]
    exact List.append_nil _
  · rw [hrest _ fun t ht => ht.regions f c, ← hopening.regions f c]
    exact List.append_nil _
  · refine (hopening.uses f c u ?_).imp_right fun hu =>
      List.mem_flatMap.2 ⟨parts.opening, hmem, hu⟩
    have hu : u ∈ _ ++ [] := hu
    rwa [List.append_nil] at hu
  · rcases mem_walk.1 hm with rfl | ⟨k, hk, hm⟩
    · refine ⟨n, n.self_mem_walk, rfl, by rw [hl]; rfl, fun he => ?_⟩
      rw [isEmptyContainer.eq_def, hl] at he
      exact absurd he Bool.false_ne_true
    · cases List.mem_singleton.1 hk
      obtain ⟨l, hlw, he⟩ := hopening.succeeds m hm hlt
      exact ⟨l, mem_walk_of_child hmem hlw, he⟩

/-- What the repair of a finding goes through when it succeeds: an element with a closing tag and
blank content collapses. -/
theorem VoidElement.repair_eq_ok (hr : repair w finding = .ok (change, w')) : ∃ n parts,
    w.document.node? finding.node = some n ∧ n.element? = some parts ∧ n.isSelfClosing = false ∧
      parts.closing.isSome ∧ parts.content.all (·.isBlankText) ∧
      change = info.change finding .collapseTag (some ("<" ++ n.tag ++ "></" ++ n.tag ++ ">"))
        (some ("<" ++ n.tag ++ " />")) (some "made self-closing") ∧
      w' = { w with document := w.document.collapse n.id } := by
  rw [repair] at hr
  split at hr
  · cases hr
  · next n hn =>
    split at hr
    · cases hr
    · next parts hp =>
      split_ifs at hr with hclosed hblank
      cases hr
      rw [Bool.or_eq_true, not_or, Bool.not_eq_true, Bool.not_eq_true,
        Option.isNone_eq_false_iff] at hclosed
      rw [Bool.not_eq_true, Bool.not_eq_false'] at hblank
      exact ⟨n, parts, hn, hp, hclosed.1, hclosed.2, hblank, rfl, rfl⟩

/-- The collapse of a void element keeps what names refer to. -/
theorem VoidElement.repair_step (h : w.Sound start) (hr : repair w finding = .ok (change, w')) :
    Workspace.Step start w w' := by
  obtain ⟨n, parts, hn, hp, -, -, hblank, -, rfl⟩ := repair_eq_ok hr
  obtain ⟨isClosed, removed, hl⟩ := label_of_element? hp
  have hroot := h.formed.mem_walk_of_node? hn (by rw [hl]; exact Bool.false_ne_true)
  have hshaped : ∀ m ∈ n.walk, m.Shaped := fun m hm =>
    h.formed.root.shaped m (mem_walk_trans hm hroot)
  have hd := nodup_of_mem h.formed.root.nodup hroot
  have hc := children_eq_of_element? hp
  have hmem : parts.opening ∈ n.children := hc ▸ List.mem_cons_self
  have hor := mem_walk_trans (child_mem_walk hmem) hroot
  obtain ⟨selfClosing, ho⟩ := openingTag_of_form ((hshaped n n.self_mem_walk).opening parts hp)
  have hopening : parts.opening.Edited w.document.fresh w.document.fresh
      { parts.opening with label := .openingTag true } :=
    .setLabel h.formed.root hor (shaped_of_loose rfl) (by rw [ho]; rfl) (by
      rw [ho]
      exact fun hi => hi)
  have hedited : n.Edited w.document.fresh w.document.fresh (closed parts.opening n) := by
    refine .setChildren ?_ (by rw [hl]; rfl) (by rw [hl]; exact Bool.false_ne_true) ?_ fun k hk => ?_
    · have hparts : (closed parts.opening n).element? =
          some ⟨{ parts.opening with label := .openingTag true }, [], none⟩ :=
        element?_of_children rfl rfl rfl
      exact shaped_of_element rfl hparts rfl fun c hc => by cases hc
    · rw [hc, List.flatMap_singleton, List.cons_append, List.flatMap_cons, ids_eq,
        ids_eq parts.opening]
      exact List.sublist_append_left _ _
    · cases List.mem_singleton.1 hk
      exact ⟨h.formed.root.linked n hroot parts.opening hmem, hopening.linked, hopening.shaped⟩
  have hn : w.document.node? n.id = some n := h.formed.node?_eq hroot
  have hdetached : (w.document.modify n.id (closed parts.opening)).detached =
      w.document.detached := h.formed.detached_modify (id_mem_ids hroot)
  rw [collapse_eq hn hp, hdetached]
  refine h.modify hroot rfl hedited (h.seen hroot (closed_seen hshaped hp hblank)) fun t ht => ?_
  rcases List.mem_append.1 ht with ht | ht
  · have ht := List.mem_reverse.1 ht
    have hidle := (collapsed_idle hshaped hp hblank t ht).1
    have htc : t ∈ n.children := by
      rw [hc, List.cons_append]
      exact List.mem_cons_of_mem _ ht
    refine .inr ⟨hidle, fun i hi => ⟨mem_ids_of_child htc hi, fun hm => ?_⟩⟩
    rw [ids_eq] at hm
    rcases List.mem_cons.1 hm with he | hm
    · exact id_not_mem_child hd htc (he ▸ hi)
    · obtain ⟨k, hk, hm⟩ := List.mem_flatMap.1 hm
      cases List.mem_singleton.1 hk
      have hids : { parts.opening with label := .openingTag true : Node }.ids =
          parts.opening.ids := by
        rw [ids_eq, ids_eq parts.opening]
      rw [hids] at hm
      cases child_eq_of_mem_ids hd hmem htc hm hi
      have hidle := hidle parts.opening parts.opening.self_mem_walk
      rw [ho] at hidle
      cases hidle
  · exact .inl ht

end Rule
end JsxLint
