import JsxLint.Proofs.Rule.Markup
import JsxLint.Proofs.Workspace.Introducing
import JsxLint.Proofs.Workspace.Renaming
import JsxLint.Rule.ListKey

/-!
# Keys for elements of lists

The repair that keys an element brings in parameters, an attribute and a reference. The parameters
fit where they are declared, and nothing else is new to the table but the reference.

* `Node.Survives`: every node of a tree is still there;
* `Workspace.Sound.refer`: one reference more;
* `Rule.ListKey.fits_of_introductionConflict?`: what the repair checks is enough;
* `Rule.ListKey.repair_step`: a new key keeps what names refer to.
-/

namespace JsxLint

open Node

namespace Node

variable {id : NodeId} {edit : Node → Node} {n n' n'' root : Node} {above : List Node}

/-- Whether every node of a tree is also in another one, with a label of the same form. -/
def Survives (n n' : Node) : Prop :=
  ∀ l ∈ n.walk, ∃ l' ∈ n'.walk, l'.id = l.id ∧ l'.label.form = l.label.form

theorem Survives.refl (n : Node) : n.Survives n :=
  fun l hl => ⟨l, hl, rfl, rfl⟩

theorem Survives.trans (h : n.Survives n') (h' : n'.Survives n'') : n.Survives n'' := by
  intro l hl
  obtain ⟨l', hl', hid, hform⟩ := h l hl
  obtain ⟨l'', hl'', hid', hform'⟩ := h' l' hl'
  exact ⟨l'', hl'', hid'.trans hid, hform'.trans hform⟩

theorem Survives.modify (h : ∀ m ∈ n.walk, m.id = id → m.Survives (edit m)) :
    n.Survives (n.modify id edit) := by
  induction n using induct with
  | step n ih =>
    by_cases hid : n.id = id
    · rw [modify_eq, if_pos hid]
      exact h n n.self_mem_walk hid
    · rw [modify_of_ne hid]
      intro l hl
      rcases mem_walk.1 hl with rfl | ⟨c, hc, hl⟩
      · exact ⟨_, self_mem_walk _, rfl, rfl⟩
      · obtain ⟨l', hl', he⟩ := ih c hc (fun m hm => h m (mem_walk_of_child hc hm)) l hl
        exact ⟨l', mem_walk_of_child (List.mem_map_of_mem hc) hl', he⟩

/-- A node with more children. -/
theorem Survives.of_subset {label : Label} {children : List Node}
    (hform : label.form = n.label.form) (hc : n.children ⊆ children) :
    n.Survives { n with label := label, children := children } := by
  intro l hl
  rcases mem_walk.1 hl with rfl | ⟨c, hcn, hl⟩
  · exact ⟨_, self_mem_walk _, rfl, hform⟩
  · exact ⟨l, mem_walk_of_child (n := { n with label := label, children := children }) (hc hcn) hl,
      rfl, rfl⟩

/-- The scopes around a node are opened by nodes above it, in that order. -/
theorem regionsAbove_sublist (hp : root.Path above n) (hne : above ≠ [])
    (hl : root.label = .program) :
    ((regionsAbove above ++ root.program).map (·.node)).Sublist (above.map (·.id)) := by
  induction hp with
  | root => exact absurd rfl hne
  | @child above m c hp hc ih =>
    rw [regionsAbove, List.append_assoc, List.map_append, List.map_cons]
    cases above with
    | nil =>
      cases hp
      have hr : root.region? (isInFunction []) = none := by
        rw [region?.eq_def, hl]
      rw [hr]
      exact List.Sublist.refl [root.id]
    | cons b above =>
      have hself : ((m.region? (isInFunction (b :: above))).toList.map (·.node)).Sublist [m.id] := by
        cases hr : m.region? (isInFunction (b :: above)) with
        | none => exact List.nil_sublist _
        | some r =>
          rw [Option.toList_some, List.map_singleton, region?_node hr]
      exact hself.append (ih (List.cons_ne_nil _ _))

/-- A node further up is not below one that is nearer. -/
theorem Path.outer {x y : Node} (hp : root.Path above n) (hd : root.ids.Nodup)
    (hs : [x, y].Sublist above) : ∃ outermost, root.Path outermost y ∧
      x.id ≠ y.id ∧ x.id ∉ outermost.map (·.id) := by
  obtain ⟨before, after, hsplit, hxb, hya⟩ := List.cons_sublist_iff.1 hs
  obtain ⟨middle, outermost, rfl⟩ := List.append_of_mem (List.singleton_sublist.1 hya)
  have hnd := (List.nodup_cons.1 (hp.nodup hd)).2
  rw [hsplit, List.map_append] at hnd
  have hdisjoint := (List.nodup_append.1 hnd).2.2 x.id (List.mem_map_of_mem hxb)
  rw [List.map_append, List.map_cons] at hdisjoint
  have hp : root.Path ((before ++ middle) ++ y :: outermost) n := by
    rw [List.append_assoc, ← hsplit]
    exact hp
  exact ⟨outermost, hp.split, hdisjoint _ (List.mem_append_right _ List.mem_cons_self),
    fun hm => hdisjoint _ (List.mem_append_right _ (List.mem_cons_of_mem _ hm)) rfl⟩

end Node

namespace Workspace

variable {w : Workspace} {start i : NodeId} {s r : ScopeId} {b : BindingId} {B : Binding} {u : Use}

/-- One reference more, of an identifier that was made. -/
theorem Sound.refer (h : w.Sound start) (hb : w.scopes.bindings[b]? = some B)
    (hi : w.scopes.bindingOf? i = none) (hu : i ∉ w.scopes.unresolved) (hstart : start ≤ i)
    (hlt : i < w.document.fresh)
    (hm : ∀ m ∈ w.document.root.walk, m.id = i → m.label.isIdentifier ∧ m.text = B.name) :
    Step start w { w with scopes := w.scopes.refer b i s } := by
  have hof := ScopeTable.refer_bindingOf? (b := b) (s := s) hi
  refine ⟨⟨h.formed, h.fresh, h.lists.refer hb hi hu, h.regions, fun u hu hs hd => ?_,
    fun j hj => ?_, fun m hmw hj => ?_, fun u hu hd c C hc hC => ?_⟩, .refl _, fun j hj => ?_⟩
  · obtain ⟨r, hr⟩ := h.knows u hu hs hd
    have hne : u.identifier ≠ i := Nat.ne_of_lt (Nat.lt_of_lt_of_le hs hstart)
    refine ⟨r, hr.keep rfl ((hof _).trans (if_neg hne)) ?_ fun j hj => hj⟩
    exact (lookup_cons_if ..).trans (if_neg hne)
  · rw [hof] at hj
    split_ifs at hj with he
    · exact he ▸ hlt
    · exact h.lt_fresh j hj
  · rw [hof] at hj
    split_ifs at hj with he
    · exact .inr (hm m hmw he).1
    · exact h.named m hmw hj
  · have hbindings : ∀ C, (w.scopes.bindings.modify b fun binding =>
        { binding with references := binding.references ++ [i] })[c]? = some C →
        ∃ D, w.scopes.bindings[c]? = some D ∧ C.name = D.name := by
      intro C hC
      rw [List.getElem?_modify] at hC
      obtain ⟨D, hD, rfl⟩ := Option.map_eq_some_iff.1 hC
      refine ⟨D, hD, ?_⟩
      split_ifs <;> rfl
    obtain ⟨D, hD, hname⟩ := hbindings C hC
    rw [hname]
    rw [hof] at hc
    split_ifs at hc with he
    · cases hc
      rw [hb] at hD
      cases hD
      obtain ⟨above, m, hp, -, hid, htext, -⟩ := Document.exists_of_mem_uses hu
      exact htext.symm.trans (hm m hp.mem_walk (hid.trans he)).2
    · exact h.spelled u hu hd c D hc hD
  · rw [ScopeTable.declaration?, ScopeTable.declaration?, hof,
      if_neg (Nat.ne_of_lt (Nat.lt_of_lt_of_le hj hstart))]
    congr 1
    funext c
    show ((w.scopes.bindings.modify b _)[c]?).map _ = (w.scopes.bindings[c]?).map _
    rw [List.getElem?_modify]
    cases w.scopes.bindings[c]? with
    | none => rfl
    | some C =>
      dsimp only [Option.map_some, Option.map_eq_map]
      split_ifs <;> rfl

end Workspace

/-- The scopes of a chain are opened by the nodes of the scopes around its first. -/
theorem ScopeTable.Around.nodes {t : ScopeTable} {r : ScopeId} {c : List Region}
    (h : t.Around r c) : (t.chain r).map t.nodeOf? = (c.map (·.node)).map some := by
  have hchain := h.chain
  generalize t.chain r = ss at hchain
  clear h
  induction hchain with
  | nil => rfl
  | cons hr _ ih =>
    rw [List.map_cons, List.map_cons, List.map_cons, ← ih, ScopeTable.nodeOf?, hr]
    rfl

namespace Workspace

variable {w : Workspace} {start : NodeId} {s r t : ScopeId} {u : Use} {above : List Node} {m : Node}

/-- Scopes around a use, in their order, are opened by nodes above it. -/
theorem Sound.exists_above (h : w.Sound start) (hr : w.scopes.Refers u r)
    (hp : w.document.root.Path above m) (hi : m.label.isIdentifier)
    (ha : u.around = regionsAbove above ++ w.document.root.program) {l : List ScopeId}
    (hl : l.Sublist (w.scopes.chain r)) :
    ∃ xs : List Node, xs.Sublist above ∧ l.map w.scopes.nodeOf? = xs.map (fun x => some x.id) ∧
      xs.length = l.length := by
  have hne : above ≠ [] := by
    rintro rfl
    cases hp
    rw [h.formed.root.program] at hi
    cases hi
  have hnodes := hr.around.nodes.trans (congrArg (fun c => (List.map (·.node) c).map some) ha)
  have habove := regionsAbove_sublist hp hne h.formed.root.program
  have hsub := (hnodes ▸ hl.map w.scopes.nodeOf?).trans (habove.map some)
  rw [List.map_map] at hsub
  obtain ⟨xs, hxs, he⟩ := List.sublist_map_iff.1 hsub
  exact ⟨xs, hxs, he, by simpa using (congrArg List.length he).symm⟩

/-- A node further up is neither one that is nearer nor below it. -/
theorem Sound.not_inside (h : w.Sound start) (hp : w.document.root.Path above m) {x y : Node}
    (hs : [x, y].Sublist above) : w.document.node? y.id = some y ∧
      ¬(y.id = x.id ∨ w.document.isBelow y x.id) := by
  obtain ⟨outermost, hpath, hne, hout⟩ := hp.outer h.formed.root.nodup hs
  refine ⟨h.formed.node?_eq hpath.mem_walk, ?_⟩
  rw [Document.isBelow, h.formed.ancestors_eq hpath, List.any_eq_true]
  rintro (hinside | ⟨l, hl, hlid⟩)
  · exact hne hinside.symm
  · exact hout (beq_iff_eq.1 hlid ▸ List.mem_map_of_mem hl)

end Workspace

namespace Rule.ListKey

variable {w w' : Workspace} {start : NodeId} {s : ScopeId} {callback n : Node} {name : String}
  {parts : FunctionParts}

/-- A name keeps its meaning when it is bound in the callback or further in. -/
theorem exists_of_shadowing? {m : Node} (h : shadowing? w callback name m = none) :
    ∃ b B owner, w.scopes.bindingOf? m.id = some b ∧ w.scopes.bindings[b]? = some B ∧
      (w.scopes.nodeOf? B.scope).bind w.document.node? = some owner ∧
        (owner.id = callback.id ∨ w.document.isBelow owner callback.id) := by
  rw [shadowing?, Workspace.bindingOf?] at h
  cases hb : w.scopes.bindingOf? m.id with
  | none =>
    rw [hb] at h
    cases h
  | some b =>
    cases hB : w.scopes.bindings[b]? with
    | none =>
      rw [hb, Option.bind_some, hB] at h
      cases h
    | some B =>
      rw [hb, Option.bind_some, hB] at h
      dsimp only [Option.map_some] at h
      split_ifs at h with hinside
      obtain ⟨hsome, hinside⟩ := (Option.any_eq_true_iff_get _ _).1 hinside
      refine ⟨b, B, Option.get _ hsome, rfl, hB, ?_, ?_⟩
      · rw [ScopeTable.nodeOf?_eq, Option.bind_map]
        exact (Option.some_get hsome).symm
      · rwa [Bool.or_eq_true, decide_eq_true_iff] at hinside

/-- A name that the repair has nothing against fits. -/
theorem fits_of_introductionConflict? (h : w.Sound start) (hc : callback ∈ w.document.root.walk)
    (hs : w.scopes.nodeOf? s = some callback.id)
    (hn : introductionConflict? w callback s name = none) : w.Fits start s name := by
  rw [introductionConflict?] at hn
  split_ifs at hn with hfree
  refine ⟨Option.not_isSome_iff_eq_none.1 hfree, fun u hu hlt hname hd => ?_⟩
  obtain ⟨r, hr⟩ := h.knows u hu hlt hd
  refine ⟨r, hr, fun hmem => ?_⟩
  obtain ⟨above, m, hp, hi, hid, htext, ha⟩ := Document.exists_of_mem_uses hu
  -- the identifier is in the callback, so the repair looked at what it finds
  obtain ⟨xs, hxs, he, hl⟩ := h.exists_above hr hp hi ha
    (List.singleton_sublist.2 ((List.takeWhile_sublist _).subset hmem))
  obtain ⟨x, rfl⟩ := List.length_eq_one_iff.1 hl
  have hxa := List.singleton_sublist.1 hxs
  have hx : x.id = callback.id := by simpa [hs] using he.symm
  cases eq_of_id_eq h.formed.root.nodup (hp.above_mem_walk hxa) hc hx
  have hnamed : m ∈ callback.identifiersNamed name := List.mem_filter.2 ⟨hp.mem_walk_above hxa, by
    simp [hi, htext, hname]⟩
  obtain ⟨b, B, owner, hb, hB, howner, hinside⟩ :=
    exists_of_shadowing? (List.findSome?_eq_none_iff.1 hn m hnamed)
  rw [hid, hr.binding, hname] at hb
  -- the scope with the name is further out than the one of the callback
  obtain ⟨before, t, after, hchain, hbound, hbefore⟩ := List.findSome?_eq_some_iff.1 hb
  obtain ⟨C, hC, rfl, -⟩ := (h.lists.bound_iff t name b).1 hbound
  rw [hB] at hC
  cases hC
  rw [hchain, List.takeWhile_append_of_pos fun c hc => by rw [hbefore c hc]; rfl,
    List.takeWhile_cons, hbound, if_neg (by simp), List.append_nil] at hmem
  obtain ⟨ys, hys, he, hl⟩ := h.exists_above hr hp hi ha (l := [s, B.scope]) (hchain ▸
    List.cons_sublist_iff.2 ⟨before, _, rfl, hmem, List.singleton_sublist.2 List.mem_cons_self⟩)
  obtain ⟨x', y, rfl⟩ := List.length_eq_two.1 hl
  simp only [List.map_cons, List.map_nil, hs, List.cons.injEq, Option.some.injEq, and_true] at he
  obtain ⟨hy, hout⟩ := h.not_inside hp hys
  rw [he.2, Option.bind_some, hy] at howner
  cases howner
  exact hout (he.1 ▸ hinside)

/-! ### Parameters -/

/-- Whether a node stands for the list of parameters of a function that opens a scope. -/
def Owns (w : Workspace) (s : ScopeId) (parameters : Node) : Prop :=
  ∃ n ∈ w.document.root.walk, ∃ parts, n.function? = some parts ∧
    w.scopes.nodeOf? s = some n.id ∧ parts.parameters.id = parameters.id ∧
    parts.parameters.place = parameters.place

variable {parameters : Node}

/-- A parameter that fits is declared and leaves everything where it is. -/
theorem addParameter_step (h : w.Sound start) (ho : Owns w s parameters)
    (hfits : w.Fits start s name) :
    Workspace.Step start w (addParameter parameters s w name) ∧
      Owns (addParameter parameters s w name) s parameters ∧
      w.document.root.Survives (addParameter parameters s w name).document.root ∧
      ∀ other, other ≠ name → w.Fits start s other →
        (addParameter parameters s w name).Fits start s other := by
  obtain ⟨n, hn, parts, hf, hs, hid, hplace⟩ := ho
  have hdeclares := Document.addParameter_declares h.formed hn hf name
  have heq : addParameter parameters s w name =
      ⟨(w.document.addParameter parts.parameters (Node.made (.identifier name name none) [])).2,
        (w.scopes.declare s w.document.fresh name "param").2⟩ := by
    rw [addParameter, Document.addParameter_eq, madeIdentifier, Document.addParameter_eq, hid, hplace]
    rfl
  rw [heq]
  refine ⟨h.declare hdeclares hs hfits, ?_, ?_, fun other hne hother => ?_⟩
  · rw [Document.addParameter_eq]
    have hpn := parameters_mem_children hf
    have hd := nodup_of_mem h.formed.root.nodup hn
    generalize Document.placedIdentifier w.document.fresh parts.parameters.id
      parts.parameters.place.position name = k
    refine ⟨n.modify parts.parameters.id (·.withParameter k), ?_, _,
      function?_modifyParameters hd hf _, ?_, hid, hplace⟩
    · show _ ∈ (w.document.root.modify parts.parameters.id (·.withParameter k)).walk
      rw [modify_below h.formed.root.nodup hn (mem_ids_of_child hpn (id_mem_ids (self_mem_walk _)))]
      exact mem_walk_modify_of_edit h.formed.root.nodup hn (self_mem_walk _)
    · rw [ScopeTable.nodeOf?_congr (ScopeTable.declare_skeleton ..), hs,
        modify_of_ne (parameters_ne hd hf)]
      rfl
  · refine Survives.modify fun m _ _ => ?_
    exact .of_subset rfl (List.subset_append_left _ _)
  · refine hother.declare (ScopeTable.lt_of_nodeOf? hs) hfits.free hne h.fresh fun u hu hlt => ?_
    exact (hdeclares.uses u hu).resolve_left (Nat.not_le.2 (Nat.lt_of_lt_of_le hlt h.fresh))

/-- Parameters that fit are declared one after the other. -/
theorem addParameters_step {names : List String} (h : w.Sound start) (ho : Owns w s parameters)
    (hd : names.Nodup) (hfits : ∀ x ∈ names, w.Fits start s x) :
    Workspace.Step start w (names.foldl (addParameter parameters s) w) ∧
      Owns (names.foldl (addParameter parameters s) w) s parameters ∧
      w.document.root.Survives (names.foldl (addParameter parameters s) w).document.root := by
  induction names generalizing w with
  | nil => exact ⟨.refl h, ho, .refl _⟩
  | cons name names ih =>
    rw [List.nodup_cons] at hd
    obtain ⟨h1, ho1, hs1, hfits1⟩ := addParameter_step h ho (hfits name List.mem_cons_self)
    obtain ⟨h2, ho2, hs2⟩ := ih h1.sound ho1 hd.2 fun x hx =>
      hfits1 x (fun he => hd.1 (he ▸ hx)) (hfits x (List.mem_cons_of_mem _ hx))
    exact ⟨h1.trans h2, ho2, hs1.trans hs2⟩

theorem missingNames_nodup (ns : List Node) : (missingNames ns).Nodup := by
  rw [missingNames]
  split <;> decide

/-- The list of parameters gets parentheses. -/
theorem parenthesized_step (h : w.Sound start) (ho : Owns w s parameters) :
    Workspace.Step start w
        { w with document := w.document.modifyLabel parameters.id fun _ => .parameters true } ∧
      w.document.root.Survives
        (w.document.modifyLabel parameters.id fun _ => .parameters true).root := by
  obtain ⟨n, hn, parts, hf, -, hid, -⟩ := ho
  have hform := (h.formed.root.shaped n hn).parameters parts hf
  obtain ⟨parenthesized, hl⟩ := parameters_of_form hform
  have hpn := parameters_mem_children hf
  have hpr := mem_walk_trans (child_mem_walk hpn) hn
  have hkeep : (Label.parameters true).form = parts.parameters.label.form := by
    rw [hl]
    rfl
  have hseen : Seen w.document.fresh parts.parameters
      { parts.parameters with label := .parameters true } :=
    .of_quiet (by rw [hl]; rfl) rfl rfl rfl (fun _ _ => rfl) (fun _ _ => rfl)
      (fun _ _ _ hu => .inr hu) (.setLabel hkeep (by
        rw [isEmptyContainer.eq_def, hl]
        exact Bool.false_ne_true))
  have hdetached : (w.document.modifyLabel parts.parameters.id fun _ => .parameters true).detached =
      w.document.detached := h.formed.detached_modify (id_mem_ids hpr)
  rw [← hid]
  refine ⟨h.modify hpr rfl
    (.setLabel h.formed.root hpr (shaped_of_loose rfl) hkeep (by
      rw [hl]
      exact fun hi => hi)) (h.seen hpr hseen) fun t ht => .inl (hdetached ▸ ht), ?_⟩
  refine Survives.modify fun m hm he => ?_
  obtain rfl := eq_of_id_eq h.formed.root.nodup hm hpr he
  exact .of_subset hkeep fun k hk => hk

theorem plainIdentifier?_mem_walk {index : Node} (h : plainIdentifier? n = some index) :
    index ∈ n.walk := by
  rw [plainIdentifier?] at h
  split_ifs at h
  · cases h
    exact self_mem_walk _
  · exact child_mem_walk (part?_mem (Option.filter_eq_some_iff.1 h).1)

/-- The identifier of the second parameter. -/
def index? (parameters : List Node) : Option Node :=
  parameters[1]?.bind plainIdentifier?

/-- The workspace with parameters of the given names, all of them in parentheses. -/
def withParameters (w : Workspace) (parameters : Node) (s : ScopeId) (names : List String) :
    Workspace :=
  let added := names.foldl (addParameter parameters s) w
  { added with document := added.document.modifyLabel parameters.id fun _ => .parameters true }

/-- A callback with two parameters is left as it is; others get what they lack, unless that would
change what a name refers to. -/
theorem withIndex_cases {b : Option BindingId}
    (hr : withIndex w callback parameters s = .ok (w', name, b)) :
    (¬parameters.children.length < 2 ∧ w' = w ∧ ∃ index, index? parameters.children = some index ∧
      name = index.text ∧ b = w.scopes.bindingOf? index.id) ∨
    (parameters.children.length < 2 ∧
      (∀ x ∈ missingNames parameters.children, introductionConflict? w callback s x = none) ∧
      w' = withParameters w parameters s (missingNames parameters.children) ∧ name = indexName ∧
      b = w'.scopes.bound? s indexName) := by
  rw [withIndex] at hr
  split at hr
  · next first second rest hchildren =>
    split at hr
    · cases hr
    · next index hi =>
      cases hr
      rw [hchildren]
      exact .inl ⟨by simp, rfl, index, hi, rfl, rfl⟩
  · next hnot =>
    split at hr
    · cases hr
    · next hnone =>
      cases hr
      refine .inr ⟨Nat.lt_of_not_le fun hle => ?_, List.findSome?_eq_none_iff.1 hnone, rfl, rfl, rfl⟩
      match hc : parameters.children with
      | first :: second :: rest => exact hnot first second rest hc
      | [] => simp [hc] at hle
      | [_] => simp [hc] at hle

/-- What the repair does to the parameters keeps what names refer to. -/
theorem withIndex_step {b : Option BindingId} (h : w.Sound start)
    (hcallback : callback ∈ w.document.root.walk) (hs : w.scopes.nodeOf? s = some callback.id)
    (hf : callback.function? = some parts)
    (hr : withIndex w callback parts.parameters s = .ok (w', name, b)) :
    Workspace.Step start w w' ∧ w.document.root.Survives w'.document.root ∧
      ∀ c, b = some c → ∃ B, w'.scopes.bindings[c]? = some B ∧ B.name = name := by
  rcases withIndex_cases hr with ⟨-, rfl, index, hi, rfl, rfl⟩ | ⟨-, hnone, rfl, rfl, rfl⟩
  · refine ⟨.refl h, .refl _, fun c hc => ?_⟩
    obtain ⟨B, hB⟩ := h.lists.exists_binding hc
    obtain ⟨second, hsecond, hi⟩ := Option.bind_eq_some_iff.1 hi
    have hindex : index ∈ w'.document.root.walk :=
      mem_walk_trans (plainIdentifier?_mem_walk hi) (mem_walk_trans (mem_walk_of_child
        (parameters_mem_children hf) (child_mem_walk (List.mem_of_getElem? hsecond))) hcallback)
    exact ⟨B, hB, (h.text_eq hB hindex hc).symm⟩
  · have ho : Owns w s parts.parameters := ⟨callback, hcallback, parts, hf, hs, rfl, rfl⟩
    have hfits : ∀ x ∈ missingNames parts.parameters.children, w.Fits start s x := fun x hx =>
      fits_of_introductionConflict? h hcallback hs (hnone x hx)
    obtain ⟨h1, ho1, hs1⟩ := addParameters_step h ho (missingNames_nodup _) hfits
    obtain ⟨h2, hs2⟩ := parenthesized_step h1.sound ho1
    refine ⟨h1.trans h2, hs1.trans hs2, fun c hc => ?_⟩
    obtain ⟨B, hB, -, hname⟩ := (h2.sound.lists.bound_iff _ _ _).1 hc
    exact ⟨B, hB, hname⟩

/-! ### Attributes -/

/-- A `key` attribute that was made and placed. -/
def placedKey (id parent : NodeId) (position : Position) (name : String) : Node :=
  ⟨id, some parent, ⟨none, position⟩, .markupAttribute,
    [⟨id + 1, some id, ⟨none, position⟩, .markupName "key", []⟩,
      ⟨id + 2, some id, ⟨none, position⟩, .container false,
        [Document.placedIdentifier (id + 3) (id + 2) position name]⟩]⟩

/-- An opening tag with one more attribute, the first one. -/
def withAttribute (n k : Node) : Node :=
  match n.children with
  | tag :: attributes => { n with children := tag :: k :: attributes }
  | [] => n

theorem insertAttribute_eq (d : Document) (opening : Node) (name : String) :
    d.insertAttribute opening 0 (keyAttribute name) =
      (placedKey d.fresh opening.id opening.place.position name,
        { d with fresh := d.fresh + 4 }.modify opening.id
          (withAttribute · (placedKey d.fresh opening.id opening.place.position name))) := by
  have hinsert : ∀ (attributes : List Node) (k : Node),
      Document.insertAt attributes 0 k = k :: attributes := by
    intro attributes k
    have hpoint : Document.insertionPoint attributes.length 0 = 0 := by
      simp [Document.insertionPoint]
    rw [Document.insertAt, hpoint]
    rfl
  rw [Document.insertAttribute]
  simp only [hinsert]
  rfl

theorem insertKey_document (w : Workspace) (element opening : Node) (name : String)
    (b : Option BindingId) : (insertKey w element opening name b).document =
      (w.document.insertAttribute opening 0 (keyAttribute name)).2 := by
  rw [insertKey]
  dsimp only
  split <;> rfl

section Placed

variable {id parent : NodeId} {position : Position}

theorem placedKey_walk : (placedKey id parent position name).walk =
    [placedKey id parent position name, ⟨id + 1, some id, ⟨none, position⟩, .markupName "key", []⟩,
      ⟨id + 2, some id, ⟨none, position⟩, .container false,
        [Document.placedIdentifier (id + 3) (id + 2) position name]⟩,
      Document.placedIdentifier (id + 3) (id + 2) position name] :=
  rfl

theorem placedKey_linked : (placedKey id parent position name).Linked := by
  intro m hm c hc
  rw [placedKey_walk] at hm
  simp only [List.mem_cons, List.not_mem_nil, or_false] at hm
  rcases hm with rfl | rfl | rfl | rfl
  · rcases List.mem_cons.1 hc with rfl | hc
    · rfl
    · cases List.mem_singleton.1 hc
      rfl
  · cases hc
  · cases List.mem_singleton.1 hc
    rfl
  · cases hc

theorem placedKey_shaped : ∀ m ∈ (placedKey id parent position name).walk, m.Shaped := by
  intro m hm
  rw [placedKey_walk] at hm
  simp only [List.mem_cons, List.not_mem_nil, or_false] at hm
  rcases hm with rfl | rfl | rfl | rfl
  · refine ⟨fun h => (by cases h), fun _ h => (by cases h), fun _ h => (by cases h), ?_,
      fun _ h => (by cases h), fun _ h => (by cases h)⟩
    intro name value h
    cases h
    rfl
  · exact ⟨fun _ => rfl, fun _ h => (by cases h), fun _ h => (by cases h),
      fun _ _ h => (by cases h), fun _ h => (by cases h), fun _ h => (by cases h)⟩
  · exact shaped_of_loose rfl
  · exact ⟨fun _ => rfl, fun _ h => (by cases h), fun _ h => (by cases h),
      fun _ _ h => (by cases h), fun _ h => (by cases h), fun _ h => (by cases h)⟩

theorem placedKey_uses {f : Bool} {c : List Region} {u : Use}
    (hu : u ∈ (placedKey id parent position name).uses f c) : id ≤ u.identifier := by
  cases List.mem_singleton.1 hu
  exact Nat.le_add_right id 3

end Placed

variable {d : Document} {o opening element : Node}

theorem withAttribute_cases (n k : Node) : withAttribute n k = n ∨
    ∃ tag attributes, n.children = tag :: attributes ∧
      withAttribute n k = { n with children := [tag] ++ k :: attributes } := by
  rw [withAttribute]
  cases hc : n.children with
  | nil => exact .inl rfl
  | cons tag attributes => exact .inr ⟨tag, attributes, rfl, rfl⟩

/-- An opening tag gets an attribute that was made for it. -/
theorem edited_withAttribute {position : Position} (h : d.root.Formed d.fresh)
    (hn : n ∈ d.root.walk) (hform : n.label.form = "JSXOpeningElement") :
    n.Edited d.fresh (d.fresh + 4) (withAttribute n (placedKey d.fresh n.id position name)) := by
  obtain ⟨selfClosing, hl⟩ := openingTag_of_form hform
  rcases withAttribute_cases n (placedKey d.fresh n.id position name) with
    heq | ⟨tag, attributes, hc, heq⟩
  · rw [heq]
    refine ⟨.refl n, fun hl => hl, ⟨[], by rw [List.append_nil], List.nodup_nil, fun i hi => ?_⟩,
      Nat.le_add_right _ 4, h.linked.of_mem hn, fun m hm => h.shaped m (mem_walk_trans hm hn),
      fun hi => hi⟩
    cases hi
  · rw [heq]
    have hids : (placedKey d.fresh n.id position name).ids =
        [d.fresh, d.fresh + 1, d.fresh + 2, d.fresh + 3] := rfl
    refine .insert h hn hc (Nat.le_add_right _ 4) ?_ ?_ rfl placedKey_linked placedKey_shaped
      (shaped_of_loose (by rw [hl]; rfl)) (by rw [hl]; exact Bool.false_ne_true)
    · rw [hids]
      simp
    · intro i hi
      rw [hids] at hi
      simp only [List.mem_cons, List.not_mem_nil, or_false] at hi
      rcases hi with rfl | rfl | rfl | rfl <;>
        simp

/-- The table sees the same of an opening tag with an attribute that was made. -/
theorem withAttribute_seen {fresh parent : NodeId} {position : Position}
    (hform : n.label.form = "JSXOpeningElement") :
    Seen fresh n (withAttribute n (placedKey fresh parent position name)) := by
  obtain ⟨selfClosing, hl⟩ := openingTag_of_form hform
  have hq : n.label.isQuiet := by
    rw [hl]
    rfl
  rcases withAttribute_cases n (placedKey fresh parent position name) with
    heq | ⟨tag, attributes, hc, heq⟩
  · rw [heq]
    exact ⟨rfl, fun _ _ => rfl, fun _ _ => rfl, fun _ _ _ hu => .inr hu, .refl _ _⟩
  · rw [heq]
    refine .of_quiet hq hq rfl ?_ (fun f c => ?_) (fun f c => ?_) (fun f c u hu => ?_)
      fun m hm hlt => ?_
    · rw [hc]
      rfl
    · rw [hc]
      rfl
    · rw [hc]
      rfl
    · rw [hc]
      simp only [List.flatMap_append, List.flatMap_cons, List.mem_append] at hu ⊢
      rcases hu with (hu | hu) | hu | hu
      · exact .inr (.inl hu)
      · cases hu
      · exact .inl (placedKey_uses hu)
      · exact .inr (.inr hu)
    · rcases mem_walk.1 hm with rfl | ⟨k, hk, hmk⟩
      · refine ⟨n, self_mem_walk n, rfl, rfl, fun he => ?_⟩
        rw [isEmptyContainer.eq_def, hl] at he
        exact absurd he Bool.false_ne_true
      · have hk : k = tag ∨ k = placedKey fresh parent position name ∨ k ∈ attributes := by
          simpa using hk
        rcases hk with rfl | rfl | hk
        · exact ⟨m, mem_walk_of_child (hc ▸ List.mem_cons_self) hmk, rfl, rfl, fun he => he⟩
        · rw [placedKey_walk] at hmk
          simp only [List.mem_cons, List.not_mem_nil, or_false] at hmk
          exfalso
          rcases hmk with rfl | rfl | rfl | rfl
          · exact Nat.lt_irrefl _ hlt
          · exact absurd hlt (Nat.not_lt.2 (Nat.le_add_right _ 1))
          · exact absurd hlt (Nat.not_lt.2 (Nat.le_add_right _ 2))
          · exact absurd hlt (Nat.not_lt.2 (Nat.le_add_right _ 3))
        · exact ⟨m, mem_walk_of_child (hc ▸ List.mem_cons_of_mem _ hk) hmk, rfl, rfl,
            fun he => he⟩

/-- What a key that was made holds under its last name is the identifier. -/
theorem withAttribute_made {fresh parent : NodeId} {position : Position} {m : Node}
    (hm : m ∈ (withAttribute n (placedKey fresh parent position name)).walk)
    (he : m.id = fresh + 3) (hold : ∀ l ∈ n.walk, l.id ≠ fresh + 3) :
    m.label.isIdentifier ∧ m.text = name := by
  rcases withAttribute_cases n (placedKey fresh parent position name) with
    heq | ⟨tag, attributes, hc, heq⟩ <;> rw [heq] at hm
  · exact absurd he (hold m hm)
  have hchild : ∀ k ∈ tag :: attributes, m ∉ k.walk := fun k hk hmk =>
    hold m (mem_walk_of_child (hc ▸ hk) hmk) he
  rcases mem_walk.1 hm with rfl | ⟨k, hk, hmk⟩
  · exact absurd he (hold n n.self_mem_walk)
  rcases List.mem_cons.1 hk with rfl | hk
  · exact absurd hmk (hchild k List.mem_cons_self)
  rcases List.mem_cons.1 hk with rfl | hk
  · rw [placedKey_walk] at hmk
    simp only [List.mem_cons, List.not_mem_nil, or_false] at hmk
    rcases hmk with rfl | rfl | rfl | rfl
    · exact absurd he (by simp [placedKey])
    · exact absurd he (by simp)
    · exact absurd he (by simp)
    · exact ⟨rfl, rfl⟩
  · exact absurd hmk (hchild k (List.mem_cons_of_mem _ hk))

section InsertKey

variable (h : w.Sound start) (ho : o ∈ w.document.root.walk) (hid : o.id = opening.id)

variable (name) in
include hid in
/-- The opening tag gets the key, nothing else changes. -/
theorem insertAttribute_root : (w.document.insertAttribute opening 0 (keyAttribute name)).2.root =
    w.document.root.modify o.id
      (withAttribute · (placedKey w.document.fresh o.id opening.place.position name)) := by
  rw [insertAttribute_eq, hid]
  rfl

include h ho hid

variable (name) in
/-- A key that is put in keeps what names refer to. -/
theorem insertAttribute_step (hform : o.label.form = "JSXOpeningElement") :
    Workspace.Step start w
      { w with document := (w.document.insertAttribute opening 0 (keyAttribute name)).2 } := by
  have hdetached : (w.document.insertAttribute opening 0 (keyAttribute name)).2.detached =
      w.document.detached := by
    rw [insertAttribute_eq, ← hid]
    exact h.formed.detached_modify (id_mem_ids ho)
  have hfresh : (w.document.insertAttribute opening 0 (keyAttribute name)).2.fresh =
      w.document.fresh + 4 := by
    rw [insertAttribute_eq]
    rfl
  have hroot := insertAttribute_root (w := w) name hid
  exact h.modify ho hroot (hfresh ▸ edited_withAttribute h.formed.root ho hform)
    (hroot ▸ h.seen ho (withAttribute_seen hform)) fun t ht => .inl (hdetached ▸ ht)

variable (name) in
/-- The name that was made last is the one of the identifier in the key. -/
theorem insertAttribute_made {m : Node}
    (hm : m ∈ (w.document.insertAttribute opening 0 (keyAttribute name)).2.root.walk)
    (he : m.id = w.document.fresh + 3) : m.label.isIdentifier ∧ m.text = name := by
  have hold : ∀ l ∈ w.document.root.walk, l.id ≠ w.document.fresh + 3 := fun l hl he =>
    absurd (h.formed.root.lt_fresh _ (id_mem_ids hl)) (he ▸ Nat.not_lt.2 (Nat.le_add_right _ 3))
  rw [insertAttribute_root name hid] at hm
  rcases mem_walk_modify hm with ⟨l, hl, hne, rfl⟩ | ⟨l, hl, hl', hm⟩
  · rw [modify_of_ne hne] at he
    exact absurd he (hold l hl)
  · cases eq_of_id_eq h.formed.root.nodup hl ho hl'
    exact withAttribute_made hm he fun k hk => hold k (mem_walk_trans hk hl)

/-- What the repair does to the opening tag keeps what names refer to. -/
theorem insertKey_step {b : Option BindingId}
    (hb : ∀ c, b = some c → ∃ B, w.scopes.bindings[c]? = some B ∧ B.name = name)
    (hform : o.label.form = "JSXOpeningElement") :
    Workspace.Step start w (insertKey w element opening name b) := by
  have hstep := insertAttribute_step name h ho hid hform
  have hmade := fun m => insertAttribute_made (m := m) name h ho hid
  have hreference : keyReference? (placedKey w.document.fresh opening.id opening.place.position
      name) = some (w.document.fresh + 3) := rfl
  rw [insertAttribute_eq] at hstep hmade
  rw [insertKey, insertAttribute_eq]
  dsimp only at hstep hmade ⊢
  rw [hreference]
  cases b with
  | none => exact hstep
  | some b =>
    obtain ⟨B, hB, rfl⟩ := hb b rfl
    have hlt : ¬w.document.fresh + 3 < w.document.fresh := Nat.not_lt.2 (Nat.le_add_right _ 3)
    refine hstep.trans (hstep.sound.refer hB ?_ ?_ ?_ ?_ hmade)
    · exact Option.not_isSome_iff_eq_none.1 fun hs => hlt (h.lt_fresh _ (.inl hs))
    · exact fun hu => hlt (h.lt_fresh _ (.inr hu))
    · exact Nat.le_trans h.fresh (Nat.le_add_right _ 3)
    · exact Nat.lt_succ_self _

end InsertKey

/-- What the repair of a finding goes through when it succeeds. -/
structure Plan (w : Workspace) (finding : Finding) where
  element : Node
  parts : ElementParts
  callback : Node
  scope : ScopeId
  functionParts : FunctionParts
  /-- The workspace in which the callback has a second parameter. -/
  between : Workspace
  name : String
  binding : Option BindingId
  node : w.document.node? finding.node = some element
  element? : element.element? = some parts
  unkeyed : hasKey element = false
  enclosing : w.document.enclosingFunction? element = some callback
  opened : w.scopes.scopeOpenedBy? callback.id = some scope
  function? : callback.function? = some functionParts
  index : withIndex w callback functionParts.parameters scope = .ok (between, name, binding)

variable {finding : Finding} {change : Change}

theorem repair_eq_ok (hr : repair w finding = .ok (change, w')) : ∃ p : Plan w finding,
    change = info.change finding .insertAttribute none
        (some ("key=\x7b" ++ p.name ++ "\x7d")) (some "added key prop") ∧
      w' = insertKey p.between p.element p.parts.opening p.name p.binding := by
  simp only [repair, bind, Except.bind, throw, throwThe, MonadExceptOf.throw, pure, Except.pure] at hr
  split at hr <;> try cases hr
  next element hn =>
  split at hr <;> try cases hr
  next parts hp =>
  split at hr <;> try cases hr
  next hkey =>
  split at hr <;> try cases hr
  next callback hc =>
  split at hr <;> try cases hr
  next s hs =>
  split at hr <;> try cases hr
  next functionParts hf =>
  split at hr <;> cases hr
  next found hw =>
  exact ⟨⟨element, parts, callback, s, functionParts, found.1, found.2.1, found.2.2, hn, hp,
    Bool.not_eq_true _ ▸ hkey, hc, hs, hf, hw⟩, rfl, rfl⟩

/-- In a sound workspace the nodes of a plan are in the tree. -/
theorem Plan.in_tree (p : Plan w finding) (h : w.Sound start) :
    p.element ∈ w.document.root.walk ∧ p.callback ∈ w.document.root.walk ∧
      w.scopes.nodeOf? p.scope = some p.callback.id ∧ p.parts.opening ∈ w.document.root.walk ∧
      p.parts.opening.label.form = "JSXOpeningElement" := by
  obtain ⟨isClosed, removed, hl⟩ := label_of_element? p.element?
  have helement := h.formed.mem_walk_of_node? p.node (by rw [hl]; exact Bool.false_ne_true)
  obtain ⟨above, hpath⟩ := exists_path helement
  have hfind := p.enclosing
  rw [Document.enclosingFunction?, h.formed.ancestors_eq hpath] at hfind
  have hs := p.opened
  rw [ScopeTable.scopeOpenedBy?] at hs
  obtain ⟨hlt, hnode, -⟩ := List.findIdx?_eq_some_iff_getElem.1 hs
  refine ⟨helement, hpath.above_mem_walk (List.mem_of_find?_eq_some hfind), ?_,
    mem_walk_trans (child_mem_walk ?_) helement,
    (h.formed.root.shaped _ helement).opening _ p.element?⟩
  · rw [ScopeTable.nodeOf?_eq, List.getElem?_eq_getElem hlt]
    exact congrArg some (beq_iff_eq.1 hnode)
  · rw [children_eq_of_element? p.element?]
    exact List.mem_cons_self

/-- A new key keeps what names refer to. -/
theorem repair_step (h : w.Sound start) (hr : repair w finding = .ok (change, w')) :
    Workspace.Step start w w' := by
  obtain ⟨p, -, rfl⟩ := repair_eq_ok hr
  obtain ⟨-, hcallback, hscope, hopening, htag⟩ := p.in_tree h
  obtain ⟨h1, hsurvives, hbinding⟩ := withIndex_step h hcallback hscope p.function? p.index
  obtain ⟨o, ho, hid, hform⟩ := hsurvives _ hopening
  exact h1.trans (insertKey_step h1.sound ho hid hbinding (hform.trans htag))

end Rule.ListKey
end JsxLint
