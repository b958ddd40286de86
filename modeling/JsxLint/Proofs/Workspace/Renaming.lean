import JsxLint.Proofs.Scope.Rename
import JsxLint.Proofs.Workspace.Editing

/-!
# Renamed bindings in a workspace

A binding that gets another name without a conflict keeps its identifiers, and so does every other
binding: none of the conflicts that are looked for is there.

* `Workspace.Sound.scopeOf_eq`: the scope in which a use was resolved;
* `Document.renameAll`: another name for several identifiers;
* `Workspace.renameConflict?_eq_none_iff`: what is looked for;
* `Workspace.Sound.rename`: a renaming without conflicts keeps what names refer to.
-/

namespace JsxLint

open Node

/-! ### The scope of a use -/

namespace Workspace

variable {w : Workspace} {start : NodeId} {u : Use} {s : ScopeId} {above : List Node} {n : Node}

/-- The nearest node above another one that opens a scope. -/
theorem Sound.nearest_above (h : w.Sound start) (hp : w.document.root.Path above n)
    (hne : above ≠ []) : ∃ s, above.findSome? (fun m => w.scopes.scopeOpenedBy? m.id) = some s ∧
      w.scopes.nodeOf? s = some (Region.nearest (regionsAbove above ++ w.document.root.program)) := by
  induction hp with
  | root => exact absurd rfl hne
  | @child above m c hp hc ih =>
    have hspot := mem_spots_of_path w.document.root.program hp
    rw [List.findSome?_cons, regionsAbove]
    by_cases hroot : m.id = w.document.root.id
    · -- the program is the outermost scope
      cases eq_of_id_eq h.formed.root.nodup hp.mem_walk (self_mem_walk _) hroot
      have hnil : above = [] := (h.formed.ancestors_eq hp).symm.trans (h.formed.ancestors_eq .root)
      subst hnil
      have hregion : w.document.root.region? (isInFunction []) = none := by
        rw [region?.eq_def, h.formed.root.program]
      have hnode : w.scopes.nodeOf? 0 = some w.document.root.id := by
        rw [ScopeTable.nodeOf?, h.regions]
        rfl
      rw [h.lists.scopeOpenedBy?_eq hnode, hregion]
      exact ⟨0, rfl, hnode⟩
    · cases hr : m.region? (isInFunction above) with
      | some r =>
        have hmem : r ∈ w.scopes.regions := by
          rw [h.regions]
          exact List.mem_append_right _ (List.mem_filterMap.2 ⟨_, hspot, hr⟩)
        obtain ⟨s, hs⟩ := List.mem_iff_getElem?.1 hmem
        have hnode : w.scopes.nodeOf? s = some m.id := by
          rw [ScopeTable.nodeOf?, hs]
          exact congrArg some (region?_node hr)
        rw [h.lists.scopeOpenedBy?_eq hnode]
        exact ⟨s, rfl, hnode.trans (congrArg some (region?_node hr).symm)⟩
      | none =>
        have hnone : w.scopes.scopeOpenedBy? m.id = none := by
          refine ScopeTable.scopeOpenedBy?_eq_none ?_
          rw [h.regions]
          exact not_mem_regions h.formed.root.nodup hspot hroot hr
        rw [hnone]
        refine ih fun he => hroot ?_
        subst he
        cases hp
        rfl

/-- The scope of a use is the one in which it was resolved. -/
theorem Sound.scopeOf_eq (h : w.Sound start) (hu : u ∈ w.document.uses)
    (hr : w.scopes.Refers u s) : w.scopeOf u.identifier = s := by
  cases hb : w.scopes.bindingOf? u.identifier with
  | some b => rw [scopeOf, hr.usedIn (by rw [hb]; rfl)]
  | none =>
    obtain ⟨above, m, hp, hi, hid, -, ha⟩ := Document.exists_of_mem_uses hu
    have hne : above ≠ [] := by
      rintro rfl
      cases hp
      rw [h.formed.root.program] at hi
      cases hi
    obtain ⟨s', hs', hnode⟩ := h.nearest_above hp hne
    have hnodes := hr.around.nodeOf?
    rw [ha] at hnodes
    rw [scopeOf, (hr.unresolved hb).1, ← hid, h.formed.node?_eq hp.mem_walk, Option.map_some,
      Option.getD_some, h.formed.ancestors_eq hp]
    dsimp only
    rw [hs', Option.getD_some]
    exact h.lists.scope_eq hnode hnodes

end Workspace

/-! ### Renamed identifiers -/

namespace Node

variable {id fresh : NodeId} {name : String} {n root : Node} {f : Bool} {c : List Region}

/-- A node under another name, if it holds one. -/
def withName (name : String) (n : Node) : Node :=
  { n with label := n.label.rename name }

theorem ids_modify {edit : Node → Node} (he : ∀ m ∈ n.walk, (edit m).ids = m.ids) :
    (n.modify id edit).ids = n.ids := by
  induction n using induct with
  | step n ih =>
    rw [modify_eq]
    split_ifs
    · exact he n n.self_mem_walk
    · rw [ids_eq, ids_eq n, List.flatMap_map]
      congr 1
      exact List.flatMap_congr fun k hk => ih k hk fun m hm => he m (mem_walk_of_child hk hm)

theorem withName_ids (name : String) (n : Node) : (n.withName name).ids = n.ids := by
  rw [ids_eq, ids_eq n]
  rfl

theorem rename_form (name : String) (label : Label) : (label.rename name).form = label.form := by
  cases label <;> rfl

theorem rename_isIdle (name : String) (label : Label) :
    (label.rename name).isIdle = label.isIdle := by
  cases label <;> rfl

theorem withName_idle (h : n.Idle) : (n.withName name).Idle := by
  intro m hm
  rcases mem_walk.1 hm with rfl | ⟨k, hk, hm⟩
  · exact (rename_isIdle name n.label).trans (h n n.self_mem_walk)
  · exact h m (mem_walk_of_child (n := n) hk hm)

/-- The names of identifiers when several have another one. -/
def renames (ids : List NodeId) (y : String) (i : NodeId) (x : String) : String :=
  if i ∈ ids then y else x

section WithName

variable (hname : n.label.name?.isSome) (hleaf : n.children = [])

include hname hleaf

/-- What is seen of a name under another name. -/
theorem withName_view : (n.withName name).view = n.view.map (renames [n.id] name) := by
  obtain ⟨id, parent, place, label, children⟩ := n
  cases hleaf
  have hself : renames [id] name id = fun _ => name := by
    funext x
    exact if_pos List.mem_cons_self
  cases label <;> first
    | exact absurd hname Bool.false_ne_true
    | simp only [view, View.map, withName, Label.rename, entry, renamed, text, Label.name?,
        patternNames, declarator?, hself, List.map_nil, List.map_cons, List.flatMap_nil,
        Option.getD_some, Label.isIdentifier, Option.map_none, Option.toList_none]

theorem withName_declarations : (n.withName name).declarations f c = n.declarations f c := by
  obtain ⟨id, parent, place, label, children⟩ := n
  cases hleaf
  cases label <;> first
    | exact absurd hname Bool.false_ne_true
    | rfl

theorem declarations_of_name : n.declarations f c = [] := by
  obtain ⟨id, parent, place, label, children⟩ := n
  cases hleaf
  cases label <;> first
    | exact absurd hname Bool.false_ne_true
    | rfl

theorem withName_regions : (n.withName name).regions f c = n.regions f c := by
  obtain ⟨id, parent, place, label, children⟩ := n
  cases hleaf
  cases label <;> first
    | exact absurd hname Bool.false_ne_true
    | rfl

theorem withName_uses {u : Use} (hu : u ∈ (n.withName name).uses f c) :
    ∃ v ∈ n.uses f c, u = v.map (renames [n.id] name) := by
  obtain ⟨id, parent, place, label, children⟩ := n
  cases hleaf
  cases label with
  | identifier old written shorthand =>
    cases List.mem_singleton.1 hu
    refine ⟨⟨id, old, c⟩, List.mem_singleton.2 rfl, ?_⟩
    exact congrArg (Use.mk id · c) (if_pos List.mem_cons_self).symm
  | markupName old => cases hu
  | _ => exact absurd hname Bool.false_ne_true

end WithName

end Node

namespace Document

variable {d d' d'' : Document} {id : NodeId} {ids : List NodeId} {name : String}

/-- Whether a document comes from another one by another name for some identifiers. -/
structure Renamed (d d' : Document) (ids : List NodeId) (name : String) : Prop where
  formed : d'.WellFormed
  follows : d.Follows d'
  fresh : d'.fresh = d.fresh
  declarations : d'.declarations = d.declarations.map (·.map (renames ids name))
  regions : d'.regions = d.regions
  uses : ∀ u ∈ d'.uses, ∃ v ∈ d.uses, u = v.map (renames ids name)

theorem foldl_rename_source (d : Document) (ids : List NodeId) (y : String) :
    (ids.foldl (·.rename · y) d).source = d.source := by
  induction ids generalizing d with
  | nil => rfl
  | cons id ids ih => exact ih (d.rename id y)

theorem WellFormed.rename (h : d.WellFormed) (id : NodeId) (name : String) :
    (d.rename id name).WellFormed := by
  by_cases hid : id ∈ d.root.ids
  · obtain ⟨n, hn, rfl⟩ := mem_ids.1 hid
    refine h.modify hn rfl ?_ fun t ht => ?_
    · exact .setLabel h.root hn ((h.root.shaped n hn).rename name) (rename_form name n.label)
        fun hi => (rename_isIdle name n.label).trans hi
    · have hd : (d.rename n.id name).detached = d.detached := h.detached_modify hid
      exact .inl (hd ▸ ht)
  · -- only what was taken out changes
    have hroot : (d.rename id name).root = d.root := modify_of_not_mem hid
    refine ⟨hroot ▸ h.root, fun t ht => ?_, fun t ht i hi => ?_⟩
    · obtain ⟨t', ht', rfl⟩ := List.mem_map.1 ht
      exact (h.idle t' ht').modify fun m _ _ hm => withName_idle hm
    · obtain ⟨t', ht', rfl⟩ := List.mem_map.1 ht
      have hids : (t'.modify id (withName name)).ids = t'.ids :=
        ids_modify fun m _ => withName_ids name m
      rw [hroot]
      exact h.apart t' ht' i (hids ▸ hi)

/-- Another name for one identifier. -/
theorem rename_renamed (h : d.WellFormed) (name : String)
    (hname : ∀ m ∈ d.root.walk, m.id = id → m.label.name?.isSome) :
    Renamed d (d.rename id name) [id] name := by
  have hleaf : ∀ m ∈ d.root.walk, m.id = id → m.children = [] := fun m hm he =>
    (h.root.shaped m hm).leaf (hname m hm he)
  have hg : ∀ i x, i ≠ id → renames [id] name i x = x := fun i x hi =>
    if_neg fun hm => hi (List.mem_singleton.1 hm)
  have hprogram : (d.rename id name).root.program = d.root.program := by
    have hk : d.root.Keeps (d.root.modify id (withName name)) :=
      Keeps.modify fun _ => ⟨rfl, rfl, rename_form name d.root.label⟩
    exact congrArg (fun i => [Region.mk i .program]) hk.id
  have hself : ∀ m ∈ d.root.walk, m.id = id → (m.withName name).view =
      m.view.map (renames [id] name) ∧ ∀ f c, (m.withName name).declarations f c =
        (m.declarations f c).map (·.map (renames [id] name)) := by
    rintro m hm rfl
    have hm1 := hname m hm rfl
    have hm2 := hleaf m hm rfl
    refine ⟨withName_view hm1 hm2, fun f c => ?_⟩
    rw [withName_declarations hm1 hm2, declarations_of_name hm1 hm2]
    rfl
  have hdeclarations := (declarations_modify hg hself).2
  refine ⟨h.rename id name, ⟨Nat.le_refl _, ?_⟩, rfl, ?_, ?_, fun u hu => ?_⟩
  · refine Succeeds.modify fun m hm he => .setLabel (rename_form name m.label) ?_
    have hm1 := hname m hm he
    rw [isEmptyContainer.eq_def]
    cases hl : m.label <;> rw [hl] at hm1 <;> first
      | exact absurd hm1 Bool.false_ne_true
      | exact Bool.false_ne_true
  · rw [declarations, hprogram]
    exact hdeclarations false d.root.program
  · rw [regions, hprogram]
    refine congrArg (d.root.program ++ ·) ?_
    exact regions_modify (fun m hm he f c => withName_regions (hname m hm he) (hleaf m hm he)) _ _
  · rw [uses, hprogram] at hu
    refine (uses_modify (P := fun _ => False) hg (fun m hm he f c v hv => ?_)
      false d.root.program u hu).resolve_left fun h => h
    subst he
    exact .inr (withName_uses (hname m hm rfl) (hleaf m hm rfl) hv)

theorem Renamed.refl (h : d.WellFormed) (name : String) : Renamed d d [] name where
  formed := h
  follows := .refl d
  fresh := rfl
  declarations := (List.map_id' _).symm
  regions := rfl
  uses u hu := ⟨u, hu, rfl⟩

theorem Renamed.cons (h : Renamed d d' [id] name) (h' : Renamed d' d'' ids name) :
    Renamed d d'' (id :: ids) name := by
  have hcomp : ∀ i x, renames ids name i (renames [id] name i x) = renames (id :: ids) name i x := by
    intro i x
    simp only [renames, List.mem_cons, List.not_mem_nil, or_false]
    split_ifs <;> first | rfl | tauto
  refine ⟨h'.formed, h.follows.trans h'.follows, h'.fresh.trans h.fresh, ?_,
    h'.regions.trans h.regions, fun u hu => ?_⟩
  · rw [h'.declarations, h.declarations, List.map_map]
    exact List.map_congr_left fun e _ => congrArg (Declaration.mk e.scope e.identifier) (hcomp _ _)
  · obtain ⟨v, hv, rfl⟩ := h'.uses u hu
    obtain ⟨x, hx, rfl⟩ := h.uses v hv
    exact ⟨x, hx, congrArg (Use.mk x.identifier · x.around) (hcomp _ _)⟩

/-- Another name for several identifiers. -/
theorem foldl_rename_renamed (h : d.WellFormed) (name : String)
    (hname : ∀ m ∈ d.root.walk, m.id ∈ ids → m.label.name?.isSome) :
    Renamed d (ids.foldl (·.rename · name) d) ids name := by
  induction ids generalizing d with
  | nil => exact .refl h name
  | cons id ids ih =>
    have hstep := rename_renamed h name fun m hm he => hname m hm (he ▸ List.mem_cons_self)
    refine hstep.cons (ih hstep.formed fun m hm hi => ?_)
    obtain ⟨l, hl, hid, hform, -⟩ := hstep.follows.node m hm
      (Nat.lt_of_lt_of_eq (hstep.formed.root.lt_fresh _ (id_mem_ids hm)) hstep.fresh)
    have hl := hname l hl (hid ▸ List.mem_cons_of_mem _ hi)
    rw [Label.name?_isSome_iff] at hl ⊢
    rwa [hform]

end Document

/-! ### Renamings without conflict -/

/-- A binding that has a name in a scope is listed. -/
theorem ScopeTable.mem_listed_of_bound? {t : ScopeTable} {s : ScopeId} {x : String} {b : BindingId}
    (h : t.bound? s x = some b) : b ∈ t.listed := by
  rw [bound?, Option.bind_eq_some_iff] at h
  obtain ⟨scope, hscope, hl⟩ := h
  obtain ⟨before, after, hnames, -⟩ := List.lookup_eq_some_iff.1 hl
  refine List.mem_flatMap.2 ⟨scope, List.mem_of_getElem? hscope, ?_⟩
  rw [hnames]
  exact List.mem_map_of_mem (List.mem_append_right _ List.mem_cons_self)

namespace Workspace

variable {w : Workspace} {start : NodeId} {u : Use} {s : ScopeId} {b : BindingId} {B : Binding}
  {name : String}

/-- A binding may get a name that its scope does not have, no scope between it and a reference to it
has, and no reference to another binding of that name, nor an unexplained one, is inside its scope
and outside the scope of the other one. -/
theorem renameConflict?_eq_none_iff (hb : w.scopes.bindings[b]? = some B) :
    w.renameConflict? b name = none ↔ w.scopes.bound? B.scope name = none ∧
      (∀ r ∈ B.references, w.isShadowed r B.scope name = false) ∧
      (∀ o ∈ w.scopes.listed, ∀ O : Binding, w.scopes.bindings[o]? = some O → o ≠ b → O.name = name →
        ∀ r ∈ O.references, w.isCaptured r B.scope (some O.scope) = false) ∧
      ∀ r ∈ w.scopes.unresolved, (w.document.node? r).map (·.text) = some name →
        w.isCaptured r B.scope none = false := by
  rw [renameConflict?, hb, Option.bind_some]
  split_ifs with hbound
  · constructor
    · intro h
      cases h
    · rintro ⟨h, -⟩
      rw [h] at hbound
      cases hbound
  · rw [Option.or_eq_none_iff, Option.or_eq_none_iff, shadowedReference?, capturedReference?,
      capturedGlobal?, Option.map_eq_none_iff, Option.map_eq_none_iff, List.find?_eq_none,
      List.find?_eq_none, List.findSome?_eq_none_iff]
    refine (and_congr ?_ (and_congr ?_ ?_)).trans
      (and_iff_right (Option.not_isSome_iff_eq_none.1 hbound)).symm
    · simp only [Bool.not_eq_true]
    · refine forall₂_congr fun o _ => ?_
      cases hO : w.scopes.bindings[o]? with
      | none => simp
      | some O =>
        dsimp only
        by_cases hskip : o = b ∨ O.name ≠ name
        · rw [if_pos (by simpa using hskip)]
          refine iff_of_true rfl fun O' hO' hob hname => ?_
          cases hO'
          exact absurd hskip (by simp [hob, hname])
        · rw [if_neg (by simpa using hskip), Option.map_eq_none_iff, List.find?_eq_none]
          rw [not_or, not_not] at hskip
          simp only [Bool.not_eq_true, Option.some.injEq]
          constructor
          · rintro h O' rfl - -
            exact h
          · intro h
            exact h O rfl hskip.1 hskip.2
    · refine forall₂_congr fun r _ => ?_
      simp only [Bool.and_eq_true, beq_iff_eq, not_and, Bool.not_eq_true]

/-- Where a reference is not shadowed, the name is bound nowhere on its way out. -/
theorem bound?_of_isShadowed {i : NodeId} (h : w.isShadowed i s name = false) :
    ∀ r ∈ (w.scopesAround i).takeWhile (· != s), w.scopes.bound? r name = none := by
  rw [isShadowed, List.any_eq_false] at h
  exact fun r hr => Option.not_isSome_iff_eq_none.1 (h r hr)

/-- Where a reference is not captured, it comes to the scope of its own binding first. -/
theorem eq_of_isCaptured {i : NodeId} {owner r : ScopeId}
    (h : w.isCaptured i s (some owner) = false)
    (hr : (w.scopesAround i).find? (fun r => some r == some owner || r == s) = some r) :
    r = owner := by
  rw [isCaptured, hr] at h
  simpa using h

/-- Where an unresolved name is not captured, it is outside of the scope. -/
theorem not_mem_of_isCaptured {i : NodeId} (h : w.isCaptured i s none = false) :
    s ∉ w.scopesAround i := by
  intro hin
  rw [isCaptured] at h
  cases hf : (w.scopesAround i).find? fun candidate => some candidate == none || candidate == s with
  | none => exact absurd (List.find?_eq_none.1 hf _ hin) (by simp)
  | some r =>
    rw [hf] at h
    simp at h

theorem rename_eq (hb : w.scopes.bindings[b]? = some B) : w.rename b name =
    ⟨(B.declaration :: B.references).foldl (·.rename · name) w.document,
      w.scopes.rename b B name⟩ := by
  rw [rename, hb]
  rfl

theorem rename_declaration? (t : ScopeTable) (b : BindingId) (B : Binding) (name : String)
    (i : NodeId) : (t.rename b B name).declaration? i = t.declaration? i := by
  show (t.bindingOf? i).bind _ = (t.bindingOf? i).bind _
  congr 1
  funext c
  rw [ScopeTable.declarationAt?, ScopeTable.rename_bindings, Option.map_map,
    ScopeTable.declarationAt?]
  congr 1
  funext C
  rw [Function.comp]
  split_ifs <;> rfl

section Rename

variable (h : w.Sound start) (hb : w.scopes.bindings[b]? = some B)

include h hb

theorem Sound.mem_binding_iff (i : NodeId) :
    i ∈ B.declaration :: B.references ↔ w.scopes.bindingOf? i = some b := by
  rw [h.lists.member, List.mem_cons]
  constructor
  · exact fun hm => ⟨B, hb, hm⟩
  · rintro ⟨C, hC, hm⟩
    rw [hb] at hC
    cases hC
    exact hm

/-- An identifier that refers to a binding and declares nothing is among its references. -/
theorem Sound.mem_references {i : NodeId} (hi : w.scopes.bindingOf? i = some b)
    (hd : w.scopes.declared.lookup i = none) : i ∈ B.references := by
  rcases List.mem_cons.1 ((h.mem_binding_iff hb i).2 hi) with rfl | hm
  · obtain ⟨n, -, hf⟩ := h.lists.first b B hb
    obtain ⟨e, he, -, -, hi⟩ := exists_of_firstDeclaration hf
    have hsome := h.declared_iff.2 ⟨e, he, hi⟩
    rw [hd] at hsome
    cases hsome
  · exact hm

/-- The identifiers of a binding are spelled like it. -/
theorem Sound.text_eq {m : Node} (hm : m ∈ w.document.root.walk)
    (hi : w.scopes.bindingOf? m.id = some b) : m.text = B.name := by
  cases hd : w.scopes.declared.lookup m.id with
  | some c =>
    have hsome : (w.scopes.declared.lookup m.id).isSome := by rw [hd]; rfl
    obtain ⟨e, he, hid⟩ := h.declared_iff.1 hsome
    obtain ⟨l, hl, hlid, htext⟩ := Document.exists_of_mem_declarations he
    cases eq_of_id_eq h.formed.root.nodup hl hm (hlid.trans hid)
    exact htext.trans ((h.lists.bindingOf?_iff hb he).1 (hid ▸ hi)).2.symm
  | none =>
    have hidentifier := (h.named m hm (by rw [hi]; rfl)).resolve_left (by rw [hd]; simp)
    obtain ⟨u, hu, hid, hname⟩ := Document.exists_use hm hidentifier
    rw [← hid] at hd hi
    exact hname.symm.trans (h.spelled u hu hd b B hi hb)

/-- The identifiers of a binding hold a name when the binding has one. -/
theorem Sound.name?_isSome (hname : B.name ≠ "") {m : Node} (hm : m ∈ w.document.root.walk)
    (hi : w.scopes.bindingOf? m.id = some b) : m.label.name?.isSome := by
  have htext := h.text_eq hb hm hi
  cases hn : m.label.name? with
  | some name => rfl
  | none =>
    rw [Node.text, hn] at htext
    exact absurd htext.symm hname

section Use

variable (hc : w.renameConflict? b name = none) (hu : u ∈ w.document.uses)
  (hd : w.scopes.declared.lookup u.identifier = none) (hr : w.scopes.Refers u s)

include hu hr in
omit hb in
theorem Sound.scopesAround_eq : w.scopesAround u.identifier = w.scopes.chain s := by
  rw [scopesAround, h.scopeOf_eq hu hr]

include hc hu hd hr

/-- A use of the binding finds it under the other name. -/
theorem Sound.lookup?_rename_self (hself : w.scopes.bindingOf? u.identifier = some b) :
    (w.scopes.rename b B name).lookup? s name = some b := by
  obtain ⟨-, hshadowed, -, -⟩ := (renameConflict?_eq_none_iff hb).1 hc
  have hl := hr.binding.symm.trans hself
  rw [← h.lists.name_of_lookup? hl hb] at hl
  refine ScopeTable.lookup?_rename_self h.lists hb hl ?_
  rw [← h.scopesAround_eq hu hr]
  exact bound?_of_isShadowed (hshadowed _ (h.mem_references hb hself hd))

/-- A use of another binding of the name still finds that one. -/
theorem Sound.lookup?_rename_captured {o : BindingId} (hx : u.name = name)
    (ho : w.scopes.bindingOf? u.identifier = some o) (hob : o ≠ b) :
    (w.scopes.rename b B name).lookup? s name = some o := by
  obtain ⟨hbound, -, hcaptured, -⟩ := (renameConflict?_eq_none_iff hb).1 hc
  have hl := hr.binding.symm.trans ho
  rw [hx] at hl
  obtain ⟨O, hO⟩ := h.lists.exists_binding ho
  have hlisted := ScopeTable.mem_listed_of_bound? (h.lists.bound?_self hO)
  refine ScopeTable.lookup?_rename_captured h.lists hb hbound hl hO fun r hfirst => ?_
  rw [← h.scopesAround_eq hu hr] at hfirst
  exact eq_of_isCaptured (hcaptured o hlisted O hO hob (h.lists.name_of_lookup? hl hO) _
    (h.mem_references hO ho hd)) hfirst

omit hd in
/-- An unresolved use of the name still finds nothing. -/
theorem Sound.lookup?_rename_global (hx : u.name = name)
    (ho : w.scopes.bindingOf? u.identifier = none) :
    (w.scopes.rename b B name).lookup? s name = none := by
  obtain ⟨-, -, -, hglobal⟩ := (renameConflict?_eq_none_iff hb).1 hc
  have hl := hr.binding.symm.trans ho
  rw [hx] at hl
  obtain ⟨above, m, hp, -, hid, htext, -⟩ := Document.exists_of_mem_uses hu
  have hnode := h.formed.node?_eq hp.mem_walk
  rw [hid] at hnode
  refine ScopeTable.lookup?_rename_global h.lists hb hl ?_
  rw [← h.scopesAround_eq hu hr]
  exact not_mem_of_isCaptured (hglobal _ (hr.unresolved ho).2
    (by rw [hnode, Option.map_some, htext, hx]))

/-- A use finds what it found before when a binding gets another name without a conflict. -/
theorem Sound.refers_rename :
    (w.scopes.rename b B name).Refers (u.map (w.scopes.newName b name)) s := by
  refine ⟨hr.around.extend (ScopeTable.rename_skeleton .. ▸ List.prefix_refl _), ?_, hr.usedIn,
    hr.unresolved⟩
  show w.scopes.bindingOf? u.identifier =
    (w.scopes.rename b B name).lookup? s (w.scopes.newName b name u.identifier u.name)
  rw [ScopeTable.newName]
  split_ifs with hself
  · rw [hself, h.lookup?_rename_self hb hc hu hd hr hself]
  by_cases hx : u.name = name
  · cases ho : w.scopes.bindingOf? u.identifier with
    | some o =>
      rw [hx, h.lookup?_rename_captured hb hc hu hd hr hx ho fun he => hself (he ▸ ho)]
    | none => rw [hx, h.lookup?_rename_global hb hc hu hr hx ho]
  · have hother : w.scopes.lookup? s u.name ≠ some b := fun hl => hself (hr.binding.trans hl)
    rw [hr.binding, ScopeTable.lookup?_rename_other h.lists hb hother hx]

end Use

/-- A renaming without a conflict keeps what names refer to. -/
theorem Sound.rename (hname : B.name ≠ "") (hc : w.renameConflict? b name = none) :
    Step start w (w.rename b name) := by
  have hnames : renames (B.declaration :: B.references) name = w.scopes.newName b name := by
    funext i x
    rw [renames, ScopeTable.newName]
    exact if_congr (h.mem_binding_iff hb i) rfl rfl
  have hrenamed := Document.foldl_rename_renamed h.formed name fun m hm hi =>
      h.name?_isSome hb hname hm ((h.mem_binding_iff hb m.id).1 hi)
  rw [rename_eq hb]
  generalize (B.declaration :: B.references).foldl (·.rename · name) w.document = d at hrenamed
  obtain ⟨hformed, hfollows, hfresh, hdeclarations, hregions, huses⟩ := hrenamed
  rw [hnames] at hdeclarations huses
  obtain ⟨hbound, -⟩ := (renameConflict?_eq_none_iff hb).1 hc
  refine ⟨⟨hformed, hfresh ▸ h.fresh, ?_, ?_, fun u hu hs hd => ?_, fun i hi => ?_,
    fun m hm hi => ?_, fun u hu hd c C hc hC => ?_⟩, hfollows, fun i _ => rename_declaration? ..⟩
  · show (w.scopes.rename b B name).Lists d.declarations
    rw [hdeclarations]
    exact h.lists.rename hb hbound
  · show (w.scopes.rename b B name).regions = d.regions
    rw [hregions, ← h.regions, ScopeTable.regions, ScopeTable.rename_skeleton]
    rfl
  · obtain ⟨v, hv, rfl⟩ := huses u hu
    obtain ⟨s, hr⟩ := h.knows v hv hs hd
    exact ⟨s, h.refers_rename hb hc hv hd hr⟩
  · exact hfresh ▸ h.lt_fresh i hi
  · obtain ⟨l, hl, hid, hform, -⟩ := hfollows.node m hm (h.lt_fresh m.id (.inl hi))
    have hi := h.named l hl (hid ▸ hi)
    rw [hid] at hi
    refine hi.imp_right fun hl => ?_
    rw [Label.isIdentifier_iff] at hl ⊢
    exact hform.trans hl
  · obtain ⟨v, hv, rfl⟩ := huses u hu
    have hc : w.scopes.bindingOf? v.identifier = some c := hc
    rw [ScopeTable.rename_bindings] at hC
    obtain ⟨D, hD, rfl⟩ := Option.map_eq_some_iff.1 hC
    have hname := h.spelled v hv hd c D hc hD
    show w.scopes.newName b name v.identifier v.name = _
    rw [ScopeTable.newName, hc]
    by_cases he : c = b
    · rw [if_pos (congrArg some he), if_pos he.symm]
    · rw [if_neg fun hs => he (Option.some.inj hs), if_neg (Ne.symm he)]
      exact hname

end Rename

end Workspace
end JsxLint
