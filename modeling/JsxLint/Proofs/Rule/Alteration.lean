import JsxLint.Proofs.Rule.Altered
import JsxLint.Proofs.Rule.ComponentName
import JsxLint.Proofs.Rule.ListKey
import JsxLint.Proofs.Text.Letter
import JsxLint.Rule.Registry
import Mathlib.Logic.Relation

/-!
# Repairs alter trees

Every repair alters the tree, in several steps when it edits several nodes. A new name for a
component never reaches the name of a tag: those names of tags that refer to something start with a
capital letter, and a binding of such a name keeps it.

* `Node.Alters`: what several edits make of a tree;
* `Node.TagsCapital`: names of tags that refer to something start with a capital letter;
* `Node.TagsHaveNames`: no opening tag is without a name;
* `Rule.Repairing`: the rules that repair, each with its repair;
* `Rule.repair_step`: every repair is a step that keeps what names refer to;
* `Rule.repair_alters`: what the repair of a rule makes of the tree.
-/

namespace JsxLint

open Node

namespace Node

variable {cuts : Prop} {n n' n'' c' : Node}

/-- Whether a tree is what several edits, one after the other, make of another one. -/
def Alters (cuts : Prop) : Node → Node → Prop :=
  Relation.ReflTransGen (Altered cuts)

theorem Alters.refl (cuts : Prop) (n : Node) : Alters cuts n n :=
  Relation.ReflTransGen.refl

theorem Altered.alters (h : Altered cuts n n') : Alters cuts n n' :=
  Relation.ReflTransGen.single h

theorem Alters.trans (h : Alters cuts n n') (h' : Alters cuts n' n'') : Alters cuts n n'' :=
  Relation.ReflTransGen.trans h h'

/-! ### Names of tags -/

/-- Whether the names of tags that are identifiers start with a capital letter. -/
def TagsCapital (n : Node) : Prop :=
  ∀ m ∈ n.walk, m.label.isTagged → ∀ c ∈ m.children.head?, c.label.isIdentifier →
    Letter.startsUpper c.text

theorem isTagged_iff (l : Label) :
    l.isTagged ↔ l.form = "JSXAttribute" ∨ l.form = "JSXOpeningElement" := by
  cases l <;> simp [Label.isTagged, Label.form]

/-- The name of a tag or an attribute in an altered tree is another spelling at most. -/
theorem Altered.name_spelled (h : Altered cuts n n') (ht : n.label.isTagged)
    (hc : c' ∈ n'.children.head?) : ∃ c ∈ n.children.head?, Altered cuts c c' ∧
      (c.label.name?.isSome → c.label.Spelled c'.label) := by
  cases h with
  | name h =>
    generalize n.label = label at h ht
    cases h <;> cases ht
  | parameters hl _ => rw [hl] at ht; cases ht
  | openingTag _ _ hn _ => exact ⟨c', hn ▸ hc, .refl cuts c', fun _ => .inl rfl⟩
  | element hp _ _ _ _ =>
    obtain ⟨isClosed, removed, hl⟩ := Rule.label_of_element? hp
    rw [hl] at ht
    cases ht
  | fragment hl _ => rw [hl] at ht; cases ht
  | inside h hn =>
    have hh := Altered.head? h
    rw [Option.mem_def.1 hc] at hh
    cases hc₀ : n.children.head? with
    | none => rw [hc₀] at hh; cases hh
    | some c =>
      rw [hc₀] at hh
      exact ⟨c, rfl, Option.rel_some_some.1 hh, hn ht c hc₀ c' hc⟩

/-- Names of tags stay capital. -/
theorem TagsCapital.altered (h : n.TagsCapital) (ha : Altered cuts n n') : n'.TagsCapital := by
  intro m' hm' ht c' hc' hi
  rcases ha.mem_walk hm' with ⟨m, hm, hmm⟩ | ⟨k, hk, hmk⟩
  · have ht : m.label.isTagged := by rwa [isTagged_iff, ← hmm.keeps.form, ← isTagged_iff]
    obtain ⟨c, hc, hcc, hs⟩ := hmm.name_spelled ht hc'
    have hname : c.label.name?.isSome := by
      rw [Label.isIdentifier_iff, hcc.keeps.form] at hi
      exact (Label.name?_isSome_iff _).2 (.inl hi)
    rcases hs hname with he | ⟨_, _, -, -, hl⟩
    · rw [he] at hi
      rw [Node.text, he]
      exact h m hm ht c hc hi
    · rw [hl] at hi
      cases hi
  · refine hk.forall_walk (P := fun m => m.label.isTagged → ∀ c ∈ m.children.head?,
      c.label.isIdentifier → Letter.startsUpper c.text) ?_ ?_ ?_ ?_ m' hmk ht c' hc' hi <;> intros
    · next hc _ => cases hc
    · next hc hi => cases hc; cases hi
    · next hc _ => cases hc
    · next ht _ _ _ => cases ht

theorem TagsCapital.alters (h : n.TagsCapital) (ha : Alters cuts n n') : n'.TagsCapital := by
  induction ha with
  | refl => exact h
  | tail _ hstep ih => exact ih.altered hstep

/-- Whether opening tags have a name at all. -/
def TagsHaveNames (n : Node) : Prop :=
  ∀ m ∈ n.walk, m.label.form = "JSXOpeningElement" → m.children ≠ []

theorem Altered.children_ne_nil (h : Altered cuts n n') (hform : n.label.form = "JSXOpeningElement")
    (hc : n.children ≠ []) : n'.children ≠ [] := by
  cases h with
  | name _ => exact hc
  | parameters hl _ => rw [hl] at hform; simp [Label.form] at hform
  | openingTag _ _ hn _ =>
    rintro rfl
    exact hc (List.head?_eq_none_iff.1 hn.symm)
  | element hp _ _ _ _ =>
    obtain ⟨isClosed, removed, hl⟩ := Rule.label_of_element? hp
    rw [hl] at hform
    simp [Label.form] at hform
  | fragment hl _ => rw [hl] at hform; simp [Label.form] at hform
  | inside h _ =>
    rintro rfl
    exact hc (List.forall₂_nil_right_iff.1 h)

theorem TagsHaveNames.altered (h : n.TagsHaveNames) (ha : Altered cuts n n') :
    n'.TagsHaveNames := by
  intro m' hm' hform
  rcases ha.mem_walk hm' with ⟨m, hm, hmm⟩ | ⟨k, hk, hmk⟩
  · rw [hmm.keeps.form] at hform
    exact hmm.children_ne_nil hform (h m hm hform)
  · refine absurd hform (hk.forall_walk (P := fun m => m.label.form ≠ "JSXOpeningElement")
      ?_ ?_ ?_ ?_ m' hmk) <;> intros <;> simp [Label.form]

theorem TagsHaveNames.alters (h : n.TagsHaveNames) (ha : Alters cuts n n') : n'.TagsHaveNames := by
  induction ha with
  | refl => exact h
  | tail _ hstep ih => exact ih.altered hstep

end Node

namespace Rule

variable {cuts : Prop} {w w' : Workspace} {start : NodeId} {finding : Finding} {change : Change}

/-! ### Markup -/

/-- Another spelling of an attribute. -/
theorem AttributeSpelling.repair_alters {info : RuleInfo} {names : List (String × String)}
    (hnames : names ⊆ Label.spellings) (h : w.Sound start)
    (hr : repair info names w finding = .ok (change, w')) :
    Altered cuts w.document.root w'.document.root := by
  obtain ⟨n, name, value, newName, hn, ha, hlookup, -, -, rfl⟩ := repair_eq_ok hr
  have hroot := mem_walk_of_attribute? h.formed hn ha
  obtain ⟨-, hname, old, hl⟩ := h.formed.root.attribute_name hroot ha
  have hspelling : (old, newName) ∈ Label.spellings := by
    rw [Node.text, hl] at hlookup
    exact hnames (mem_of_lookup hlookup)
  refine Altered.modify (fun m hm hid => ?_) fun t ht _ c hc hid _ => ?_
  · obtain rfl := eq_of_id_eq h.formed.root.nodup hm hname hid
    refine .name ?_
    rw [hl]
    exact .spelling hspelling
  · have hct := mem_walk_trans (child_mem_walk (List.mem_of_mem_head? hc)) ht
    obtain rfl := eq_of_id_eq h.formed.root.nodup hct hname hid
    exact .inr ⟨old, newName, hspelling, hl, by rw [hl]; rfl⟩

/-- The removal of empty braces. -/
theorem EmptyExpression.repair_alters (hcuts : cuts) (h : w.Sound start)
    (hf : ∀ m ∈ w.document.root.walk, m.id = finding.node → m.isEmptyContainer)
    (hr : repair w finding = .ok (change, w')) :
    Altered cuts w.document.root w'.document.root := by
  obtain ⟨parent, hroot, hmarkup, taken, ht, hid, rfl⟩ := repair_removes h hr
  have hd := nodup_of_mem h.formed.root.nodup hroot
  have hempty := hf taken (mem_walk_trans (child_mem_walk (content_subset taken ht)) hroot) hid
  have hidle : ∀ a ∈ parent.children, (a.id != taken.id) = false → a.Idle := by
    intro a ha he
    rw [bne_eq_false_iff_eq] at he
    obtain rfl := eq_of_id_eq hd (child_mem_walk ha) (child_mem_walk (content_subset taken ht)) he
    exact emptyContainer_idle hempty
  have hlabel := without_label taken hmarkup
  refine Altered.modify (fun m hm he => ?_) fun t htw htag c hc he hname => ?_
  · obtain rfl := eq_of_id_eq h.formed.root.nodup hm hroot he
    rcases hlabel with ⟨isClosed, removed, removed', hn, hw⟩ | ⟨removed, removed', hn, hw⟩
    · have hcontent := ht
      rw [Node.content.eq_def, hn] at hcontent
      cases hp : m.element? with
      | none =>
        rw [hp] at hcontent
        cases hcontent
      | some parts =>
        rw [hp] at hcontent
        have hc := children_eq_of_element? hp
        have hcut : Spliced (fun _ => False) Idle parts.content
            (parts.content.filter (·.id != taken.id)) := by
          refine Spliced.filter fun a ha => hidle a ?_
          rw [hc]
          exact List.mem_append_left _ (List.mem_cons_of_mem _ ha)
        exact .element hp (without_element? hp hmarkup hd hcontent) (.refl _ _)
          (hcut.append (.refl _ _ _)) (.inl hcuts) (.inr ⟨rfl, hcut⟩)
    · have hw : without taken m =
          { m with label := .fragment removed', children := m.children.filter (·.id != taken.id) } :=
        congrArg (fun label => { m with
          label := label
          children := m.children.filter (·.id != taken.id) }) hw
      rw [hw]
      exact .fragment hn (Spliced.filter hidle)
  · -- a name is neither an element nor a fragment
    have hct := mem_walk_trans (child_mem_walk (List.mem_of_mem_head? hc)) htw
    obtain rfl := eq_of_id_eq h.formed.root.nodup hct hroot he
    rcases hlabel with ⟨_, _, _, hn, -⟩ | ⟨_, _, hn, -⟩ <;> rw [hn] at hname <;> cases hname

/-- The collapse of a void element. -/
theorem VoidElement.repair_alters (h : w.Sound start) (hr : repair w finding = .ok (change, w')) :
    Altered cuts w.document.root w'.document.root := by
  obtain ⟨n, parts, hn, hp, -, -, hblank, -, rfl⟩ := repair_eq_ok hr
  obtain ⟨isClosed, removed, hl⟩ := label_of_element? hp
  have hroot := h.formed.mem_walk_of_node? hn (by rw [hl]; exact Bool.false_ne_true)
  have hshaped : ∀ m ∈ n.walk, m.Shaped := fun m hm =>
    h.formed.root.shaped m (mem_walk_trans hm hroot)
  obtain ⟨selfClosing, ho⟩ := openingTag_of_form ((hshaped n n.self_mem_walk).opening parts hp)
  have hopening : Altered cuts parts.opening { parts.opening with label := .openingTag true } :=
    .openingTag ho (fun _ => rfl) rfl (.refl _ _ _)
  have hparts : (closed parts.opening n).element? =
      some ⟨{ parts.opening with label := .openingTag true }, [], none⟩ :=
    element?_of_children rfl rfl rfl
  have hn : w.document.node? n.id = some n := h.formed.node?_eq hroot
  show Altered cuts w.document.root (w.document.collapse n.id).root
  rw [collapse_eq hn hp]
  refine Altered.modify (fun m hm he => ?_) fun t ht _ c hc he hname => ?_
  · obtain rfl := eq_of_id_eq h.formed.root.nodup hm hroot he
    exact .element hp hparts hopening (.drops fun t ht => (collapsed_idle hshaped hp hblank t ht).1)
      (.inr rfl) (.inl rfl)
  · have hct := mem_walk_trans (child_mem_walk (List.mem_of_mem_head? hc)) ht
    obtain rfl := eq_of_id_eq h.formed.root.nodup hct hroot he
    rw [hl] at hname
    cases hname

/-! ### Keys -/

namespace ListKey

variable {parameters opening element o : Node} {s : ScopeId} {name : String}

/-- The list of parameters that the repair edits. -/
theorem Owns.label (ho : Owns w s parameters) (h : w.Sound start) :
    ∀ m ∈ w.document.root.walk, m.id = parameters.id → ∃ a, m.label = .parameters a := by
  obtain ⟨n, hn, parts, hf, -, hid, -⟩ := ho
  intro m hm he
  obtain rfl := eq_of_id_eq h.formed.root.nodup hm
    (mem_walk_trans (child_mem_walk (parameters_mem_children hf)) hn) (he.trans hid.symm)
  exact parameters_of_form ((h.formed.root.shaped n hn).parameters parts hf)

/-- An edit of a list of parameters does not touch the name of a tag. -/
theorem Owns.alters {edit : Node → Node} (ho : Owns w s parameters) (h : w.Sound start)
    (he : ∀ m a, m.label = .parameters a → Altered cuts m (edit m)) :
    Altered cuts w.document.root (w.document.root.modify parameters.id edit) := by
  refine Altered.modify (fun m hm hid => ?_) fun t ht _ c hc hid hname => ?_
  · obtain ⟨a, hl⟩ := ho.label h m hm hid
    exact he m a hl
  · obtain ⟨a, hl⟩ := ho.label h c
      (mem_walk_trans (child_mem_walk (List.mem_of_mem_head? hc)) ht) hid
    rw [hl] at hname
    cases hname

theorem addParameter_alters (ho : Owns w s parameters) (h : w.Sound start) (name : String) :
    Altered cuts w.document.root (addParameter parameters s w name).document.root := by
  have heq : (addParameter parameters s w name).document =
      (w.document.addParameter parameters (Node.made (.identifier name name none) [])).2 := rfl
  rw [heq, Document.addParameter_eq]
  refine ho.alters h fun m a hl => ?_
  obtain ⟨id, parent, place, label, children⟩ := m
  cases hl
  refine .parameters rfl ?_
  have hlast : Spliced Inert (fun _ => False) ([] : List Node)
      [Document.placedIdentifier w.document.fresh parameters.id parameters.place.position name] :=
    .add (.name ..) .nil
  have happend := (Spliced.refl Inert (fun _ => False) children).append hlast
  rwa [List.append_nil] at happend

theorem addParameters_alters {names : List String} (h : w.Sound start) (ho : Owns w s parameters)
    (hd : names.Nodup) (hfits : ∀ x ∈ names, w.Fits start s x) :
    Alters cuts w.document.root (names.foldl (addParameter parameters s) w).document.root := by
  induction names generalizing w with
  | nil => exact .refl _ _
  | cons name names ih =>
    rw [List.nodup_cons] at hd
    obtain ⟨h1, ho1, -, hfits1⟩ := addParameter_step h ho (hfits name List.mem_cons_self)
    refine (addParameter_alters ho h name).alters.trans (ih h1.sound ho1 hd.2 fun x hx => ?_)
    exact hfits1 x (fun he => hd.1 (he ▸ hx)) (hfits x (List.mem_cons_of_mem _ hx))

/-- A second parameter of the callback, if it has none. -/
theorem withIndex_alters {callback : Node} {parts : FunctionParts} {b : Option BindingId}
    (h : w.Sound start) (hcallback : callback ∈ w.document.root.walk)
    (hs : w.scopes.nodeOf? s = some callback.id) (hf : callback.function? = some parts)
    (hr : withIndex w callback parts.parameters s = .ok (w', name, b)) :
    Alters cuts w.document.root w'.document.root := by
  rcases withIndex_cases hr with ⟨-, rfl, -⟩ | ⟨-, hnone, rfl, -⟩
  · exact .refl _ _
  · have ho : Owns w s parts.parameters := ⟨callback, hcallback, parts, hf, hs, rfl, rfl⟩
    have hfits : ∀ x ∈ missingNames parts.parameters.children, w.Fits start s x := fun x hx =>
      fits_of_introductionConflict? h hcallback hs (hnone x hx)
    have hd := missingNames_nodup parts.parameters.children
    obtain ⟨h1, ho1, -⟩ := addParameters_step h ho hd hfits
    refine (addParameters_alters h ho hd hfits).trans (Altered.alters ?_)
    refine ho1.alters h1.sound fun m a hl => ?_
    obtain ⟨id, parent, place, label, children⟩ := m
    cases hl
    exact .parameters rfl (.refl _ _ _)

theorem insertKey_alters {b : Option BindingId} (h : w.Sound start) (ho : o ∈ w.document.root.walk)
    (hid : o.id = opening.id) (hform : o.label.form = "JSXOpeningElement") :
    Altered cuts w.document.root (insertKey w element opening name b).document.root := by
  have hroot : (insertKey w element opening name b).document.root =
      w.document.root.modify opening.id
        (withAttribute · (placedKey w.document.fresh opening.id opening.place.position name)) := by
    rw [insertKey_document, insertAttribute_eq]
    rfl
  obtain ⟨selfClosing, hl⟩ := openingTag_of_form hform
  rw [hroot]
  refine Altered.modify (fun m hm he => ?_) fun t ht _ c hc he hname => ?_
  · obtain rfl := eq_of_id_eq h.formed.root.nodup hm ho (he.trans hid.symm)
    rcases withAttribute_cases m (placedKey w.document.fresh opening.id opening.place.position name)
      with heq | ⟨tag, attributes, hc, heq⟩
    · rw [heq]
      exact .refl _ _
    · rw [heq]
      obtain ⟨id, parent, place, label, children⟩ := m
      cases hl
      cases hc
      exact .openingTag rfl (fun h => h) rfl (.add (.key (.name ..) rfl ..) (.refl _ _ _))
  · have hct := mem_walk_trans (child_mem_walk (List.mem_of_mem_head? hc)) ht
    obtain rfl := eq_of_id_eq h.formed.root.nodup hct ho (he.trans hid.symm)
    rw [hl] at hname
    cases hname

/-- A new key. -/
theorem repair_alters (h : w.Sound start) (hr : repair w finding = .ok (change, w')) :
    Alters cuts w.document.root w'.document.root := by
  obtain ⟨p, -, rfl⟩ := repair_eq_ok hr
  obtain ⟨-, hcallback, hscope, hopening, htag⟩ := p.in_tree h
  obtain ⟨h1, hsurvives, -⟩ := withIndex_step h hcallback hscope p.function? p.index
  obtain ⟨o, ho, hid, hform⟩ := hsurvives _ hopening
  exact (withIndex_alters h hcallback hscope p.function? p.index).trans
    (insertKey_alters h1.sound ho hid (hform.trans htag)).alters

end ListKey

end Rule

/-! ### New names -/

namespace Node

variable {cuts : Prop} {id : NodeId} {name : String} {n m' : Node}

/-- The nodes of a tree in which one node has another name. -/
theorem mem_walk_withName (hd : n.ids.Nodup) (hm : m' ∈ (n.modify id (withName name)).walk) :
    ∃ m ∈ n.walk, m'.id = m.id ∧ m'.label = (if m.id = id then m.label.rename name else m.label) ∧
      m'.children.map (·.id) = m.children.map (·.id) := by
  rcases mem_walk_modify hm with ⟨m, hmn, hne, rfl⟩ | ⟨m, hmn, rfl, hmw⟩
  · refine ⟨m, hmn, ?_⟩
    rw [modify_of_ne hne, if_neg hne]
    refine ⟨rfl, rfl, ?_⟩
    rw [mapChildren, List.map_map]
    refine List.map_congr_left fun c _ => ?_
    rw [Function.comp, modify_eq]
    split_ifs <;> rfl
  · rcases mem_walk.1 hmw with rfl | ⟨c, hc, hmc⟩
    · exact ⟨m, hmn, rfl, (if_pos rfl).symm, rfl⟩
    · have hc : c ∈ m.children := hc
      refine ⟨m', mem_walk_trans (mem_walk_of_child hc hmc) hmn, rfl, (if_neg fun he => ?_).symm,
        rfl⟩
      exact id_not_mem_child (nodup_of_mem hd hmn) hc (he ▸ id_mem_ids hmc)

/-- A name that is capitalised, or was before. -/
theorem Altered.withName {x : String} (hn : n.label.name?.isSome)
    (ht : n.text = x ∨ n.text = Letter.capitalise x) :
    Altered cuts n (n.withName (Letter.capitalise x)) := by
  obtain ⟨id, parent, place, label, children⟩ := n
  cases label with
  | identifier a written shorthand =>
    rcases ht with rfl | ht
    · exact .name (.identifier ..)
    · cases ht
      exact .refl _ _
  | markupName a =>
    rcases ht with rfl | ht
    · exact .name (.markupName _)
    · cases ht
      exact .refl _ _
  | _ => cases hn

end Node

namespace Document

variable {cuts : Prop} {ids : List NodeId} {x : String}

/-- Nodes of one name, none of them the name of a tag, are capitalised one after the other. -/
theorem foldl_rename_alters {js : List NodeId} (hjs : js ⊆ ids) {d : Document} (h : d.WellFormed)
    (hname : ∀ m ∈ d.root.walk, m.id ∈ ids →
      m.label.name?.isSome ∧ (m.text = x ∨ m.text = Letter.capitalise x))
    (htag : ∀ t ∈ d.root.walk, t.label.isTagged → ∀ c ∈ t.children.head?, c.id ∉ ids) :
    Alters cuts d.root (js.foldl (·.rename · (Letter.capitalise x)) d).root := by
  induction js generalizing d with
  | nil => exact .refl _ _
  | cons j js ih =>
    have hj := hjs List.mem_cons_self
    have hstep : Altered cuts d.root (d.rename j (Letter.capitalise x)).root := by
      refine Altered.modify (fun m hm hid => ?_) fun t ht htagged c hc hid _ => ?_
      · obtain ⟨hn, ht⟩ := hname m hm (hid ▸ hj)
        exact .withName hn ht
      · exact absurd (hid ▸ hj) (htag t ht htagged c hc)
    refine hstep.alters.trans (ih (fun i hi => hjs (List.mem_cons_of_mem _ hi)) (h.rename j _)
      (fun m' hm' hi => ?_) fun t' ht' htagged c' hc' => ?_)
    · obtain ⟨m, hm, hid, hl, -⟩ := mem_walk_withName h.root.nodup hm'
      obtain ⟨hn, ht⟩ := hname m hm (hid ▸ hi)
      rw [Node.text, hl]
      split_ifs
      · rw [Label.name?_isSome_iff, rename_form, ← Label.name?_isSome_iff]
        refine ⟨hn, .inr ?_⟩
        cases hm : m.label <;> rw [hm] at hn <;> first | rfl | cases hn
      · exact ⟨hn, ht⟩
    · obtain ⟨t, ht, -, hl, hc⟩ := mem_walk_withName h.root.nodup ht'
      have hform : t'.label.form = t.label.form := by
        rw [hl]
        split_ifs
        · exact rename_form _ _
        · rfl
      rw [isTagged_iff, hform, ← isTagged_iff] at htagged
      have hhead := congrArg List.head? hc
      rw [List.head?_map, List.head?_map, Option.mem_def.1 hc'] at hhead
      obtain ⟨c, hc, hid⟩ := Option.map_eq_some_iff.1 hhead.symm
      exact fun hi => htag t ht htagged c hc (hid.symm ▸ hi)

end Document

namespace Workspace

variable {w : Workspace} {start : NodeId} {b : BindingId} {B : Binding}

/-- A binding has a conflict with its own name. -/
theorem Sound.renameConflict?_self (h : w.Sound start) (hb : w.scopes.bindings[b]? = some B) :
    w.renameConflict? b B.name ≠ none := by
  intro hc
  have hbound := ((renameConflict?_eq_none_iff hb).1 hc).1
  rw [h.lists.bound?_self hb] at hbound
  cases hbound

/-- The names of tags and attributes that refer to something are identifiers. -/
theorem Sound.isIdentifier_of_tagged {t c : Node} (h : w.Sound start)
    (ht : t ∈ w.document.root.walk) (htagged : t.label.isTagged) (hc : c ∈ t.children)
    (hi : (w.scopes.bindingOf? c.id).isSome) : c.label.isIdentifier := by
  have hcw := mem_walk_trans (child_mem_walk hc) ht
  refine (h.named c hcw hi).elim (fun hd => ?_) fun hi => hi
  obtain ⟨e, he, hid⟩ := h.declared_iff.1 hd
  obtain ⟨k, hk, m, ⟨hmk, hm⟩, hentry⟩ := Node.exists_of_mem_declarations he
  have hmid : m.id = c.id := (congrArg Prod.fst hentry).trans hid
  obtain rfl := eq_of_id_eq h.formed.root.nodup (mem_walk_trans hmk hk) hcw hmid
  refine hm.elim (fun hi => hi) fun ⟨hmc, hl⟩ => ?_
  -- the parent of a declared name that is no identifier is a function or an import
  obtain rfl := h.formed.root.eq_of_child hk ht hmc hc
  rcases hl with hl | hl
  · cases hkl : k.label <;> rw [hkl] at hl htagged <;> first
      | exact absurd htagged Bool.false_ne_true
      | exact absurd hl Bool.false_ne_true
  · rw [hl] at htagged
    cases htagged

end Workspace

namespace Rule

variable {cuts : Prop} {w w' : Workspace} {start : NodeId} {finding : Finding} {change : Change}

/-- A new name for a component. -/
theorem ComponentName.repair_alters (ht : w.document.root.TagsCapital) (h : w.Sound start)
    (hr : repair w finding = .ok (change, w')) :
    Alters cuts w.document.root w'.document.root := by
  obtain ⟨-, b, B, -, -, hb, -, hc, -, rfl⟩ := repair_eq_ok hr
  have hname : Letter.capitalise B.name ≠ B.name := fun he =>
    h.renameConflict?_self hb (he ▸ hc)
  have hbinding := h.mem_binding_iff hb
  rw [Workspace.rename_eq hb]
  refine Document.foldl_rename_alters (List.Subset.refl _) h.formed (fun m hm hi => ?_)
    fun t htw htagged c hcc hi => ?_
  · have hi := (hbinding m.id).1 hi
    refine ⟨h.name?_isSome hb (fun he => hname ?_) hm hi, .inl (h.text_eq hb hm hi)⟩
    rw [he]
    rfl
  · have hi := (hbinding c.id).1 hi
    have hct := List.mem_of_mem_head? hcc
    have hidentifier := h.isIdentifier_of_tagged htw htagged hct (by rw [hi]; rfl)
    have hupper := ht t htw htagged c hcc hidentifier
    rw [h.text_eq hb (mem_walk_trans (child_mem_walk hct) htw) hi] at hupper
    exact hname (Letter.capitalise_of_startsUpper hupper)

/-! ### All repairs -/

/-- The rules that repair what they find, each with its repair. -/
inductive Repairing : Rule → Repair → Prop
  | emptyExpression : Repairing Rule.emptyExpression EmptyExpression.repair
  | reservedProp : Repairing Rule.reservedProp
    (AttributeSpelling.repair AttributeSpelling.reservedInfo AttributeSpelling.reservedNames)
  | camelCaseAttribute : Repairing Rule.camelCaseAttribute
    (AttributeSpelling.repair AttributeSpelling.camelCaseInfo AttributeSpelling.camelCaseNames)
  | selfClosingTag : Repairing Rule.selfClosingTag VoidElement.repair
  | missingKey : Repairing Rule.missingKey ListKey.repair
  | componentNaming : Repairing Rule.componentNaming ComponentName.repair

theorem repairing_of_repair? {rule : Rule} {repair : Repair} (hrule : rule ∈ all)
    (hr : rule.repair? = some repair) : Repairing rule repair := by
  simp only [all, List.mem_cons, List.not_mem_nil, or_false] at hrule
  rcases hrule with rfl | rfl | rfl | rfl | rfl | rfl | rfl | rfl | rfl | rfl | rfl | rfl | rfl |
    rfl <;> cases hr
  exacts [.emptyExpression, .reservedProp, .camelCaseAttribute, .selfClosingTag, .missingKey,
    .componentNaming]

theorem isFixable_of_repair? {rule : Rule} {repair : Repair} (hr : rule.repair? = some repair) :
    rule.isFixable := by
  rw [isFixable, hr]
  rfl

theorem exists_repairing {rule : Rule} (hrule : rule ∈ all) (hfix : rule.isFixable) :
    ∃ repair, Repairing rule repair := by
  obtain ⟨repair, hr⟩ := Option.isSome_iff_exists.1 hfix
  exact ⟨repair, repairing_of_repair? hrule hr⟩

/-- A repair in a round keeps what names refer to. -/
theorem repair_step {d : Document} {rule : Rule} {repair : Repair} (hd : d.WellFormed)
    (hrule : rule ∈ all) (hr : rule.repair? = some repair)
    (hf : finding ∈ rule.detect (.ofDocument d) d.root.walk)
    (h : Workspace.Step d.fresh (.ofDocument d) w) (hok : repair w finding = .ok (change, w')) :
    Workspace.Step d.fresh w w' := by
  cases repairing_of_repair? hrule hr with
  | emptyExpression =>
    exact EmptyExpression.repair_step h.sound (EmptyExpression.found_empty hd hf h) hok
  | reservedProp => exact AttributeSpelling.repair_step h.sound hok
  | camelCaseAttribute => exact AttributeSpelling.repair_step h.sound hok
  | selfClosingTag => exact VoidElement.repair_step h.sound hok
  | missingKey => exact ListKey.repair_step h.sound hok
  | componentNaming => exact ComponentName.repair_step h.sound hok

/-- What the repair of a rule makes of the tree in a round: only empty braces are cut out of an
element that keeps its tags. -/
theorem repair_alters {d : Document} {rule : Rule} {repair : Repair} (hd : d.WellFormed)
    (ht : w.document.root.TagsCapital) (hrule : rule ∈ all) (hr : rule.repair? = some repair)
    (hcuts : rule = emptyExpression → cuts)
    (hf : finding ∈ rule.detect (.ofDocument d) d.root.walk)
    (h : Workspace.Step d.fresh (.ofDocument d) w) (hok : repair w finding = .ok (change, w')) :
    Alters cuts w.document.root w'.document.root := by
  cases repairing_of_repair? hrule hr with
  | emptyExpression =>
    exact (EmptyExpression.repair_alters (hcuts rfl) h.sound
      (EmptyExpression.found_empty hd hf h) hok).alters
  | reservedProp =>
    exact (AttributeSpelling.repair_alters (List.subset_append_left _ _) h.sound hok).alters
  | camelCaseAttribute =>
    exact (AttributeSpelling.repair_alters (List.subset_append_right _ _) h.sound hok).alters
  | selfClosingTag => exact (VoidElement.repair_alters h.sound hok).alters
  | missingKey => exact ListKey.repair_alters h.sound hok
  | componentNaming => exact ComponentName.repair_alters ht h.sound hok

end Rule
end JsxLint
