import JsxLint.Proofs.Analysis.AttributeNames
import JsxLint.Proofs.Analysis.Bindings
import JsxLint.Proofs.Rule.Braces
import JsxLint.Proofs.Rule.Lasting

/-!
# What a repair leaves to find

A repair takes away what it is made for, and nothing else that is an issue: whatever another rule
reports, and the same rule at other nodes, is reported again after it. Only a new name for a
component can do more, because it reaches all identifiers of a binding, and a binding that is
declared twice can give two components their names.

* `Rule.Edit.finds_attribute`, `finds_item`, `finds_void`, `finds_braces`, `finds_name`: the rules
  that repair, one by one;
* `Rule.Edit.finds`: what is found again after a repair;
* `Rule.Edit.declaration?_ne`: what a new name takes away.
-/

namespace JsxLint

open Node

namespace Rule

variable {rule other : Rule} {d : Document} {u v w w' : Workspace} {f g : Finding}
  {start i k : NodeId} {names names' : List (String × String)} {m m' n o : Node}
  {parts parts' : ElementParts}

/-! ### Effects -/

theorem Effect.isFixable (he : Effect w w' i rule) : rule.isFixable := by
  cases he <;> rfl

theorem Effect.renaming (he : Effect w w' i rule) (hr : rule = Rule.componentNaming) :
    Nonempty (Renaming w w' i) := by
  cases he with
  | componentNaming e => exact ⟨e⟩
  | _ => exact absurd hr (ne_of_id_ne (by decide))

/-- Two rules that respell one name are one rule. -/
theorem Respells.rule_eq {name : String} (h : Respells rule names) (h' : Respells other names')
    (hl : (names.lookup name).isSome) (hl' : (names'.lookup name).isSome) : rule = other := by
  have hapart : ∀ x ∈ AttributeSpelling.reservedNames,
      AttributeSpelling.camelCaseNames.lookup x.1 = none := by decide +kernel
  have hnot : (AttributeSpelling.reservedNames.lookup name).isSome →
      ¬(AttributeSpelling.camelCaseNames.lookup name).isSome := by
    intro hr
    obtain ⟨spelling, hr⟩ := Option.isSome_iff_exists.1 hr
    rw [hapart _ (mem_of_lookup hr)]
    exact Bool.false_ne_true
  cases h <;> cases h'
  · rfl
  · exact absurd hl' (hnot hl)
  · exact absurd hl (hnot hl')
  · rfl

/-- The element that an opening tag belongs to. -/
theorem element_eq_of_opening (hd : v.document.WellFormed) (hm : m ∈ v.document.root.walk)
    (hp : m.element? = some parts) (hn : n ∈ v.document.root.walk) (hq : n.element? = some parts')
    (ho : parts.opening = parts'.opening) : m = n := by
  have hchild : ∀ {m : Node} {parts}, m.element? = some parts → parts.opening ∈ m.children :=
    fun hp => children_eq_of_element? hp ▸ List.mem_cons_self
  exact hd.root.eq_of_child hm hn (hchild hp) (ho ▸ hchild hq)

/-- The tag of a void element keeps its name: other names go to attributes only. -/
theorem Effect.isVoidName {selfClosing : Bool} (he : Effect w w' i rule) (h : w.Sound start)
    (h' : w'.Sound start) (ho : parts.opening ∈ w.document.root.walk)
    (ho' : parts'.opening ∈ w'.document.root.walk) (hid : parts'.opening.id = parts.opening.id)
    (hl : parts.opening.label = .openingTag selfClosing)
    (hvoid : parts.name?.any VoidElement.isVoidName) :
    parts'.name?.any VoidElement.isVoidName := by
  obtain ⟨tag, htag, hvoid⟩ := (Option.any_eq_true _ _).1 hvoid
  rw [ElementParts.name?, opening?.eq_def, hl] at htag
  cases hc : parts.opening.children with
  | nil =>
    rw [hc] at htag
    cases htag
  | cons tag attributes =>
    rw [hc] at htag
    cases htag
    obtain ⟨_, hl'⟩ := openingTag_of_form ((he.form h h' ho ho' hid).trans (by rw [hl]; rfl))
    have hhead := (he.opening_cases h h' ho ho' hid hl).2
    rw [hc, List.head?_cons, Option.map_some, Option.map_eq_some_iff] at hhead
    obtain ⟨tag', htag', htid⟩ := hhead
    obtain ⟨attributes', hc'⟩ := List.head?_eq_some_iff.1 htag'
    have hname : parts'.name? = some tag' := by
      rw [ElementParts.name?, opening?.eq_def, hl', hc']
      rfl
    refine (Option.any_eq_true _ _).2 ⟨tag', hname, ?_⟩
    rw [VoidElement.isVoidName.eq_def] at hvoid ⊢
    split at hvoid
    · next written hwritten =>
      rcases he.name_label h h' (mem_walk_trans (child_mem_walk (hc ▸ List.mem_cons_self)) ho)
        (mem_walk_trans (child_mem_walk (hc' ▸ List.mem_cons_self)) ho') htid ho (by rw [hl]; rfl)
        (hc ▸ List.mem_cons_self) hwritten with hsame | ⟨_, -, e, hnode, -⟩
      · rw [hsame, hwritten]
        exact hvoid
      · cases hl.symm.trans (hnode ▸ label_of_attribute? e.attribute?)
    · cases hvoid

namespace Renaming

variable (e : Renaming w w' i)

include e

/-- What has the declaration that a repair is for is what belongs to its binding. -/
theorem declaration?_eq_iff (h : w.Sound start) :
    w.scopes.declaration? k = some i ↔ w.scopes.bindingOf? k = some e.b := by
  have hback : ∀ {k}, w.scopes.bindingOf? k = some e.b → w.scopes.declaration? k = some i := by
    intro k hk
    rw [ScopeTable.declaration?, hk, Option.bind_some, ScopeTable.declarationAt?, e.binding?,
      Option.map_some, e.declaration]
  have hown := (h.mem_binding_iff e.binding? e.binding.declaration).1 List.mem_cons_self
  refine ⟨fun hk => ?_, hback⟩
  rw [h.lists.bindingOf?_eq_iff.2 (hk.trans (hback hown).symm), hown]

/-- What belongs to the binding does not start with a small letter any more. -/
theorem not_startsLower (h' : w'.Sound start) (hm : m ∈ w'.document.root.walk)
    (hb : w.scopes.bindingOf? m.id = some e.b) : ¬Letter.startsLower m.text := by
  intro hlower
  have hbinding : w'.scopes.bindings[e.b]? =
      some { e.binding with name := Letter.capitalise e.binding.name } := by
    rw [e.scopes, ScopeTable.rename_bindings, e.binding?, Option.map_some, if_pos rfl]
  have hb' : w'.scopes.bindingOf? m.id = some e.b := by
    rw [e.scopes]
    exact hb
  rw [h'.text_eq hbinding hm hb'] at hlower
  exact e.changed (Letter.capitalise_of_startsLower hlower)

end Renaming

/-! ### One repair, one rule -/

namespace Edit

variable (he : rule.Edit f d v w)

include he

/-- A node that is not idle is found again, altered, where it was. -/
theorem exists_alters (hm : m ∈ v.document.root.walk) (hl : ¬m.label.isIdle) :
    ∃ m' ∈ w.document.root.walk, Alters True m m' ∧ m'.id = m.id :=
  let ⟨m', hm', _, ha⟩ := he.alters.survives hm fun hi => hl (hi m m.self_mem_walk)
  ⟨m', hm', ha, ha.id_eq⟩

/-- A finding about a node is found again when the rule finds something about that node. -/
theorem finds_of_node_eq (hother : other ∈ all) (hfix : other.isFixable)
    (hg : g ∈ other.detect u v.document.root.walk) {g' : Finding}
    (hg' : g' ∈ other.detect u w.document.root.walk) (hnode : g'.node = g.node) :
    other.Finds w.document.root g := by
  have hscopes : other ≠ safeInterpolation := by
    rintro rfl
    cases hfix
  exact (finds_of_mem hother hscopes hg').congr (spot_eq_of_node_eq
    he.before.sound.formed.root.nodup hother hfix he.alters (.refl True _) hg' hg hnode)

/-- An attribute keeps its name, unless it is the one that gets another. -/
theorem finds_attribute (hr : Respells other names) (hother : other ∈ all)
    (hg : g ∈ other.detect u v.document.root.walk) :
    other.Finds w.document.root g ∨ other = rule ∧ g.node = f.node := by
  obtain ⟨info, rfl⟩ : ∃ info, other = AttributeSpelling.rule info names := by
    cases hr <;> exact ⟨_, rfl⟩
  obtain ⟨m, hm, name, value, ha, hlookup, detail, rfl⟩ := mem_of_attributeSpelling hg
  obtain ⟨m', hm', -, hid⟩ := he.exists_alters hm (by
    rw [label_of_attribute? ha]
    exact Bool.false_ne_true)
  rcases he.effect.attributeName? he.before.sound he.step.sound hm hm' hid with
    hsame | ⟨names', hr', e, rfl, -⟩
  · rw [attributeName?, attributeName?, ha, Option.map_some, Option.map_eq_some_iff] at hsame
    obtain ⟨⟨name', value'⟩, ha', htext⟩ := hsame
    have hlookup' : (names.lookup name'.text).isSome := by
      rw [show name'.text = name.text from htext]
      exact hlookup
    have hg' : info.report u m' (some name'.text) ∈
        (AttributeSpelling.rule info names).detect u w.document.root.walk :=
      List.mem_filterMap.2
        ⟨(m', name'.text, value'), mem_attributes.2 ⟨hm', name', ha', rfl⟩, if_pos hlookup'⟩
    exact .inl (he.finds_of_node_eq hother rfl hg hg' hid)
  · cases ha.symm.trans e.attribute?
    exact .inr ⟨hr.rule_eq hr' hlookup (by rw [e.lookup]; rfl), e.id⟩

/-- An element of a list stays one, and it has no key, unless it is the one that gets it. -/
theorem finds_item (hg : g ∈ missingKey.detect u v.document.root.walk) :
    missingKey.Finds w.document.root g ∨ missingKey = rule ∧ g.node = f.node := by
  have h := he.before.sound
  obtain ⟨item, hkey, rfl⟩ := ListKey.mem_detect_iff.1 hg
  obtain ⟨parts, hp⟩ := Option.isSome_iff_exists.1 item.isElement
  obtain ⟨m', hm', -, ha⟩ := he.alters.survives item.element_mem (not_idle_of_element? hp)
  obtain ⟨parts', hp', ho⟩ := ha.exists_element? hp
  obtain ⟨item', rfl, -⟩ := item.alters h.formed he.step.sound.formed he.alters hm' ha.id_eq
    (by rw [hp']; rfl)
  obtain ⟨a, hl⟩ := openingTag_of_form ((h.formed.root.shaped _ item.element_mem).opening _ hp)
  have hnames := he.attributeNames (mem_walk_trans (opening_mem_walk hp) item.element_mem) hl
    (mem_walk_trans (opening_mem_walk hp') hm') ho.id_eq
  have hunkeyed : "key" ∉ parts.opening.attributeNames := by
    rw [ListKey.hasKey, hp, Option.bind_some] at hkey
    exact findAttribute?_eq_none_iff.1 (Option.not_isSome_iff_eq_none.1 (by
      rw [hkey]
      exact Bool.false_ne_true))
  by_cases hkey' : "key" ∈ parts'.opening.attributeNames
  · obtain ⟨hr, e, hopening⟩ := (hnames.mem_key hkey').resolve_left hunkeyed
    refine .inr ⟨hr.symm, ?_⟩
    exact (congrArg Node.id (element_eq_of_opening h.formed item.element_mem hp e.mem e.element?
      hopening)).trans e.id
  · refine .inl (he.finds_of_node_eq (by simp [all]) rfl hg
      (ListKey.mem_detect_iff.2 ⟨item', ?_, rfl⟩) ha.id_eq)
    rw [ListKey.hasKey, hp', Option.bind_some, findAttribute?_eq_none_iff.2 hkey']
    rfl

/-- A void element with blank content stays one, unless it is the one that is collapsed. -/
theorem finds_void (hg : g ∈ selfClosingTag.detect u v.document.root.walk) :
    selfClosingTag.Finds w.document.root g ∨ selfClosingTag = rule ∧ g.node = f.node := by
  have h := he.before.sound
  have h' := he.step.sound
  obtain ⟨m, hm, parts, hp, hvoid, hopen, hblank, rfl⟩ := mem_selfClosingTag.1 hg
  obtain ⟨m', hm', -, ha⟩ := he.alters.survives hm (not_idle_of_element? hp)
  obtain ⟨parts', hp', ho⟩ := ha.exists_element? hp
  have ho₁ := mem_walk_trans (opening_mem_walk hp) hm
  have ho₂ := mem_walk_trans (opening_mem_walk hp') hm'
  obtain ⟨a, hl⟩ := openingTag_of_form ((h.formed.root.shaped m hm).opening _ hp)
  rcases (he.effect.opening_cases h h' ho₁ ho₂ ho.id_eq hl).1 with hsame | ⟨hr, e, hopening⟩
  · refine .inl (he.finds_of_node_eq (by simp [all]) rfl hg
      (mem_selfClosingTag.2 ⟨m', hm', parts', hp', ?_, ?_, ?_, rfl⟩) ha.id_eq)
    · exact he.effect.isVoidName h h' ho₁ ho₂ ho.id_eq hl hvoid
    · rw [isSelfClosing_of_element? hp', hsame, ← isSelfClosing_of_element? hp, hopen]
    · rw [isSelfClosing_of_element? hp, beq_eq_false_iff_ne] at hopen
      obtain ⟨m₀, hm₀, hid, parts₀, hp₀, -, hcontent, -⟩ :=
        he.alters.open_element hm' hp' (hsame ▸ hopen)
      cases eq_of_id_eq h.formed.root.nodup hm₀ hm (hid.trans ha.id_eq)
      cases hp.symm.trans hp₀
      exact hcontent hblank
  · exact .inr ⟨hr.symm, (congrArg Node.id
      (element_eq_of_opening h.formed hm hp e.mem e.element? hopening)).trans e.id⟩

/-- Empty braces stay where they are, unless they are the ones that are taken out. -/
theorem finds_braces (hbare : v.document.root.TagsBare)
    (hg : g ∈ emptyExpression.detect u v.document.root.walk) :
    emptyExpression.Finds w.document.root g ∨ emptyExpression = rule ∧ g.node = f.node := by
  obtain ⟨m, hm, rfl⟩ := List.mem_map.1 hg
  obtain ⟨hm, hempty⟩ := List.mem_filter.1 hm
  obtain ⟨⟨hasComment, hl⟩, -⟩ := emptyContainer_leaf hempty
  by_cases hi : rule = emptyExpression ∧ m.id = f.node
  · exact .inr ⟨hi.1.symm, hi.2⟩
  · obtain ⟨m', hm', hid, hsite⟩ := (site?_eq_some_iff he.step.sound.formed.root.nodup).1
      (he.effect.braces_site? he.before.sound hbare hm hl he.step.sound hi)
    refine .inl (he.finds_of_node_eq (by simp [all]) rfl hg
      (List.mem_map_of_mem (List.mem_filter.2 ⟨hm', ?_⟩)) hid)
    rw [isEmptyContainer_congr hsite, hempty]

/-- The name of a component stays, unless it belongs to the binding that gets another. -/
theorem finds_name (hg : g ∈ componentNaming.detect u v.document.root.walk) :
    componentNaming.Finds w.document.root g ∨
      rule = componentNaming ∧ v.scopes.declaration? g.node = some f.node := by
  have h := he.before.sound
  have h' := he.step.sound
  obtain ⟨⟨name, function⟩, hx, hg₁⟩ := List.mem_filterMap.1 hg
  dsimp only at hg₁
  split_ifs at hg₁ with hfound
  cases hg₁
  obtain ⟨hlower, hmarkup⟩ := Bool.and_eq_true_iff.1 hfound
  obtain ⟨p, hp, hnaming, hc⟩ := ComponentName.exists_naming hx
  have hm := mem_walk_trans (child_mem_walk hc) hp
  obtain ⟨⟨name', function'⟩, hx', ha, hmarkup'⟩ := he.alters.named hx
  obtain ⟨p', hp', -, hc'⟩ := ComponentName.exists_naming hx'
  have hm' := mem_walk_trans (child_mem_walk hc') hp'
  by_cases htext : name'.text = name.text
  · refine .inl (he.finds_of_node_eq (by simp [all]) rfl hg
      (List.mem_filterMap.2 ⟨(name', function'), hx', if_pos ?_⟩) ha.id_eq)
    rw [Bool.and_eq_true, htext, hmarkup']
    exact ⟨hlower, hmarkup⟩
  · have hn : name.label.name?.isSome := by
      by_contra hnone
      rw [Node.text, Option.not_isSome_iff_eq_none.1 hnone] at hlower
      cases hlower
    rcases he.effect.name_cases h h' hm hm' ha.id_eq hp hc hn with
      hsame | ⟨_, -, e, rfl, -⟩ | ⟨hr, e, hb⟩
    · exact absurd (by rw [Node.text, Node.text, hsame]) htext
    · -- an attribute names no function
      rw [label_of_attribute? e.attribute?] at hnaming
      cases hnaming
    · exact .inr ⟨hr, (e.declaration?_eq_iff h).2 hb⟩

/-! ### One repair, all rules -/

/-- After a repair an issue is found again, unless the repair was for it, or it is the name of a
component and the repair renamed its binding. -/
theorem finds (hbare : v.document.root.TagsBare) (hother : other ∈ all)
    (hissue : other.severity ≠ .good) (hg : g ∈ other.detect u v.document.root.walk) :
    other.Finds w.document.root g ∨ (other = rule ∧ g.node = f.node) ∨
      other = componentNaming ∧ rule = componentNaming ∧
        v.scopes.declaration? g.node = some f.node := by
  cases hfix : other.isFixable with
  | false => exact .inl ((lasts_of_alters hother hissue hfix he.alters).finds hg)
  | true =>
    obtain ⟨repair, hrepairing⟩ := exists_repairing hother hfix
    cases hrepairing with
    | emptyExpression => exact (he.finds_braces hbare hg).imp_right .inl
    | reservedProp => exact (he.finds_attribute .reserved hother hg).imp_right .inl
    | camelCaseAttribute => exact (he.finds_attribute .camelCase hother hg).imp_right .inl
    | selfClosingTag => exact (he.finds_void hg).imp_right .inl
    | missingKey => exact (he.finds_item hg).imp_right .inl
    | componentNaming => exact (he.finds_name hg).imp_right fun h => .inr ⟨rfl, h⟩

/-- What a new name was given to is not reported for its name. -/
theorem declaration?_ne (hr : rule = componentNaming)
    (hg : g ∈ componentNaming.detect u w.document.root.walk) :
    v.scopes.declaration? g.node ≠ some f.node := by
  obtain ⟨e⟩ := he.effect.renaming hr
  obtain ⟨m, hm, hlower, detail, rfl⟩ := mem_of_componentNaming hg
  exact fun hk => e.not_startsLower he.step.sound hm
    ((e.declaration?_eq_iff he.before.sound).1 hk) hlower

end Edit
end Rule
end JsxLint
