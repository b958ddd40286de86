import JsxLint.Proofs.Reading.Apart
import JsxLint.Proofs.Rule.Items
import JsxLint.Proofs.Rule.Repeats
import JsxLint.Proofs.Rule.Reports

/-!
# Repaired findings stay away

The repair of a rule removes what the rule found, and no later repair brings it back.

* `Rule.findsAt_of_isFixable`: what findings that can be repaired are about;
* `Rule.Settled`: a rule finds nothing at a node, whatever repairs still make of the tree;
* `Rule.repair_settled`: repairs settle the findings that they are made for;
* `Rule.finds_of_alters`: findings after repairs are about nodes that were there before.
-/

namespace JsxLint

open Node

namespace Rule

variable {cuts : Prop} {rule : Rule} {d : Document} {v w w' : Workspace} {start : NodeId}
  {n n' m' : Node} {f finding : Finding} {change : Change} {i : NodeId}

/-! ### What findings are about -/

theorem mem_of_attributeSpelling {info : RuleInfo} {names : List (String × String)}
    (hf : f ∈ (AttributeSpelling.rule info names).detect v n.walk) : ∃ m ∈ n.walk, ∃ name value,
      m.attribute? = some (name, value) ∧ (names.lookup name.text).isSome ∧
        ∃ detail, f = info.report v m detail := by
  obtain ⟨⟨m, text, value⟩, hx, hf⟩ := List.mem_filterMap.1 hf
  obtain ⟨hm, name, ha, rfl⟩ := mem_attributes.1 hx
  dsimp only at hf
  split_ifs at hf with hfound
  cases hf
  exact ⟨m, hm, name, value, ha, hfound, _, rfl⟩

/-- What the rule about void elements finds. -/
theorem mem_selfClosingTag : f ∈ selfClosingTag.detect v n.walk ↔ ∃ m ∈ n.walk, ∃ parts,
    m.element? = some parts ∧ parts.name?.any VoidElement.isVoidName ∧ m.isSelfClosing = false ∧
      parts.content.all (·.isBlankText) ∧ f = selfClosingTag.report v m (some m.tag) := by
  constructor
  · intro hf
    obtain ⟨⟨m, parts⟩, hx, hf⟩ := List.mem_filterMap.1 hf
    obtain ⟨hm, hp⟩ := mem_elements.1 hx
    dsimp only at hf
    split_ifs at hf with hfound
    cases hf
    simp only [Bool.and_eq_true, Bool.not_eq_true'] at hfound
    exact ⟨m, hm, parts, hp, hfound.1.1, hfound.1.2, hfound.2, rfl⟩
  · rintro ⟨m, hm, parts, hp, hvoid, hopen, hblank, rfl⟩
    refine List.mem_filterMap.2 ⟨(m, parts), mem_elements.2 ⟨hm, hp⟩, if_pos ?_⟩
    simp only [hvoid, hopen, hblank, Bool.not_false, Bool.and_self]

theorem mem_of_selfClosingTag (hf : f ∈ selfClosingTag.detect v n.walk) : ∃ m ∈ n.walk, ∃ parts,
    m.element? = some parts ∧ m.isSelfClosing = false ∧ parts.content.all (·.isBlankText) ∧
      ∃ detail, f = selfClosingTag.report v m detail := by
  obtain ⟨m, hm, parts, hp, -, hopen, hblank, rfl⟩ := mem_selfClosingTag.1 hf
  exact ⟨m, hm, parts, hp, hopen, hblank, _, rfl⟩

theorem mem_of_missingKey (hf : f ∈ missingKey.detect v n.walk) : ∃ m ∈ n.walk, ∃ parts,
    m.element? = some parts ∧ parts.opening.findAttribute? "key" = none ∧
      ∃ detail, f = missingKey.report v m detail := by
  obtain ⟨i, hkey, rfl⟩ := ListKey.mem_detect_iff.1 hf
  obtain ⟨parts, hp⟩ := Option.isSome_iff_exists.1 i.isElement
  refine ⟨i.element, i.element_mem, parts, hp, ?_, _, rfl⟩
  rw [ListKey.hasKey, hp, Option.bind_some] at hkey
  exact Option.not_isSome_iff_eq_none.1 (by rw [hkey]; exact Bool.false_ne_true)

theorem mem_of_componentNaming (hf : f ∈ componentNaming.detect v n.walk) : ∃ m ∈ n.walk,
    Letter.startsLower m.text ∧ ∃ detail, f = componentNaming.report v m detail := by
  obtain ⟨⟨name, function⟩, hx, hf⟩ := List.mem_filterMap.1 hf
  dsimp only at hf
  split_ifs at hf with hfound
  cases hf
  rw [Bool.and_eq_true] at hfound
  obtain ⟨p, hp, -, hname⟩ := ComponentName.exists_naming hx
  exact ⟨name, mem_walk_trans (child_mem_walk hname) hp, hfound.1, _, rfl⟩

/-- What the findings of a rule are about: marked nodes. -/
def FindsAt (rule : Rule) (mark : Mark) : Prop :=
  ∀ v (n : Node), ∀ f ∈ rule.detect v n.walk,
    ∃ m ∈ n.walk, m.label.mark? = some mark ∧ ∃ detail, f = rule.report v m detail

theorem mark?_of_element? {parts : ElementParts} (hp : n.element? = some parts) :
    n.label.mark? = some .element := by
  obtain ⟨isClosed, removed, hl⟩ := label_of_element? hp
  rw [hl]
  rfl

theorem mark?_of_startsLower (h : Letter.startsLower n.text) : n.label.mark? = some .name := by
  rw [Node.text] at h
  cases hl : n.label <;> rw [hl] at h <;> first | rfl | cases h

theorem attributeSpelling_findsAt (info : RuleInfo) (names : List (String × String)) :
    (AttributeSpelling.rule info names).FindsAt .attribute := by
  intro v n f hf
  obtain ⟨m, hm, name, value, ha, -, hf⟩ := mem_of_attributeSpelling hf
  exact ⟨m, hm, by rw [label_of_attribute? ha]; rfl, hf⟩

theorem emptyExpression_findsAt : emptyExpression.FindsAt .braces := by
  intro v n f hf
  obtain ⟨m, hm, rfl⟩ := List.mem_map.1 hf
  obtain ⟨hm, hempty⟩ := List.mem_filter.1 hm
  obtain ⟨⟨hasComment, hl⟩, -⟩ := emptyContainer_leaf hempty
  exact ⟨m, hm, by rw [hl]; rfl, _, rfl⟩

theorem selfClosingTag_findsAt : selfClosingTag.FindsAt .element := by
  intro v n f hf
  obtain ⟨m, hm, parts, hp, -, -, hf⟩ := mem_of_selfClosingTag hf
  exact ⟨m, hm, mark?_of_element? hp, hf⟩

theorem missingKey_findsAt : missingKey.FindsAt .element := by
  intro v n f hf
  obtain ⟨m, hm, parts, hp, -, hf⟩ := mem_of_missingKey hf
  exact ⟨m, hm, mark?_of_element? hp, hf⟩

theorem componentNaming_findsAt : componentNaming.FindsAt .name := by
  intro v n f hf
  obtain ⟨m, hm, hlower, hf⟩ := mem_of_componentNaming hf
  exact ⟨m, hm, mark?_of_startsLower hlower, hf⟩

/-- Findings that can be repaired are about marked nodes. -/
theorem findsAt_of_isFixable (hrule : rule ∈ all) (hfix : rule.isFixable) :
    ∃ mark, rule.FindsAt mark := by
  obtain ⟨repair, hrepairing⟩ := exists_repairing hrule hfix
  cases hrepairing with
  | emptyExpression => exact ⟨_, emptyExpression_findsAt⟩
  | reservedProp => exact ⟨_, attributeSpelling_findsAt _ _⟩
  | camelCaseAttribute => exact ⟨_, attributeSpelling_findsAt _ _⟩
  | selfClosingTag => exact ⟨_, selfClosingTag_findsAt⟩
  | missingKey => exact ⟨_, missingKey_findsAt⟩
  | componentNaming => exact ⟨_, componentNaming_findsAt⟩

/-! ### Settled findings -/

/-- Whether a rule finds nothing at a node, whatever repairs still make of the tree. -/
def Settled (rule : Rule) (i : NodeId) (n : Node) : Prop :=
  ∀ n', Alters True n n' → ∀ v, ∀ f ∈ rule.detect v n'.walk, f.node ≠ i

theorem Settled.alters (h : rule.Settled i n) (ha : Alters True n n') : rule.Settled i n' :=
  fun n'' ha' => h n'' (ha.trans ha')

/-- What a rule does not find it never finds again, but for void elements. -/
theorem settled_of_detect (hrule : rule ∈ all) (hscopes : rule ≠ safeInterpolation)
    (hvoid : rule ≠ selfClosingTag) (h : ∀ v, ∀ f ∈ rule.detect v n.walk, f.node ≠ i) :
    rule.Settled i n := by
  intro n' ha v f' hf'
  obtain ⟨f, hf, hspot⟩ := covers_alters hrule hscopes (fun he => absurd he hvoid) ha v v f' hf'
  have hnode : f.node = f'.node := congrArg Prod.fst hspot
  exact hnode ▸ h v f hf

/-- The elements of an altered tree were there before, and tags that closed themselves still do. -/
theorem element_alters {parts' : ElementParts} (h : Alters cuts n n') (hm : m' ∈ n'.walk)
    (hp : m'.element? = some parts') : ∃ m ∈ n.walk, ∃ parts, m.element? = some parts ∧
      m.id = m'.id ∧ m.place = m'.place ∧ parts.opening.id = parts'.opening.id ∧
        (parts.opening.label = .openingTag true → parts'.opening.label = .openingTag true) := by
  induction h generalizing m' parts' with
  | refl => exact ⟨m', hm, parts', hp, rfl, rfl, rfl, fun h => h⟩
  | tail _ hstep ih =>
    rcases hstep.mem_walk hm with ⟨m, hm, hmm⟩ | ⟨k, hk, hmk⟩
    · obtain ⟨parts, hp, ho, -⟩ := hmm.element? hp
      obtain ⟨l, hl, q, hq, hid, hplace, hopening, hclosed⟩ := ih hm hp
      exact ⟨l, hl, q, hq, hid.trans hmm.keeps.id.symm, hplace.trans hmm.place.symm,
        hopening.trans ho.keeps.id.symm, fun h => ho.selfClosing (hclosed h)⟩
    · have hnone := hk.forall_walk (P := fun m => m.element? = none) (by intros; rfl)
        (by intros; rfl) (by intros; rfl) (by intros; rfl) m' hmk
      rw [hnone] at hp
      cases hp

theorem AttributeSpelling.repair_settled {info : RuleInfo} {names : List (String × String)}
    (hnames : names ⊆ Label.spellings) (hlast : ∀ x ∈ Label.spellings, names.lookup x.2 = none)
    (h : w.Sound start) (hr : repair info names w finding = .ok (change, w')) (v : Workspace) :
    ∀ f ∈ (AttributeSpelling.rule info names).detect v w'.document.root.walk,
      f.node ≠ finding.node := by
  obtain ⟨n, name, value, newName, hn, ha, hnew, -, -, rfl⟩ := repair_eq_ok hr
  have hroot := mem_walk_of_attribute? h.formed hn ha
  have hd := h.formed.root.nodup
  obtain ⟨rest, hc⟩ := children_eq_of_attribute? ha
  obtain ⟨-, hname, old, hl⟩ := h.formed.root.attribute_name hroot ha
  intro f hf hnode
  obtain ⟨m', hm', name', value', ha', hfound, detail, rfl⟩ := mem_of_attributeSpelling hf
  obtain ⟨rest', hc'⟩ := children_eq_of_attribute? ha'
  -- the attribute has the same name node as before, and that has the new spelling
  obtain ⟨m, hm, hid, -, hchildren⟩ := mem_walk_withName hd hm'
  obtain rfl := eq_of_id_eq hd hm hroot
    (hid.symm.trans (hnode.trans (h.formed.mem_or_idle hn).1.symm))
  rw [hc, hc', List.map_cons, List.map_cons] at hchildren
  have hid' : name'.id = name.id := (List.cons.inj hchildren).1
  obtain ⟨k, hk, hkid, hlabel, -⟩ :=
    mem_walk_withName hd (mem_walk_trans (child_mem_walk (hc' ▸ List.mem_cons_self)) hm')
  obtain rfl := eq_of_id_eq hd hk hname (hkid.symm.trans hid')
  rw [if_pos rfl, hl] at hlabel
  have htext : name'.text = newName := by
    rw [Node.text, hlabel]
    rfl
  rw [Node.text, hl] at hnew
  rw [htext, hlast _ (hnames (mem_of_lookup hnew))] at hfound
  cases hfound

theorem EmptyExpression.repair_settled (h : w.Sound start) (h' : w'.Sound start)
    (hr : repair w finding = .ok (change, w')) (v : Workspace) :
    ∀ f ∈ emptyExpression.detect v w'.document.root.walk, f.node ≠ finding.node := by
  obtain ⟨parent, -, -, taken, -, hid, rfl⟩ := repair_removes h hr
  intro f hf hnode
  obtain ⟨n, hn, -, hfn⟩ := isEmptyContainer_of_detect hf
  have hout := (h'.formed.apart _ List.mem_cons_self _ (id_mem_ids (self_mem_walk _))).1
  have he : n.id = taken.id := hfn.symm.trans (hnode.trans hid.symm)
  exact hout (he ▸ id_mem_ids hn)

theorem VoidElement.repair_settled (h : w.Sound start) (h' : w'.Sound start)
    (hr : repair w finding = .ok (change, w')) :
    selfClosingTag.Settled finding.node w'.document.root := by
  obtain ⟨n, parts, hn, hp, -, -, -, -, rfl⟩ := repair_eq_ok hr
  obtain ⟨isClosed, removed, hl⟩ := label_of_element? hp
  have hroot := h.formed.mem_walk_of_node? hn (by rw [hl]; exact Bool.false_ne_true)
  have hclosed : closed parts.opening n ∈ (w.document.collapse n.id).root.walk := by
    rw [collapse_eq (h.formed.node?_eq hroot) hp]
    exact mem_walk_modify_of_edit h.formed.root.nodup hroot (self_mem_walk _)
  intro n' ha v f hf hnode
  obtain ⟨m', hm', parts', hp', hopen, -, detail, rfl⟩ := mem_of_selfClosingTag hf
  obtain ⟨m, hm, q, hq, hid, -, -, hkeeps⟩ := element_alters ha hm' hp'
  obtain rfl := eq_of_id_eq h'.formed.root.nodup hm hclosed
    (hid.trans (hnode.trans (h.formed.mem_or_idle hn).1.symm))
  cases hq
  rw [isSelfClosing_of_element? hp', hkeeps rfl] at hopen
  cases hopen

theorem ListKey.repair_settled (ht : w.document.root.TagsHaveNames) (h : w.Sound start)
    (h' : w'.Sound start) (hr : repair w finding = .ok (change, w')) (v : Workspace) :
    ∀ f ∈ missingKey.detect v w'.document.root.walk, f.node ≠ finding.node := by
  have ha : Alters True w.document.root w'.document.root := repair_alters h hr
  obtain ⟨p, -, rfl⟩ := repair_eq_ok hr
  obtain ⟨helement, hcallback, hscope, hopening, htag⟩ := p.in_tree h
  obtain ⟨h1, hsurvives, -⟩ := withIndex_step h hcallback hscope p.function? p.index
  obtain ⟨o, ho, hoid, hform⟩ := hsurvives _ hopening
  have hbetween : Alters True w.document.root p.between.document.root :=
    withIndex_alters h hcallback hscope p.function? p.index
  intro f hf hnode
  obtain ⟨m', hm', parts', hp', hkey, detail, rfl⟩ := mem_of_missingKey hf
  obtain ⟨m, hm, parts, hp, hid, -, hopened, -⟩ := element_alters ha hm' hp'
  obtain rfl := eq_of_id_eq h.formed.root.nodup hm helement
    (hid.trans (hnode.trans (h.formed.mem_or_idle p.node).1.symm))
  cases hp.symm.trans p.element?
  -- the opening tag of the element is the one that got the key
  obtain ⟨tag, attributes, hc⟩ := List.exists_cons_of_ne_nil
    (ht.alters hbetween o ho (hform.trans htag))
  obtain ⟨selfClosing, hl⟩ := openingTag_of_form (hform.trans htag)
  have hkeyed : withAttribute o (placedKey p.between.document.fresh p.parts.opening.id
      p.parts.opening.place.position p.name) ∈
      (insertKey p.between p.element p.parts.opening p.name p.binding).document.root.walk := by
    rw [insertKey_document, insertAttribute_eq, ← hoid]
    exact mem_walk_modify_of_edit h1.sound.formed.root.nodup ho (self_mem_walk _)
  have hopening' : parts'.opening ∈ (insertKey p.between p.element p.parts.opening p.name
      p.binding).document.root.walk :=
    mem_walk_trans (child_mem_walk (children_eq_of_element? hp' ▸ List.mem_cons_self)) hm'
  generalize hk : placedKey p.between.document.fresh p.parts.opening.id
    p.parts.opening.place.position p.name = k at hkeyed
  have hname : k.attribute?.map (·.1.text) = some "key" := by
    rw [← hk]
    rfl
  have hadded : withAttribute o k = { o with children := tag :: k :: attributes } := by
    rw [withAttribute, hc]
  rw [hadded] at hkeyed
  have hsame := eq_of_id_eq h'.formed.root.nodup hopening' hkeyed (hopened.symm.trans hoid.symm)
  rw [hsame, findAttribute?, opening?.eq_def, hl, Option.bind_some] at hkey
  dsimp only at hkey
  rw [List.find?_cons_of_pos (by rw [hname]; rfl)] at hkey
  cases hkey

theorem ComponentName.repair_settled (h : w.Sound start) (h' : w'.Sound start)
    (hr : repair w finding = .ok (change, w')) (v : Workspace) :
    ∀ f ∈ componentNaming.detect v w'.document.root.walk, f.node ≠ finding.node := by
  obtain ⟨identifier, b, B, hn, hb, hB, hdeclaration, hc, -, rfl⟩ := repair_eq_ok hr
  intro f hf hnode
  obtain ⟨m, hm, hlower, detail, rfl⟩ := mem_of_componentNaming hf
  have hmi : m.id = identifier.id := hnode.trans (h.formed.mem_or_idle hn).1.symm
  have hbm : w.scopes.bindingOf? m.id = some b := by
    rw [hmi, ← hdeclaration]
    exact (h.mem_binding_iff hB _).1 List.mem_cons_self
  have hB' : (w.rename b (Letter.capitalise B.name)).scopes.bindings[b]? =
      some { B with name := Letter.capitalise B.name } := by
    rw [Workspace.rename_eq hB, ScopeTable.rename_bindings, hB, Option.map_some, if_pos rfl]
  have hbm' : (w.rename b (Letter.capitalise B.name)).scopes.bindingOf? m.id = some b := by
    rw [Workspace.rename_eq hB]
    exact hbm
  rw [h'.text_eq hB' hm hbm'] at hlower
  exact h.renameConflict?_self hB (Letter.capitalise_of_startsLower hlower ▸ hc)

/-- Repairs settle the findings that they are made for. -/
theorem repair_settled {repair : Repair} (hd : d.WellFormed)
    (ht : w.document.root.TagsHaveNames) (hrule : rule ∈ all) (hr : rule.repair? = some repair)
    (hf : finding ∈ rule.detect (.ofDocument d) d.root.walk)
    (h : Workspace.Step d.fresh (.ofDocument d) w) (hok : repair w finding = .ok (change, w')) :
    rule.Settled finding.node w'.document.root := by
  have h' := (repair_step hd hrule hr hf h hok).sound
  by_cases hvoid : rule = selfClosingTag
  · subst hvoid
    cases hr
    exact VoidElement.repair_settled h.sound h' hok
  · have hscopes : rule ≠ safeInterpolation := by
      rintro rfl
      cases hr
    refine settled_of_detect hrule hscopes hvoid ?_
    cases repairing_of_repair? hrule hr with
    | emptyExpression => exact EmptyExpression.repair_settled h.sound h' hok
    | reservedProp =>
      exact AttributeSpelling.repair_settled (List.subset_append_left _ _)
        (fun x hx => (spellings_apart x hx).1) h.sound hok
    | camelCaseAttribute =>
      exact AttributeSpelling.repair_settled (List.subset_append_right _ _)
        (fun x hx => (spellings_apart x hx).2.1) h.sound hok
    | selfClosingTag => exact absurd rfl hvoid
    | missingKey => exact ListKey.repair_settled ht h.sound h' hok
    | componentNaming => exact ComponentName.repair_settled h.sound h' hok

/-- What a rule that repairs finds after repairs is about marked nodes that were there before. -/
theorem finds_of_alters (hrule : rule ∈ all) (hfix : rule.isFixable) : ∃ mark, ∀ n n' v,
    Alters True n n' → ∀ f ∈ rule.detect v n'.walk, ∃ m ∈ n.walk, m.label.mark? = some mark ∧
      f.node = m.id ∧ f.line = m.place.position.line ∧ f.column = m.place.position.column := by
  by_cases hvoid : rule = selfClosingTag
  · subst hvoid
    refine ⟨.element, fun n n' v ha f hf => ?_⟩
    obtain ⟨m', hm', parts', hp', -, -, detail, rfl⟩ := mem_of_selfClosingTag hf
    obtain ⟨m, hm, parts, hp, hid, hplace, -⟩ := element_alters ha hm' hp'
    exact ⟨m, hm, mark?_of_element? hp, hid.symm, hplace ▸ rfl, hplace ▸ rfl⟩
  · have hscopes : rule ≠ safeInterpolation := by
      rintro rfl
      cases hfix
    obtain ⟨mark, hmark⟩ := findsAt_of_isFixable hrule hfix
    refine ⟨mark, fun n n' v ha f hf => ?_⟩
    obtain ⟨f₀, hf₀, hspot⟩ := covers_alters hrule hscopes (fun he => absurd he hvoid) ha v v f hf
    obtain ⟨m, hm, hl, detail, rfl⟩ := hmark v n f₀ hf₀
    simp only [Finding.spot, Finding.key, Prod.mk.injEq] at hspot
    exact ⟨m, hm, hl, hspot.1.symm, hspot.2.2.1.symm, hspot.2.2.2.symm⟩

end Rule
end JsxLint
