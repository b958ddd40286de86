import JsxLint.Proofs.Rule.Settled

/-!
# Refused repairs stay refused

The repairs of markup look at the tree alone, and repairs only take away what they need. So what
such a repair could do late it could have done before: once refused, it is refused for good. The
two repairs that ask the table of scopes are not of this kind, because a new name for a component
frees its old one.

* `Node.Alters.container_child`, `attribute_child`, `open_element`: markup in altered trees comes
  from the same markup;
* `Rule.Offered`: a finding of a round that comes to its repair;
* `Rule.repairable_of_alters`: what can be repaired in an altered tree could be repaired before.
-/

namespace JsxLint

open Node

namespace Node

variable {cuts : Prop} {a' c' m m' n n' p p' : Node} {name : String}

/-! ### Parents and children -/

/-- A parent and a child of an altered tree come from a parent and a child, unless they were put
in. -/
theorem Altered.parent_child (h : Altered cuts n n') (hp : p' ∈ n'.walk) (hc : c' ∈ p'.children)
    (hparent : ∀ k : Node, k.Inert → p' ∉ k.walk) (hchild : ¬ c'.Inert) :
    ∃ p ∈ n.walk, Altered cuts p p' ∧ ∃ c ∈ p.children, Altered cuts c c' := by
  rcases h.mem_walk hp with ⟨p, hpn, hpp⟩ | ⟨k, hk, hpk⟩
  · rcases hpp.mem_children hc with ⟨c, hcp, hcc⟩ | hinert
    · exact ⟨p, hpn, hpp, c, hcp, hcc⟩
    · exact absurd hinert hchild
  · exact absurd hpk (hparent k hk)

/-! ### Braces -/

/-- Braces among the children of an element or a fragment are part of its content. -/
theorem mem_content_of_container {hasComment : Bool} (hs : p.Shaped) (hp : p.label.isMarkup)
    (hm : m ∈ p.children) (hl : m.label = .container hasComment) : m ∈ p.content := by
  rw [content.eq_def]
  cases hlabel : p.label <;> rw [hlabel] at hp <;> first
    | exact absurd hp Bool.false_ne_true
    | exact hm
    | skip
  next isClosed removed =>
  obtain ⟨parts, he⟩ : ∃ parts, p.element? = some parts := by
    rw [element?.eq_def, hlabel]
    cases hc : p.children with
    | nil => rw [hc] at hm; cases hm
    | cons => cases isClosed <;> exact ⟨_, rfl⟩
  have hform : ∀ {k : Node}, k = m → k.label.form = "JSXExpressionContainer" := by
    rintro k rfl
    rw [hl]
    rfl
  rw [children_eq_of_element? he, List.cons_append] at hm
  dsimp only
  rw [he]
  rcases List.mem_cons.1 hm with hopening | hm
  · have := (hs.opening parts he).symm.trans (hform hopening.symm)
    exact absurd this (by decide)
  · rcases List.mem_append.1 hm with hcontent | hclosing
    · exact hcontent
    · have := (hs.closing parts he m (Option.mem_toList.1 hclosing)).1.symm.trans (hform rfl)
      exact absurd this (by decide)

/-- Braces in altered markup were there before. -/
theorem Alters.container_child {hasComment : Bool} (h : Alters cuts n n') (hp : p' ∈ n'.walk)
    (hmarkup : p'.label.isMarkup) (hc : c' ∈ p'.children) (hl : c'.label = .container hasComment) :
    ∃ p ∈ n.walk, p.label.isMarkup ∧ ∃ c ∈ p.children, c.id = c'.id := by
  induction h generalizing p' c' with
  | refl => exact ⟨p', hp, hmarkup, c', hc, rfl⟩
  | tail _ hstep ih =>
    have hparent : ∀ k : Node, k.Inert → p' ∉ k.walk := by
      intro k hk hpk
      exact absurd hmarkup (hk.forall_walk (P := fun m => ¬m.label.isMarkup)
        (by intros; exact Bool.false_ne_true) (by intros; exact Bool.false_ne_true)
        (by intros; exact Bool.false_ne_true) (by intros; exact Bool.false_ne_true) p' hpk)
    have hchild : ¬ c'.Inert := by
      rintro (_ | _) <;> cases hl
    obtain ⟨p, hpn, hpp, c, hcp, hcc⟩ := hstep.parent_child hp hc hparent hchild
    have hmarkup : p.label.isMarkup := by
      rwa [Rule.isMarkup_iff, ← hpp.keeps.form, ← Rule.isMarkup_iff]
    obtain ⟨q, hq, hqm, b, hb, hid⟩ := ih hpn hmarkup hcp (hcc.label_eq hl rfl)
    exact ⟨q, hq, hqm, b, hb, hid.trans hcc.keeps.id.symm⟩

/-! ### Attributes -/

theorem findAttribute?_isSome_iff : (p.findAttribute? name).isSome ↔ ∃ tag attributes,
    p.opening? = some (tag, attributes) ∧
      ∃ a ∈ attributes, a.attribute?.map (·.1.text) = some name := by
  rw [findAttribute?]
  cases p.opening? with
  | none => simp
  | some o => simp [Prod.ext_iff]

/-- An attribute that has its last spelling stays in its tag. -/
theorem Altered.findAttribute? (h : Altered cuts p p')
    (hlast : ∀ name', (name, name') ∉ Label.spellings) (ha : (p.findAttribute? name).isSome) :
    (p'.findAttribute? name).isSome := by
  obtain ⟨tag, attributes, ho, a, hmem, ha⟩ := findAttribute?_isSome_iff.1 ha
  have hopening := h.opening?
  rw [ho] at hopening
  cases ho' : p'.opening? with
  | none => rw [ho'] at hopening; cases hopening
  | some o' =>
    rw [ho'] at hopening
    obtain ⟨-, -, hattributes⟩ := Option.rel_some_some.1 hopening
    obtain ⟨a', hmem', haa⟩ := hattributes a hmem
    have hrel := haa.attribute?
    cases hx : a.attribute? with
    | none => rw [hx] at ha; cases ha
    | some x =>
      rw [hx] at ha hrel
      cases hx' : a'.attribute? with
      | none => rw [hx'] at hrel; cases hrel
      | some x' =>
        rw [hx'] at hrel
        obtain ⟨hname, hspelled, -⟩ := Option.rel_some_some.1 hrel
        cases Option.some.inj ha
        have htext := (hname.text_spelled hspelled).resolve_right (hlast _)
        exact findAttribute?_isSome_iff.2 ⟨_, _, ho', a', hmem', by rw [hx', Option.map_some, htext]⟩

/-- An attribute of an altered tree that could get another name, and its parent, were there
before, and it could get that name then. -/
theorem Alters.attribute_child {names : List (String × String)} {name' : Node} {value' : Option Node}
    (hnames : ∀ x ∈ Label.spellings, names.lookup x.2 = none) (hkey : names.lookup "key" = none)
    (hlast : ∀ name', (name, name') ∉ Label.spellings) (h : Alters cuts n n') (hp : p' ∈ n'.walk)
    (hc : a' ∈ p'.children) (ha : a'.attribute? = some (name', value'))
    (hlookup : names.lookup name'.text = some name) (hfree : p'.findAttribute? name = none) :
    ∃ p ∈ n.walk, p.findAttribute? name = none ∧ ∃ a ∈ p.children, a.id = a'.id ∧
      ∃ tag value, a.attribute? = some (tag, value) ∧ names.lookup tag.text = some name := by
  induction h generalizing p' a' name' value' with
  | refl => exact ⟨p', hp, hfree, a', hc, rfl, name', value', ha, hlookup⟩
  | tail _ hstep ih =>
    have hparent : ∀ k : Node, k.Inert → p' ∉ k.walk := by
      intro k hk hpk
      have hnone := hk.forall_walk (P := fun m => ∀ c ∈ m.children, c.attribute? = none)
        (by intros; contradiction) (by simp [Node.attribute?]) (by intros; contradiction)
        (by simp [Node.attribute?]) p' hpk a' hc
      rw [hnone] at ha
      cases ha
    have hchild : ¬ a'.Inert := by
      rintro (_ | _)
      · cases ha
      · cases ha
        rw [show Node.text _ = "key" from rfl, hkey] at hlookup
        cases hlookup
    obtain ⟨p, hpn, hpp, a, hap, haa⟩ := hstep.parent_child hp hc hparent hchild
    obtain ⟨tag, value, ha, -, htext⟩ := Rule.attribute_altered haa ha
    have htext : name'.text = tag.text := by
      refine htext.resolve_right fun hmem => ?_
      rw [hnames _ hmem] at hlookup
      cases hlookup
    have hfree : p.findAttribute? name = none := by
      by_contra hsome
      have := hpp.findAttribute? hlast (Option.isSome_iff_ne_none.2 hsome)
      rw [hfree] at this
      cases this
    obtain ⟨q, hq, hqfree, b, hb, hid, hrest⟩ := ih hpn hap ha (htext ▸ hlookup) hfree
    exact ⟨q, hq, hqfree, b, hb, hid.trans haa.keeps.id.symm, hrest⟩

/-! ### Elements -/

theorem Altered.isBlankText (h : Altered cuts n n') : n'.isBlankText = n.isBlankText :=
  h.label_congr (q := fun l => Node.isBlankText ⟨0, none, default, l, []⟩)
    fun l hl => by cases l <;> first | rfl | cases hl

theorem all_isBlankText {l l' : List Node} (h : List.Forall₂ (Altered cuts) l l')
    (hblank : l.all (·.isBlankText)) : l'.all (·.isBlankText) := by
  refine List.all_eq_true.2 fun k' hk' => ?_
  obtain ⟨k, hk, hkk⟩ := exists_of_forall₂ h hk'
  rw [hkk.isBlankText]
  exact List.all_eq_true.1 hblank k hk

/-- An element that is not one tag yet has its content, but for what was taken out of it, and its
closing tag. -/
theorem Altered.element?_open {parts parts' : ElementParts} (h : Altered cuts n n')
    (hp : n.element? = some parts) (hp' : n'.element? = some parts')
    (hopen : parts'.opening.label ≠ .openingTag true) :
    (parts.content.all (·.isBlankText) → parts'.content.all (·.isBlankText)) ∧
      parts'.closing.isSome = parts.closing.isSome := by
  obtain ⟨isClosed, removed, hl⟩ := Rule.label_of_element? hp
  cases h with
  | name h => rw [hl] at h; cases h
  | parameters hl' _ => cases hl.symm.trans hl'
  | openingTag hl' _ _ _ => cases hl.symm.trans hl'
  | fragment hl' _ => cases hl.symm.trans hl'
  | element hp₁ hp₂ _ _ _ hkeeps =>
    cases hp.symm.trans hp₁
    cases hp'.symm.trans hp₂
    obtain ⟨hclosing, hcontent⟩ := hkeeps.resolve_left hopen
    refine ⟨fun hblank => List.all_eq_true.2 fun k hk => ?_, by rw [hclosing]⟩
    exact List.all_eq_true.1 hblank k ((hcontent.mem hk).resolve_right not_false)
  | inside h _ =>
    obtain ⟨id, parent, place, label, old⟩ := n
    cases hl
    rcases h with _ | ⟨ho, h⟩
    · cases isClosed <;> cases hp
    · cases isClosed <;> cases hp <;> cases hp'
      · exact ⟨all_isBlankText h, rfl⟩
      · refine ⟨?_, ?_⟩
        · rw [List.dropLast_eq_take, List.dropLast_eq_take, h.length_eq]
          exact all_isBlankText (List.forall₂_take _ h)
        · rcases h with _ | ⟨_, _⟩
          · rfl
          · rw [List.getLast?_cons, List.getLast?_cons]
            rfl

/-- An element of an altered tree that is not one tag was none before, and had its closing tag; what
was blank then is blank. -/
theorem Alters.open_element {parts' : ElementParts} (h : Alters cuts n n') (hm : m' ∈ n'.walk)
    (hp' : m'.element? = some parts') (hopen : parts'.opening.label ≠ .openingTag true) :
    ∃ m ∈ n.walk, m.id = m'.id ∧ ∃ parts, m.element? = some parts ∧
      parts.opening.label ≠ .openingTag true ∧
      (parts.content.all (·.isBlankText) → parts'.content.all (·.isBlankText)) ∧
      parts'.closing.isSome = parts.closing.isSome := by
  induction h generalizing m' parts' with
  | refl => exact ⟨m', hm, rfl, parts', hp', hopen, fun h => h, rfl⟩
  | tail _ hstep ih =>
    rcases hstep.mem_walk hm with ⟨m, hmn, hmm⟩ | ⟨k, hk, hmk⟩
    · obtain ⟨parts, hp, ho, -⟩ := hmm.element? hp'
      have hopen₁ : parts.opening.label ≠ .openingTag true := fun hl => hopen (ho.selfClosing hl)
      obtain ⟨hblank, hclosing⟩ := hmm.element?_open hp hp' hopen
      obtain ⟨l, hl, hid, parts₀, hp₀, hopen₀, hblank₀, hclosing₀⟩ := ih hmn hp hopen₁
      exact ⟨l, hl, hid.trans hmm.keeps.id.symm, parts₀, hp₀, hopen₀, fun h => hblank (hblank₀ h),
        hclosing.trans hclosing₀⟩
    · have hnone := hk.forall_walk (P := fun m => m.element? = none) (by intros; rfl)
        (by intros; rfl) (by intros; rfl) (by intros; rfl) m' hmk
      rw [hnone] at hp'
      cases hp'

end Node

namespace Rule

/-- A finding that a rule made in a document, in the workspace in which it comes to its repair. -/
structure Offered (rule : Rule) (d : Document) (w : Workspace) (f : Finding) : Prop where
  formed : d.WellFormed
  found : f ∈ rule.detect (.ofDocument d) d.root.walk
  step : Workspace.Step d.fresh (.ofDocument d) w
  alters : Alters True d.root w.document.root

variable {rule : Rule} {d d' : Document} {w w' w'' : Workspace} {start start' : NodeId}
  {f f' : Finding} {change : Change}

/-- Braces among the children of an element or a fragment can go. -/
theorem EmptyExpression.exists_repair {p c : Node} {hasComment : Bool} (h : w.Sound start)
    (hp : p ∈ w.document.root.walk) (hmarkup : p.label.isMarkup) (hc : c ∈ p.children)
    (hl : c.label = .container hasComment) (hid : c.id = f.node) :
    ∃ result, repair w f = .ok result := by
  have hcw := mem_walk_trans (child_mem_walk hc) hp
  have hcontent := mem_content_of_container (h.formed.root.shaped p hp) hmarkup hc hl
  -- the braces know their parent, and the parent has them
  have hparent : markupParent? w c = some p := by
    rw [markupParent?, h.formed.root.linked p hp c hc, Option.bind_some,
      h.formed.node?_eq hp, Option.filter_some, if_pos hmarkup]
  obtain ⟨taken, htaken⟩ : ∃ taken, p.content.find? (·.id == f.node) = some taken :=
    Option.isSome_iff_exists.1 (List.find?_isSome.2 ⟨c, hcontent, beq_iff_eq.2 hid⟩)
  have hremove : ∃ document, w.document.removeChild? p.id f.node = some document := by
    rw [Document.removeChild?, h.formed.node?_eq hp]
    show ∃ document, (p.content.find? (·.id == f.node)).bind _ = some document
    rw [htaken]
    exact ⟨_, rfl⟩
  obtain ⟨document, hremove⟩ := hremove
  rw [repair, ← hid, h.formed.node?_eq hcw, Option.bind_some, hparent]
  dsimp only
  rw [hid, hremove]
  exact ⟨_, rfl⟩

/-- Empty braces that can go could go before. -/
theorem EmptyExpression.repairable_of_alters (h : emptyExpression.Offered d w f)
    (h' : emptyExpression.Offered d' w' f') (ha : Alters True w.document.root w'.document.root)
    (hnode : f'.node = f.node) (hok : repair w' f' = .ok (change, w'')) :
    ∃ result, repair w f = .ok result := by
  obtain ⟨p', hp', hmarkup', c', hc', hid', -⟩ := repair_removes h'.step.sound hok
  have hempty' := found_empty h'.formed h'.found h'.step c'
    (mem_walk_trans (child_mem_walk (content_subset c' hc')) hp') hid'
  obtain ⟨⟨hasComment, hl'⟩, -⟩ := emptyContainer_leaf hempty'
  obtain ⟨p, hp, hmarkup, c, hc, hid⟩ := ha.container_child hp' hmarkup' (content_subset c' hc') hl'
  have hid : c.id = f.node := hid.trans (hid'.trans hnode)
  have hempty := found_empty h.formed h.found h.step c
    (mem_walk_trans (child_mem_walk hc) hp) hid
  obtain ⟨⟨hasComment, hl⟩, -⟩ := emptyContainer_leaf hempty
  exact exists_repair h.step.sound hp hmarkup hc hl hid

theorem not_mem_spellings {name : String}
    (hreserved : AttributeSpelling.reservedNames.lookup name = none)
    (hcamel : AttributeSpelling.camelCaseNames.lookup name = none) (name' : String) :
    (name, name') ∉ Label.spellings := by
  intro hmem
  rcases List.mem_append.1 hmem with hmem | hmem
  · exact absurd (List.lookup_eq_none_iff.1 hreserved _ hmem) (by simp)
  · exact absurd (List.lookup_eq_none_iff.1 hcamel _ hmem) (by simp)

/-- The tag that an attribute knows as its parent is the one around it. -/
theorem AttributeSpelling.openingAround?_eq {p c : Node} (h : w.Sound start)
    (hp : p ∈ w.document.root.walk) (hc : c ∈ p.children) (name : String) :
    (openingAround? w c).bind (·.findAttribute? name) = p.findAttribute? name := by
  rw [openingAround?, h.formed.root.linked p hp c hc, Option.bind_some, h.formed.node?_eq hp,
    Option.filter_some]
  split_ifs with hopening
  · rfl
  · rw [findAttribute?, Option.not_isSome_iff_eq_none.1 hopening]
    rfl

/-- An attribute that can get its other name could get it before. -/
theorem AttributeSpelling.repairable_of_alters {info : RuleInfo} {names : List (String × String)}
    (hsub : names ⊆ Label.spellings) (hnames : ∀ x ∈ Label.spellings, names.lookup x.2 = none)
    (hkey : names.lookup "key" = none) (h : w.Sound start) (h' : w'.Sound start')
    (ha : Alters True w.document.root w'.document.root) (hnode : f'.node = f.node)
    (hok : repair info names w' f' = .ok (change, w'')) :
    ∃ result, repair info names w f = .ok result := by
  obtain ⟨a', name', value', newName, hn', hattribute', hlookup', hfree', -, -⟩ := repair_eq_ok hok
  have hl' := label_of_attribute? hattribute'
  have haw' := mem_walk_of_attribute? h'.formed hn' hattribute'
  have hid' := (h'.formed.mem_or_idle hn').1
  have hlast := not_mem_spellings (spellings_apart _ (hsub (mem_of_lookup hlookup'))).1
    (spellings_apart _ (hsub (mem_of_lookup hlookup'))).2.1
  obtain ⟨above, hpath⟩ := exists_path haw'
  rcases hpath with _ | ⟨hp', hc'⟩
  · -- the root is no attribute
    rw [h'.formed.root.program] at hl'
    cases hl'
  · rw [openingAround?_eq h' hp'.mem_walk hc'] at hfree'
    obtain ⟨p, hp, hfree, a, hc, hid, name, value, hattribute, hlookup⟩ :=
      ha.attribute_child hnames hkey hlast hp'.mem_walk hc' hattribute' hlookup' hfree'
    have haw := mem_walk_trans (child_mem_walk hc) hp
    rw [repair, ← hnode, ← hid', ← hid, h.formed.node?_eq haw]
    dsimp only
    rw [hattribute]
    dsimp only
    rw [hlookup]
    dsimp only
    rw [openingAround?_eq h hp hc, hfree]
    exact ⟨_, rfl⟩

/-- A void element that can collapse could collapse before. -/
theorem VoidElement.repairable_of_alters (h : selfClosingTag.Offered d w f)
    (h' : w'.Sound start') (ha : Alters True w.document.root w'.document.root)
    (hnode : f'.node = f.node) (hok : repair w' f' = .ok (change, w'')) :
    ∃ result, repair w f = .ok result := by
  have hsound := h.step.sound
  obtain ⟨m', parts', hn', hp', hopen', hclosing', -, -, -⟩ := repair_eq_ok hok
  obtain ⟨isClosed, removed, hl'⟩ := label_of_element? hp'
  have hmw' := h'.formed.mem_walk_of_node? hn' (by rw [hl']; exact Bool.false_ne_true)
  rw [isSelfClosing_of_element? hp', beq_eq_false_iff_ne] at hopen'
  obtain ⟨m, hm, hid, parts, hp, hopen, -, hclosing⟩ := ha.open_element hmw' hp' hopen'
  have hid : m.id = f.node := hid.trans ((h'.formed.mem_or_idle hn').1.trans hnode)
  -- the content was blank when the round began, and it can only have got shorter
  obtain ⟨k, hk, hid₀, parts₀, hp₀, -, hblank, -⟩ := h.alters.open_element hm hp hopen
  obtain ⟨k', hk', parts₁, hp₁, -, hblank₁, detail, hf⟩ := mem_of_selfClosingTag h.found
  have hnode₁ : f.node = k'.id := by rw [hf]; rfl
  obtain rfl := eq_of_id_eq h.formed.root.nodup hk hk' (hid₀.trans (hid.trans hnode₁))
  cases hp₀.symm.trans hp₁
  have hblank := hblank hblank₁
  rw [repair, ← hid, hsound.formed.node?_eq hm]
  dsimp only
  rw [hp]
  dsimp only
  rw [isSelfClosing_of_element? hp, beq_eq_false_iff_ne.2 hopen, ← Option.not_isSome, ← hclosing,
    hclosing', hblank]
  exact ⟨_, rfl⟩

/-- What a repair of markup can do in an altered tree it could do before. -/
theorem repairable_of_alters {repair : Repair} (hrule : rule ∈ all)
    (hr : rule.repair? = some repair) (hkey : rule ≠ missingKey) (hname : rule ≠ componentNaming)
    (h : rule.Offered d w f) (h' : rule.Offered d' w' f')
    (ha : Alters True w.document.root w'.document.root) (hnode : f'.node = f.node)
    (hok : repair w' f' = .ok (change, w'')) : ∃ result, repair w f = .ok result := by
  cases repairing_of_repair? hrule hr with
  | emptyExpression => exact EmptyExpression.repairable_of_alters h h' ha hnode hok
  | reservedProp =>
    exact AttributeSpelling.repairable_of_alters (List.subset_append_left _ _)
      (fun x hx => (spellings_apart x hx).1) (by decide) h.step.sound h'.step.sound ha hnode hok
  | camelCaseAttribute =>
    exact AttributeSpelling.repairable_of_alters (List.subset_append_right _ _)
      (fun x hx => (spellings_apart x hx).2.1) (by decide) h.step.sound h'.step.sound ha hnode hok
  | selfClosingTag => exact VoidElement.repairable_of_alters h h'.step.sound ha hnode hok
  | missingKey => exact absurd rfl hkey
  | componentNaming => exact absurd rfl hname

end Rule
end JsxLint
