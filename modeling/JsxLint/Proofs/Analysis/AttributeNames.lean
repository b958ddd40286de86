import JsxLint.Proofs.Analysis.Edits
import JsxLint.Proofs.Rule.Survival

/-!
# Attributes are not repeated

A repair that spells or puts in an attribute asks whether the tag has the name already. So no run of
repairs gives a tag a name twice that it did not have twice before.

* `Node.attributeNames`: the names of the attributes of an opening tag;
* `Rule.Edit.attributeNames`: what one repair makes of them;
* `Engine.rounds_attributeNames`: what a run makes of them.
-/

namespace JsxLint

open Node

/-! ### Names of attributes -/

namespace Node

/-- The name of an attribute. -/
def attributeName? (n : Node) : Option String :=
  n.attribute?.map (·.1.text)

/-- The names of the attributes of an opening tag, in their order. -/
def attributeNames (n : Node) : List String :=
  ((n.opening?.map (·.2)).getD []).filterMap attributeName?

variable {n head : Node} {attributes : List Node} {name : String}

theorem attributeNames_eq {a : Bool} (hl : n.label = .openingTag a)
    (hc : n.children = head :: attributes) :
    n.attributeNames = attributes.filterMap attributeName? := by
  rw [attributeNames, opening?.eq_def, hl, hc]
  rfl

theorem findAttribute?_eq_none_iff :
    n.findAttribute? name = none ↔ name ∉ n.attributeNames := by
  rw [← Option.not_isSome_iff_eq_none, findAttribute?_isSome_iff, attributeNames]
  refine not_congr ?_
  cases ho : n.opening? with
  | none => simp
  | some o =>
    obtain ⟨tag, attributes⟩ := o
    simp only [Option.some.injEq, Prod.mk.injEq, Option.map_some, Option.getD_some,
      List.mem_filterMap, attributeName?]
    exact ⟨fun ⟨_, _, ⟨_, rfl⟩, h⟩ => h, fun h => ⟨tag, attributes, ⟨rfl, rfl⟩, h⟩⟩

end Node

/-- Whether the names of a tag are those it had, with a key in front if it got one, or one of them
spelled in another way; the name that comes in was not there. -/
inductive NamesAfter (keyed : Prop) (names : List String) : List String → Prop
  | same : NamesAfter keyed names names
  | front (hk : keyed) (h : "key" ∉ names) : NamesAfter keyed names ("key" :: names)
  | replaced {before after : List String} {old new : String} (hs : (old, new) ∈ Label.spellings)
    (hn : names = before ++ old :: after) (h : new ∉ names) :
    NamesAfter keyed names (before ++ new :: after)

section NamesAfter

variable {keyed : Prop} {names names' : List String}

/-- No name becomes more frequent, but for one that was not there. -/
theorem NamesAfter.count_le (h : NamesAfter keyed names names') (x : String) :
    names'.count x ≤ max 1 (names.count x) := by
  cases h with
  | same => exact le_max_right _ _
  | front _ h =>
    by_cases hx : x = "key"
    · rw [hx, List.count_cons_self, List.count_eq_zero_of_not_mem h]
      exact le_max_left _ _
    · rw [List.count_cons_of_ne fun he => hx he.symm]
      exact le_max_right _ _
  | @replaced before after old new _ hn h =>
    by_cases hx : x = new
    · rw [hn, List.mem_append, List.mem_cons, not_or, not_or] at h
      rw [hx, List.count_append, List.count_cons_self, List.count_eq_zero_of_not_mem h.1,
        List.count_eq_zero_of_not_mem h.2.2]
      exact le_max_left _ _
    · refine Nat.le_trans ?_ (Nat.le_max_right _ _)
      rw [hn, List.count_append, List.count_append, List.count_cons_of_ne fun he => hx he.symm]
      exact Nat.add_le_add_left List.count_le_count_cons _

/-- No other spelling is a key, so a tag has none unless it had one or got one. -/
theorem NamesAfter.mem_key (h : NamesAfter keyed names names') (hkey : "key" ∈ names') :
    "key" ∈ names ∨ keyed := by
  cases h with
  | same => exact .inl hkey
  | front hk _ => exact .inr hk
  | replaced hs hn _ =>
    rw [hn]
    rcases List.mem_append.1 hkey with hkey | hkey
    · exact .inl (List.mem_append_left _ hkey)
    · have hne := (Rule.spellings_apart _ hs).2.2.2.2
      exact .inl (List.mem_append_right _ (List.mem_cons_of_mem _
        ((List.mem_cons.1 hkey).resolve_left fun he => hne he.symm)))

end NamesAfter

/-! ### One repair -/

namespace Rule

variable {w w' : Workspace} {start i : NodeId} {rule : Rule} {a a' o o' : Node}

/-- An attribute that is still there has its name, unless it is the one that is respelled. -/
theorem Effect.attributeName? (he : Effect w w' i rule) (h : w.Sound start) (h' : w'.Sound start)
    (ha : a ∈ w.document.root.walk) (ha' : a' ∈ w'.document.root.walk) (hid : a'.id = a.id) :
    a'.attributeName? = a.attributeName? ∨ ∃ names, Respells rule names ∧
      ∃ e : Respelling names w w' i, a = e.node ∧ a'.attributeName? = some e.spelling := by
  by_cases hl : a.label = .markupAttribute
  · have hsite := he.site_eq h h' ha ha' hid (by rw [hl]; exact Bool.false_ne_true)
    have hl' : a'.label = .markupAttribute := (congrArg Site.label hsite).trans hl
    have hids : a'.children.map (·.id) = a.children.map (·.id) := congrArg Site.children hsite
    cases hc : a.children with
    | nil =>
      rw [hc, List.map_nil, List.map_eq_nil_iff] at hids
      left
      rw [Node.attributeName?, Node.attributeName?, attribute?.eq_def, attribute?.eq_def a, hl, hl',
        hc, hids]
    | cons name rest =>
      rw [hc, List.map_cons] at hids
      obtain ⟨name', rest', hc', hname', -⟩ := List.map_eq_cons_iff.1 hids
      have hattribute : a.attribute? = some (name, rest.head?) := by rw [attribute?.eq_def, hl, hc]
      have hattribute' : a'.attribute? = some (name', rest'.head?) := by
        rw [attribute?.eq_def, hl', hc']
      have hm := mem_walk_trans (child_mem_walk (hc ▸ List.mem_cons_self)) ha
      have hm' := mem_walk_trans (child_mem_walk (hc' ▸ List.mem_cons_self)) ha'
      obtain ⟨written, hwritten⟩ :=
        markupName_of_form ((h.formed.root.shaped a ha).name name _ hattribute)
      rw [Node.attributeName?, Node.attributeName?, hattribute, hattribute', Option.map_some,
        Option.map_some, Node.text, Node.text]
      rcases he.name_label h h' hm hm' hname' ha (by rw [hl]; rfl) (hc ▸ List.mem_cons_self)
        hwritten with hsame | ⟨names, hr, e, hnode, -, hlabel⟩
      · exact .inl (by rw [hsame])
      · exact .inr ⟨names, hr, e, hnode, by rw [hlabel]; rfl⟩
  · have hform := he.form h h' ha ha' hid
    have hnone : ∀ n : Node, n.label ≠ .markupAttribute → n.attributeName? = none := by
      intro n hn
      rw [Node.attributeName?, Option.map_eq_none_iff]
      exact Option.eq_none_iff_forall_ne_some.2 fun part hp => hn (label_of_attribute? hp)
    left
    rw [hnone a hl, hnone a']
    intro hl'
    rw [hl'] at hform
    refine hl ?_
    cases hal : a.label <;> rw [hal] at hform <;> first
      | rfl
      | (simp only [Label.form] at hform; exact absurd hform (by decide))

/-- Attributes that are still there have their names, if the repair is not for one of them. -/
theorem Effect.kept_attributeNames (he : Effect w w' i rule) (h : w.Sound start)
    (h' : w'.Sound start) {old new : List Node} (hmem : ∀ a ∈ old, a ∈ w.document.root.walk)
    (hmem' : ∀ a ∈ new, a ∈ w'.document.root.walk) (hids : new.map (·.id) = old.map (·.id))
    (hi : i ∉ old.map (·.id)) :
    new.filterMap Node.attributeName? = old.filterMap Node.attributeName? := by
  induction old generalizing new with
  | nil => rw [List.map_eq_nil_iff.1 hids]
  | cons a old ih =>
    rw [List.map_cons] at hids hi
    obtain ⟨a', new, rfl, hid, hids⟩ := List.map_eq_cons_iff.1 hids
    rw [List.mem_cons, not_or] at hi
    have hrest := ih (fun x hx => hmem x (List.mem_cons_of_mem _ hx))
      (fun x hx => hmem' x (List.mem_cons_of_mem _ hx)) hids hi.2
    have hname : a'.attributeName? = a.attributeName? := by
      rcases he.attributeName? h h' (hmem a List.mem_cons_self) (hmem' a' List.mem_cons_self) hid
        with hsame | ⟨_, -, e, rfl, -⟩
      · exact hsame
      · exact absurd e.id.symm hi.1
    rw [List.filterMap_cons, List.filterMap_cons, hname, hrest]

/-- Attributes of a tag that are still there have their names, of which one may be respelled. -/
theorem Effect.attributeNames (he : Effect w w' i rule) (h : w.Sound start) (h' : w'.Sound start)
    {head : Node} {old new : List Node} {selfClosing : Bool} (ho : o ∈ w.document.root.walk)
    (hl : o.label = .openingTag selfClosing) (hc : o.children = head :: old)
    (hmem' : ∀ a ∈ new, a ∈ w'.document.root.walk) (hids : new.map (·.id) = old.map (·.id))
    (keyed : Prop) : NamesAfter keyed (old.filterMap Node.attributeName?)
      (new.filterMap Node.attributeName?) := by
  have hchild : ∀ a ∈ old, a ∈ o.children := fun a ha => hc ▸ List.mem_cons_of_mem _ ha
  have hmem : ∀ a ∈ old, a ∈ w.document.root.walk := fun a ha =>
    mem_walk_trans (child_mem_walk (hchild a ha)) ho
  by_cases hi : i ∈ old.map (·.id)
  · obtain ⟨a, ha, hai⟩ := List.mem_map.1 hi
    obtain ⟨before, after, rfl⟩ := List.append_of_mem ha
    rw [List.map_append, List.map_cons] at hids
    obtain ⟨before', rest', rfl, hbefore, hrest⟩ := List.map_eq_append_iff.1 hids
    obtain ⟨a', after', rfl, hid, hafter⟩ := List.map_eq_cons_iff.1 hrest
    -- no attribute but this one has its name in the tree
    have hd := nodup_children (nodup_of_mem h.formed.root.nodup ho)
    rw [hc, List.map_cons, List.nodup_cons, List.map_append, List.map_cons,
      List.nodup_append] at hd
    obtain ⟨-, -, hda, hapart⟩ := hd
    rw [hai] at hda hapart
    have hi₁ : i ∉ before.map (·.id) := fun hx => hapart _ hx _ List.mem_cons_self rfl
    have hi₂ : i ∉ after.map (·.id) := (List.nodup_cons.1 hda).1
    have hsame₁ := he.kept_attributeNames h h' (fun x hx => hmem x (List.mem_append_left _ hx))
      (fun x hx => hmem' x (List.mem_append_left _ hx)) hbefore hi₁
    have hsame₂ := he.kept_attributeNames h h'
      (fun x hx => hmem x (List.mem_append_right _ (List.mem_cons_of_mem _ hx)))
      (fun x hx => hmem' x (List.mem_append_right _ (List.mem_cons_of_mem _ hx))) hafter hi₂
    rw [List.filterMap_append, List.filterMap_append, List.filterMap_cons, List.filterMap_cons,
      hsame₁, hsame₂]
    rcases he.attributeName? h h' (hmem a ha)
      (hmem' a' (List.mem_append_right _ List.mem_cons_self)) hid
      with hsame | ⟨_, hr, e, rfl, hname⟩
    · rw [hsame]
      exact .same
    · have hold : e.node.attributeName? = some e.name.text := by
        rw [Node.attributeName?, e.attribute?]
        rfl
      have hfree := findAttribute?_eq_none_iff.1 (e.free o ho (hchild _ ha))
      rw [attributeNames_eq hl hc, List.filterMap_append, List.filterMap_cons, hold] at hfree
      rw [hname, hold]
      exact .replaced (hr.subset (mem_of_lookup e.lookup)) rfl hfree
  · rw [he.kept_attributeNames h h' hmem hmem' hids hi]
    exact .same

/-- The element that gets a key is none of its attributes. -/
theorem Keying.not_mem_attributes (e : Keying w w' i) (h : w.Sound start) :
    i ∉ e.attributes.map (·.id) := by
  intro hi
  obtain ⟨a, ha, hai⟩ := List.mem_map.1 hi
  have hopening : e.parts.opening ∈ e.element.children :=
    children_eq_of_element? e.element? ▸ List.mem_cons_self
  exact id_not_mem_child (nodup_of_mem h.formed.root.nodup e.mem) hopening
    (mem_ids_of_child (e.children ▸ List.mem_cons_of_mem _ ha)
      (mem_ids.2 ⟨a, a.self_mem_walk, hai.trans e.id.symm⟩))

/-- The attribute that is put in is named for the key. -/
theorem Keying.key_attributeName? (e : Keying w w' i) (h : w.Sound start) (h' : w'.Sound start)
    {key : Node} (hkey : key ∈ w'.document.root.walk)
    (hid : key.id = w.document.fresh + e.added.length) : key.attributeName? = some "key" := by
  have hfresh : ∀ {n : Node}, n ∈ w.document.root.walk → ∀ k, n.id ≠ w.document.fresh + k :=
    fun hn k he => absurd (h.formed.root.lt_fresh _ (id_mem_ids hn))
      (he ▸ Nat.not_lt.2 (Nat.le_add_right _ k))
  -- the nodes of the key are the last ones that are made
  have hsite : ∀ n ∈ w'.document.root.walk, ∀ k, n.id = w.document.fresh + e.added.length + k →
      (ListKey.placedKey (w.document.fresh + e.added.length) e.parts.opening.id
        e.parts.opening.place.position e.name).site? n.id = some n.site := by
    intro n hn k hk
    have hx := site?_of_mem h'.formed.root.nodup hn
    have hlow : w.document.fresh + e.added.length ≤ n.id := hk ▸ Nat.le_add_right _ k
    rw [Nat.add_assoc] at hk
    rw [e.site?, if_neg fun he => hfresh (e.opening_mem h).1 _ (he ▸ hk),
      if_neg fun he => hfresh (e.parameters_mem h).1 _ (he ▸ hk),
      if_neg (hk ▸ Nat.not_lt.2 (Nat.le_add_right _ _)), List.findSome?_append,
      ListKey.placedParameters_site?_eq_none (.inr hlow), Option.none_or, List.findSome?_cons]
      at hx
    cases hp : (ListKey.placedKey (w.document.fresh + e.added.length) e.parts.opening.id
        e.parts.opening.place.position e.name).site? n.id with
    | none => rw [hp] at hx; cases hx
    | some x => rw [hp] at hx; exact hx
  have hd := ListKey.placedKey_nodup (w.document.fresh + e.added.length) e.parts.opening.id
    e.parts.opening.place.position e.name
  have hself := hsite key hkey 0 hid
  rw [hid] at hself
  have hself := Option.some.inj ((site?_of_mem hd (self_mem_walk _)).symm.trans hself)
  have hl : key.label = .markupAttribute := (congrArg Site.label hself).symm
  have hids : key.children.map (·.id) = _ := (congrArg Site.children hself).symm
  obtain ⟨name, rest, hc, hname, -⟩ := List.map_eq_cons_iff.1 hids
  have hmem := mem_walk_trans (child_mem_walk (hc ▸ List.mem_cons_self)) hkey
  have hlabel := hsite name hmem 1 hname
  rw [hname, site?_of_mem hd (by rw [ListKey.placedKey_walk]; simp), Option.some.injEq] at hlabel
  have hlabel : name.label = .markupName "key" := (congrArg Site.label hlabel).symm
  rw [Node.attributeName?, attribute?.eq_def, hl, hc, Option.map_some, Node.text, hlabel]
  rfl

/-- The tag that gets a key has it in front of the names that it had, and these were no keys. -/
theorem Keying.attributeNames (e : Keying w w' i) (h : w.Sound start) (h' : w'.Sound start)
    (ho' : o' ∈ w'.document.root.walk) (hl' : o'.label = e.parts.opening.label)
    (hids : o'.children.map (·.id) =
      e.head.id :: (w.document.fresh + e.added.length) :: e.attributes.map (·.id)) :
    o'.attributeNames = "key" :: e.parts.opening.attributeNames ∧
      "key" ∉ e.parts.opening.attributeNames := by
  obtain ⟨ho, _, hl⟩ := e.opening_mem h
  obtain ⟨head', rest, hc', -, hrest⟩ := List.map_eq_cons_iff.1 hids
  obtain ⟨key, new, rfl, hkey, hnew⟩ := List.map_eq_cons_iff.1 hrest
  have hchild : ∀ a ∈ key :: new, a ∈ w'.document.root.walk := fun a ha =>
    mem_walk_trans (child_mem_walk (hc' ▸ List.mem_cons_of_mem _ ha)) ho'
  have hsame := (Effect.missingKey e).kept_attributeNames h h' (fun a ha => mem_walk_trans
    (child_mem_walk (e.children ▸ List.mem_cons_of_mem _ ha)) ho)
    (fun a ha => hchild a (List.mem_cons_of_mem _ ha)) hnew (e.not_mem_attributes h)
  refine ⟨?_, findAttribute?_eq_none_iff.1 e.unkeyed⟩
  rw [attributeNames_eq (hl'.trans hl) hc', attributeNames_eq hl e.children, List.filterMap_cons,
    e.key_attributeName? h h' (hchild key List.mem_cons_self) hkey, hsame]

/-- The names of a tag after a repair. -/
theorem Edit.attributeNames {f : Finding} {d : Document} (he : rule.Edit f d w w')
    {selfClosing : Bool} (ho : o ∈ w.document.root.walk)
    (hl : o.label = .openingTag selfClosing) (ho' : o' ∈ w'.document.root.walk)
    (hid : o'.id = o.id) :
    NamesAfter (rule = Rule.missingKey ∧ ∃ e : Keying w w' f.node, o = e.parts.opening)
      o.attributeNames o'.attributeNames := by
  have h := he.before.sound
  have h' := he.step.sound
  obtain ⟨head, old, hc⟩ := List.exists_cons_of_ne_nil
    ((he.regular.named.alters he.reached) o ho (by rw [hl]; rfl))
  -- the tag has its attributes, unless a key is put in
  have hkept : ∀ b, o'.label = .openingTag b →
      o'.children.map (·.id) = o.children.map (·.id) → ∀ keyed,
      NamesAfter keyed o.attributeNames o'.attributeNames := by
    intro b hl' hids keyed
    rw [hc, List.map_cons] at hids
    obtain ⟨head', new, hc', -, hids⟩ := List.map_eq_cons_iff.1 hids
    rw [attributeNames_eq hl hc, attributeNames_eq hl' hc']
    exact he.effect.attributeNames h h' ho hl hc (fun a ha => mem_walk_trans
      (child_mem_walk (hc' ▸ List.mem_cons_of_mem _ ha)) ho') hids keyed
  rcases he.effect.site_cases h ho h' ho' hid with hsame | hedit
  · exact hkept _ ((congrArg Site.label hsame).trans hl) (congrArg Site.children hsame) _
  · generalize hx : o'.site = x at hedit
    have hl' : o'.label = x.label := congrArg Site.label hx
    have hids : o'.children.map (·.id) = x.children := congrArg Site.children hx
    cases hedit with
    | spelling _ e => cases hl.symm.trans e.label
    | owner e =>
      have hmarkup := e.isMarkup
      rw [hl] at hmarkup
      cases hmarkup
    | element e =>
      obtain ⟨_, _, hl'⟩ := label_of_element? e.element?
      cases hl.symm.trans hl'
    | opening e => exact hkept _ hl' hids _
    | tag e =>
      obtain ⟨hnames, hunkeyed⟩ := e.attributeNames h h' ho' hl' hids
      rw [hnames]
      exact .front ⟨rfl, e, rfl⟩ hunkeyed
    | parameters e =>
      obtain ⟨-, _, hl'⟩ := e.parameters_mem h
      cases hl.symm.trans hl'
    | name e hm => exact hkept _ (hl'.trans (by rw [hl]; rfl)) hids _

end Rule

/-! ### All repairs -/

/-- Whether every element of a tree is still in another one, and no name of an attribute has become
more frequent on its tag, but for names that are there once. -/
def Node.KeepsNames (n n' : Node) : Prop :=
  ∀ m ∈ n.walk, ∀ parts, m.element? = some parts → ∃ m' ∈ n'.walk, m'.id = m.id ∧
    ∃ parts', m'.element? = some parts' ∧ ∀ name,
      parts'.opening.attributeNames.count name ≤ max 1 (parts.opening.attributeNames.count name)

theorem Node.KeepsNames.refl (n : Node) : n.KeepsNames n :=
  fun m hm parts hp => ⟨m, hm, rfl, parts, hp, fun _ => le_max_right _ _⟩

/-- What one repair makes of the names. -/
theorem Rule.Edit.keepsNames {rule : Rule} {f : Finding} {d : Document} {w w' : Workspace} {n : Node}
    (he : rule.Edit f d w w') (h : n.KeepsNames w.document.root) :
    n.KeepsNames w'.document.root := by
  intro m hm parts hp
  obtain ⟨m₁, hm₁, hid₁, parts₁, hp₁, hcount₁⟩ := h m hm parts hp
  obtain ⟨m₂, hm₂, -, ha⟩ := he.alters.survives hm₁ (not_idle_of_element? hp₁)
  obtain ⟨parts₂, hp₂, ho⟩ := ha.exists_element? hp₁
  obtain ⟨a, hl⟩ := openingTag_of_form
    ((he.before.sound.formed.root.shaped _ hm₁).opening _ hp₁)
  have hnames := he.attributeNames (mem_walk_trans (opening_mem_walk hp₁) hm₁) hl
    (mem_walk_trans (opening_mem_walk hp₂) hm₂) ho.keeps.id
  refine ⟨m₂, hm₂, ha.keeps.id.trans hid₁, parts₂, hp₂, fun name => ?_⟩
  calc parts₂.opening.attributeNames.count name
      ≤ max 1 (parts₁.opening.attributeNames.count name) := hnames.count_le name
    _ ≤ max 1 (parts.opening.attributeNames.count name) :=
      max_le (le_max_left _ _) (hcount₁ name)

namespace Engine

variable {e : Engine} {path text : String} {d : Document} {m : Node} {parts : ElementParts}

/-- However many rounds are run, with whatever rules: every element is still there, and no name of
an attribute is more frequent on it than it was, or than once; names that were different are. -/
theorem rounds_attributeNames (hplain : (e.grammar (.ofPath path) text).TagsPlain)
    (hnamed : (e.grammar (.ofPath path) text).TagsNamed)
    (hread : Document.read e.grammar path text = .ok d) (hrules : e.rules ⊆ Rule.all)
    (fix : Bool) (n : Nat) (calls : Calls) (hm : m ∈ d.root.walk) (hp : m.element? = some parts) :
    ∃ m' ∈ (e.rounds fix n (.start d calls)).1.document.root.walk, m'.id = m.id ∧
      ∃ parts', m'.element? = some parts' ∧
        (∀ name, parts'.opening.attributeNames.count name ≤
          max 1 (parts.opening.attributeNames.count name)) ∧
        (parts.opening.attributeNames.Nodup → parts'.opening.attributeNames.Nodup) := by
  obtain ⟨-, hkeeps⟩ := rounds_edits (e := e) (p := .start d calls)
    (J := fun d' _ => d.root.KeepsNames d'.root) hrules
    (fun _ _ _ _ _ _ _ _ he _ _ h => he.keepsNames h) fix n (.of_read hplain hnamed hread)
    (.refl d.root)
  obtain ⟨m', hm', hid, parts', hp', hcount⟩ := hkeeps m hm parts hp
  refine ⟨m', hm', hid, parts', hp', hcount, fun hd => List.nodup_iff_count_le_one.2 fun name => ?_⟩
  calc parts'.opening.attributeNames.count name
      ≤ max 1 (parts.opening.attributeNames.count name) := hcount name
    _ ≤ 1 := max_le le_rfl (List.nodup_iff_count_le_one.1 hd name)

end Engine

/-! ### A tag that says a name twice -/

namespace Concrete

/-- The tree of `<i class class for tabindex/>;`. -/
def doubledTag : Concrete :=
  rule "program" 0 31 none
    [rule "expression_statement" 0 30 none
      [rule "jsx_self_closing_element" 0 29 none
          [token "<" 0 1, rule "identifier" 1 2 (some "name") [],
            rule "jsx_attribute" 3 8 (some "attribute") [rule "property_identifier" 3 8 none []],
            rule "jsx_attribute" 9 14 (some "attribute") [rule "property_identifier" 9 14 none []],
            rule "jsx_attribute" 15 18 (some "attribute")
              [rule "property_identifier" 15 18 none []],
            rule "jsx_attribute" 19 27 (some "attribute")
              [rule "property_identifier" 19 27 none []],
            token "/>" 27 29],
        token ";" 29 30]]

end Concrete

namespace Engine

/-- All rules at work on `Concrete.doubledTag`. -/
def doubled : Engine :=
  ⟨Rule.all, fun _ _ => Concrete.doubledTag, .none, true, 3⟩

/-- The text of `Concrete.doubledTag`. -/
def doubledText : String := "<i class class for tabindex/>;\n"

/-- The first of two equal names is respelled, and the second one is not. -/
theorem doubled_attributeNames : ∃ d m parts,
    Document.read doubled.grammar "A.jsx" doubledText = .ok d ∧ m ∈ d.root.walk ∧ m.element? = some parts ∧
    parts.opening.attributeNames = ["class", "class", "for", "tabindex"] ∧
    ∃ m' parts', m'.id = m.id ∧ m'.element? = some parts' ∧
      m' ∈ (doubled.rounds true 3 (.start d .none)).1.document.root.walk ∧
      parts'.opening.attributeNames = ["className", "class", "htmlFor", "tabIndex"] ∧
      ∀ name, parts'.opening.attributeNames.count name ≤
        max 1 (parts.opening.attributeNames.count name) := by
  have hfacts : (Document.read doubled.grammar "A.jsx" doubledText).map (fun d =>
      d.root.walk.any fun m => m.element?.any fun parts =>
        parts.opening.attributeNames == ["class", "class", "for", "tabindex"] &&
        (doubled.rounds true 3 (.start d .none)).1.document.root.walk.all fun m' =>
          m'.element?.all fun parts' =>
            parts'.opening.attributeNames == ["className", "class", "htmlFor", "tabIndex"]) =
        .ok true := by
    decide +kernel
  obtain ⟨d, hread, hvalues⟩ := Reading.map_eq_ok.1 hfacts
  obtain ⟨m, hm, hvalues⟩ := List.any_eq_true.1 hvalues
  obtain ⟨parts, hp, hvalues⟩ := (Option.any_eq_true _ _).1 hvalues
  rw [Bool.and_eq_true, beq_iff_eq] at hvalues
  obtain ⟨m', hm', hid, parts', hp', hcount, -⟩ := rounds_attributeNames (e := doubled)
    (by decide +kernel) (by decide +kernel) hread (List.Subset.refl _) true 3 .none hm hp
  have hnames := List.all_eq_true.1 hvalues.2 m' hm'
  rw [hp', Option.all_some, beq_iff_eq] at hnames
  exact ⟨d, m, parts, hread, hm, hp, hvalues.1, m', parts', hid, hp', hm', hnames, hcount⟩

end Engine
end JsxLint
