import JsxLint.Proofs.Rule.Markup

/-!
# Altered trees

What the repairs of the rules can make of a tree, in terms of what the rules look at. Names get
another name, lists of parameters and of attributes get longer, content gets shorter; all else
stays as it was around the edited node.

* `Label.Renames`, `Label.Spelled`: names that a repair may give;
* `Spliced`: lists into which elements were put and from which elements were taken;
* `Node.Inert`: the trees that repairs put in;
* `Node.Altered`: what one repair makes of a tree;
* `Altered.modify`: an edit of one node alters the tree around it.
-/

namespace JsxLint

/-! ### Names -/

namespace Label

/-- The names that an attribute may get for another one. -/
def spellings : List (String × String) :=
  Rule.AttributeSpelling.reservedNames ++ Rule.AttributeSpelling.camelCaseNames

/-- Whether a label gets another name as the repairs give them. -/
inductive Renames : Label → Label → Prop
  | identifier (name written : String) (shorthand : Option Shorthand) :
    Renames (.identifier name written shorthand)
      (.identifier (Letter.capitalise name) written shorthand)
  | markupName (name : String) : Renames (.markupName name) (.markupName (Letter.capitalise name))
  | spelling {name name' : String} (h : (name, name') ∈ spellings) :
    Renames (.markupName name) (.markupName name')

/-- Whether the name of a tag or an attribute has at most another spelling. -/
def Spelled (l l' : Label) : Prop :=
  l' = l ∨ ∃ name name', (name, name') ∈ spellings ∧ l = .markupName name ∧ l' = .markupName name'

/-- Labels of nodes whose first child is the name of a tag or an attribute. -/
def isTagged : Label → Bool
  | .markupAttribute | .openingTag _ => true
  | _ => false

/-- Labels of nodes that a repair may edit. -/
def isAlterable : Label → Bool
  | .identifier .. | .markupName _ | .parameters _ | .openingTag _ | .element .. | .fragment _ =>
    true
  | _ => false

theorem isAlterable_of_form {l l' : Label} (h : l'.form = l.form) :
    l'.isAlterable = l.isAlterable := by
  have hiff : ∀ l : Label, l.isAlterable = ["Identifier", "JSXName", "Parameters",
      "JSXOpeningElement", "JSXElement", "JSXFragment"].contains l.form := by
    intro l
    cases l <;> rfl
  rw [hiff, hiff, h]

theorem Renames.form {l l' : Label} (h : l.Renames l') : l'.form = l.form := by
  cases h <;> rfl

theorem Renames.isAlterable {l l' : Label} (h : l.Renames l') : l.isAlterable := by
  cases h <;> rfl

theorem Renames.name? {l l' : Label} (h : l.Renames l') : ∃ name name',
    l.name? = some name ∧ l'.name? = some name' ∧
      (name' = Letter.capitalise name ∨ (name, name') ∈ spellings) := by
  cases h with
  | identifier name => exact ⟨name, _, rfl, rfl, .inl rfl⟩
  | markupName name => exact ⟨name, _, rfl, rfl, .inl rfl⟩
  | spelling h => exact ⟨_, _, rfl, rfl, .inr h⟩

end Label

/-! ### Lists -/

section Spliced

variable {α β : Type} {new old : α → Prop} {l l' : List α} {a : α}

/-- Whether a list comes from another one by putting in and taking out elements. -/
inductive Spliced (new old : α → Prop) : List α → List α → Prop
  | nil : Spliced new old [] []
  | keep {l l' : List α} (a : α) (h : Spliced new old l l') : Spliced new old (a :: l) (a :: l')
  | add {l l' : List α} {a : α} (ha : new a) (h : Spliced new old l l') :
    Spliced new old l (a :: l')
  | drop {l l' : List α} {a : α} (ha : old a) (h : Spliced new old l l') :
    Spliced new old (a :: l) l'

theorem Spliced.refl (new old : α → Prop) (l : List α) : Spliced new old l l := by
  induction l with
  | nil => exact .nil
  | cons a l ih => exact .keep a ih

theorem Spliced.append {m m' : List α} (h : Spliced new old l l') (h' : Spliced new old m m') :
    Spliced new old (l ++ m) (l' ++ m') := by
  induction h with
  | nil => exact h'
  | keep a _ ih => exact .keep a ih
  | add ha _ ih => exact .add ha ih
  | drop ha _ ih => exact .drop ha ih

theorem Spliced.filter {p : α → Bool} (h : ∀ a ∈ l, p a = false → old a) :
    Spliced new old l (l.filter p) := by
  induction l with
  | nil => exact .nil
  | cons a l ih =>
    have ih := ih fun b hb => h b (List.mem_cons_of_mem _ hb)
    cases hp : p a with
    | true =>
      rw [List.filter_cons_of_pos hp]
      exact .keep a ih
    | false =>
      rw [List.filter_cons_of_neg (by rw [hp]; exact Bool.false_ne_true)]
      exact .drop (h a List.mem_cons_self hp) ih

theorem Spliced.mem (h : Spliced new old l l') (ha : a ∈ l') : a ∈ l ∨ new a := by
  induction h with
  | nil => cases ha
  | keep b _ ih =>
    rcases List.mem_cons.1 ha with rfl | ha
    · exact .inl List.mem_cons_self
    · exact (ih ha).imp_left (List.mem_cons_of_mem _)
  | add hb _ ih =>
    rcases List.mem_cons.1 ha with rfl | ha
    · exact .inr hb
    · exact ih ha
  | drop _ _ ih => exact (ih ha).imp_left (List.mem_cons_of_mem _)

theorem Spliced.mem_of_mem (h : Spliced new old l l') (ha : a ∈ l) : a ∈ l' ∨ old a := by
  induction h with
  | nil => cases ha
  | keep b _ ih =>
    rcases List.mem_cons.1 ha with rfl | ha
    · exact .inl List.mem_cons_self
    · exact (ih ha).imp_left (List.mem_cons_of_mem _)
  | add _ _ ih => exact (ih ha).imp_left (List.mem_cons_of_mem _)
  | drop hb _ ih =>
    rcases List.mem_cons.1 ha with rfl | ha
    · exact .inr hb
    · exact ih ha

/-- What the elements put in and taken out have no part in stays the same. -/
theorem Spliced.flatMap {f : α → List β} (h : Spliced new old l l') (hnew : ∀ a, new a → f a = [])
    (hold : ∀ a, old a → f a = []) : l'.flatMap f = l.flatMap f := by
  induction h with
  | nil => rfl
  | keep a _ ih => rw [List.flatMap_cons, List.flatMap_cons, ih]
  | add ha _ ih => rw [List.flatMap_cons, hnew _ ha, List.nil_append, ih]
  | drop ha _ ih => rw [List.flatMap_cons, hold _ ha, List.nil_append, ih]

theorem Spliced.of_tail (hh : l'.head? = l.head?) (h : Spliced new old l.tail l'.tail) :
    Spliced new old l l' := by
  cases l <;> cases l' <;> simp_all only [List.head?_cons, List.head?_nil, List.tail_cons,
    Option.some.injEq, reduceCtorEq]
  · exact .nil
  · exact .keep _ h

theorem Spliced.drops (h : ∀ a ∈ l, old a) : Spliced new old l [] := by
  induction l with
  | nil => exact .nil
  | cons a l ih =>
    exact .drop (h a List.mem_cons_self) (ih fun b hb => h b (List.mem_cons_of_mem _ hb))

end Spliced

theorem forall₂_flatMap {α β γ δ : Type} {R : α → β → Prop} {P : γ → δ → Prop} {f : α → List γ}
    {g : β → List δ} {l : List α} {m : List β} (h : List.Forall₂ R l m)
    (hf : ∀ a ∈ l, ∀ b, R a b → List.Forall₂ P (f a) (g b)) :
    List.Forall₂ P (l.flatMap f) (m.flatMap g) := by
  induction h with
  | nil => exact .nil
  | cons hab _ ih =>
    rw [List.flatMap_cons, List.flatMap_cons]
    exact List.rel_append (hf _ List.mem_cons_self _ hab)
      (ih fun a ha => hf a (List.mem_cons_of_mem _ ha))

theorem forall₂_filterMap {α β γ δ : Type} {R : α → β → Prop} {P : γ → δ → Prop}
    {f : α → Option γ} {g : β → Option δ} {l : List α} {m : List β} (h : List.Forall₂ R l m)
    (hf : ∀ a ∈ l, ∀ b, R a b → Option.Rel P (f a) (g b)) :
    List.Forall₂ P (l.filterMap f) (m.filterMap g) := by
  rw [List.filterMap_eq_flatMap_toList, List.filterMap_eq_flatMap_toList]
  refine forall₂_flatMap h fun a ha b hab => ?_
  have hr := hf a ha b hab
  cases ha : f a <;> cases hb : g b <;> rw [ha, hb] at hr
  · exact .nil
  · cases hr
  · cases hr
  · cases hr with
    | some h => exact .cons h .nil

theorem rel_map {α β γ δ : Type} {R : α → β → Prop} {P : γ → δ → Prop} {f : α → γ} {g : β → δ}
    {a : Option α} {b : Option β} (h : Option.Rel R a b) (hf : ∀ x y, R x y → P (f x) (g y)) :
    Option.Rel P (a.map f) (b.map g) := by
  cases h with
  | none => exact .none
  | some h => exact .some (hf _ _ h)

theorem rel_bind {α β γ δ : Type} {R : α → β → Prop} {P : γ → δ → Prop} {f : α → Option γ}
    {g : β → Option δ} {a : Option α} {b : Option β} (h : Option.Rel R a b)
    (hf : ∀ x y, R x y → Option.Rel P (f x) (g y)) : Option.Rel P (a.bind f) (b.bind g) := by
  cases h with
  | none => exact .none
  | some h => exact hf _ _ h

namespace Node

/-! ### Trees that repairs put in -/

/-- Whether a tree is one that repairs put in: an identifier, or a `key` attribute whose value is
one. -/
inductive Inert : Node → Prop
  | name (id : NodeId) (parent : Option NodeId) (place : Place) (name written : String)
    (shorthand : Option Shorthand) :
    Inert ⟨id, parent, place, .identifier name written shorthand, []⟩
  | key {value : Node} (h : Inert value) (hl : value.label.isIdentifier) (i j k : NodeId)
    (o p q : Option NodeId) (x y z : Place) : Inert ⟨i, o, x, .markupAttribute,
      [⟨j, p, y, .markupName "key", []⟩, ⟨k, q, z, .container false, [value]⟩]⟩

variable {cuts : Prop} {id : NodeId} {edit : Node → Node} {m m' n n' : Node}

/-- What holds of the nodes of trees that repairs put in. -/
theorem Inert.forall_walk {P : Node → Prop}
    (hname : ∀ id parent place name written shorthand,
      P ⟨id, parent, place, .identifier name written shorthand, []⟩)
    (hkey : ∀ i j k o p q x y z id parent place name written shorthand,
      P ⟨i, o, x, .markupAttribute, [⟨j, p, y, .markupName "key", []⟩, ⟨k, q, z, .container false,
        [⟨id, parent, place, .identifier name written shorthand, []⟩]⟩]⟩)
    (htag : ∀ id parent place, P ⟨id, parent, place, .markupName "key", []⟩)
    (hbraces : ∀ k q z id parent place name written shorthand, P ⟨k, q, z, .container false,
      [⟨id, parent, place, .identifier name written shorthand, []⟩]⟩)
    (h : n.Inert) : ∀ m ∈ n.walk, P m := by
  intro m hm
  cases h with
  | name =>
    cases List.mem_singleton.1 hm
    exact hname ..
  | key h hl =>
    cases h with
    | key => cases hl
    | name =>
      simp only [walk, walkAll, List.nil_append, List.append_nil, List.cons_append, List.mem_cons,
        List.not_mem_nil, or_false] at hm
      rcases hm with rfl | rfl | rfl | rfl
      · exact hkey ..
      · exact htag ..
      · exact hbraces ..
      · exact hname ..

/-! ### Altered trees -/

/-- Whether a tree is what one repair, at most, makes of another one. With `cuts`, content may be
cut without closing the tag. -/
inductive Altered (cuts : Prop) : Node → Node → Prop
  | name {n : Node} {label : Label} (h : n.label.Renames label) : Altered cuts n { n with label }
  | parameters {n : Node} {children : List Node} {a b : Bool} (hl : n.label = .parameters a)
    (h : Spliced Inert (fun _ => False) n.children children) :
    Altered cuts n { n with label := .parameters b, children }
  | openingTag {n : Node} {children : List Node} {a b : Bool} (hl : n.label = .openingTag a)
    (hb : a → b) (hn : children.head? = n.children.head?)
    (h : Spliced Inert (fun _ => False) n.children.tail children.tail) :
    Altered cuts n { n with label := .openingTag b, children }
  | element {n : Node} {label : Label} {children : List Node} {parts parts' : ElementParts}
    (hp : n.element? = some parts) (hp' : { n with label, children : Node }.element? = some parts')
    (ho : Altered cuts parts.opening parts'.opening)
    (h : Spliced (fun _ => False) Idle (parts.content ++ parts.closing.toList)
      (parts'.content ++ parts'.closing.toList))
    (hc : cuts ∨ parts'.opening.label = .openingTag true)
    (hkeeps : parts'.opening.label = .openingTag true ∨
      parts'.closing = parts.closing ∧
        Spliced (fun _ => False) Idle parts.content parts'.content) :
    Altered cuts n { n with label, children }
  | fragment {n : Node} {children : List Node} {removed removed' : List Span}
    (hl : n.label = .fragment removed) (h : Spliced (fun _ => False) Idle n.children children) :
    Altered cuts n { n with label := .fragment removed', children }
  | inside {n : Node} {children : List Node} (h : List.Forall₂ (Altered cuts) n.children children)
    (hn : n.label.isTagged → ∀ c ∈ n.children.head?, ∀ c' ∈ children.head?,
      c.label.name?.isSome → c.label.Spelled c'.label) : Altered cuts n { n with children }

namespace Altered

theorem refl (cuts : Prop) (n : Node) : Altered cuts n n := by
  induction n using induct with
  | step n ih =>
    obtain ⟨id, parent, place, label, children⟩ := n
    exact .inside (List.forall₂_same.2 ih) fun _ c hc c' hc' _ =>
      .inl (congrArg Node.label (Option.mem_unique hc' hc))

/-- An altered node has its name, its parent and its kind. -/
theorem keeps (h : Altered cuts n n') : n.Keeps n' := by
  cases h with
  | name h => exact ⟨rfl, rfl, h.form⟩
  | parameters hl _ => exact ⟨rfl, rfl, by rw [hl]; rfl⟩
  | openingTag hl _ _ _ => exact ⟨rfl, rfl, by rw [hl]; rfl⟩
  | element hp hp' _ _ _ =>
    obtain ⟨isClosed, removed, hl⟩ := Rule.label_of_element? hp
    obtain ⟨isClosed', removed', hl'⟩ := Rule.label_of_element? hp'
    exact ⟨rfl, rfl, (congrArg Label.form hl').trans (congrArg Label.form hl).symm⟩
  | fragment hl _ => exact ⟨rfl, rfl, by rw [hl]; rfl⟩
  | inside _ _ => exact ⟨rfl, rfl, rfl⟩

theorem place (h : Altered cuts n n') : n'.place = n.place := by
  cases h <;> rfl

/-- Around the edited node labels stay. -/
theorem around (h : Altered cuts n n') (hl : ¬n.label.isAlterable) :
    n'.label = n.label ∧ List.Forall₂ (Altered cuts) n.children n'.children := by
  cases h with
  | inside h _ => exact ⟨rfl, h⟩
  | name h => exact absurd h.isAlterable hl
  | parameters hl' _ => exact absurd (by rw [hl']; rfl) hl
  | openingTag hl' _ _ _ => exact absurd (by rw [hl']; rfl) hl
  | element hp _ _ _ _ =>
    obtain ⟨isClosed, removed, hl'⟩ := Rule.label_of_element? hp
    exact absurd (by rw [hl']; rfl) hl
  | fragment hl' _ => exact absurd (by rw [hl']; rfl) hl

theorem isAlterable (h : Altered cuts n n') : n'.label.isAlterable = n.label.isAlterable :=
  Label.isAlterable_of_form h.keeps.form

/-- A label that no repair edits was there before. -/
theorem label_eq {l : Label} (h : Altered cuts n n') (hl : n'.label = l) (ha : l.isAlterable = false) :
    n.label = l := by
  have hn : ¬n.label.isAlterable := by
    rw [← h.isAlterable, hl, ha]
    exact Bool.false_ne_true
  rw [← (h.around hn).1, hl]

/-- What no label has that a repair edits stays. -/
theorem label_congr {q : Label → Bool} (h : Altered cuts n n')
    (hq : ∀ l : Label, l.isAlterable → q l = false) : q n'.label = q n.label := by
  by_cases ha : n.label.isAlterable
  · rw [hq _ ha, hq _ (h.isAlterable.trans ha)]
  · rw [(h.around ha).1]

theorem isFunction (h : Altered cuts n n') : n'.label.isFunction = n.label.isFunction :=
  h.label_congr fun l hl => by cases l <;> first | rfl | cases hl

theorem isFunctionValue (h : Altered cuts n n') :
    n'.label.isFunctionValue = n.label.isFunctionValue :=
  h.label_congr fun l hl => by cases l <;> first | rfl | cases hl

/-- An edit of one node alters the tree around it. -/
theorem modify (h : ∀ m ∈ n.walk, m.id = id → Altered cuts m (edit m))
    (hn : ∀ m ∈ n.walk, m.label.isTagged → ∀ c ∈ m.children.head?, c.id = id →
      c.label.name?.isSome → c.label.Spelled (edit c).label) : Altered cuts n (n.modify id edit) := by
  induction n using induct with
  | step n ih =>
    by_cases hid : n.id = id
    · rw [modify_eq, if_pos hid]
      exact h n n.self_mem_walk hid
    · rw [modify_of_ne hid]
      refine .inside (List.forall₂_map_right_iff.2 (List.forall₂_same.2 fun c hc => ?_))
        fun ht c hc c' hc' hs => ?_
      · exact ih c hc (fun m hm => h m (mem_walk_of_child hc hm))
          fun m hm => hn m (mem_walk_of_child hc hm)
      · rw [List.head?_map, Option.mem_def.1 hc] at hc'
        cases hc'
        by_cases he : c.id = id
        · rw [modify_eq, if_pos he]
          exact hn n n.self_mem_walk ht c hc he hs
        · rw [modify_of_ne he]
          exact .inl rfl

/-! ### Nodes of altered trees -/

/-- The children of an altered node come from those that were there, or were put in. -/
theorem mem_children (h : Altered cuts n n') (hm : m' ∈ n'.children) :
    (∃ m ∈ n.children, Altered cuts m m') ∨ m'.Inert := by
  have hkeep : ∀ {old : Node → Prop} {l l' : List Node}, Spliced Inert old l l' →
      (∀ k ∈ l, k ∈ n.children) → m' ∈ l' → (∃ m ∈ n.children, Altered cuts m m') ∨ m'.Inert :=
    fun hs hl hm => (hs.mem hm).imp_left fun hm => ⟨m', hl m' hm, .refl cuts m'⟩
  cases h with
  | name h => exact .inl ⟨m', hm, .refl cuts m'⟩
  | parameters _ h => exact hkeep h (fun _ hk => hk) hm
  | openingTag _ _ hn h => exact hkeep (.of_tail hn h) (fun _ hk => hk) hm
  | element hp hp' ho h _ =>
    rw [children_eq_of_element? hp', List.cons_append] at hm
    have hc := children_eq_of_element? hp
    rw [List.cons_append] at hc
    rcases List.mem_cons.1 hm with rfl | hm
    · exact .inl ⟨_, hc ▸ List.mem_cons_self, ho⟩
    · rcases h.mem hm with hm | hm
      · exact .inl ⟨m', hc ▸ List.mem_cons_of_mem _ hm, .refl cuts m'⟩
      · exact hm.elim
  | fragment _ h =>
    rcases h.mem hm with hm | hm
    · exact .inl ⟨m', hm, .refl cuts m'⟩
    · exact hm.elim
  | inside h _ => exact .inl (exists_of_forall₂ h hm)

/-- The nodes of an altered tree come from those that were there, or were put in. -/
theorem mem_walk (h : Altered cuts n n') (hm : m' ∈ n'.walk) :
    (∃ m ∈ n.walk, Altered cuts m m') ∨ ∃ k : Node, k.Inert ∧ m' ∈ k.walk := by
  induction n using induct generalizing n' with
  | step n ih =>
    rcases Node.mem_walk.1 hm with rfl | ⟨c', hc', hm⟩
    · exact .inl ⟨n, n.self_mem_walk, h⟩
    · rcases h.mem_children hc' with ⟨c, hc, hcc⟩ | hi
      · exact (ih c hc hcc hm).imp_left fun ⟨m, hm, he⟩ => ⟨m, mem_walk_of_child hc hm, he⟩
      · exact .inr ⟨c', hi, hm⟩

/-- Lists over the children correspond when what is put in and taken out has no part in them. -/
theorem flatMap_children {β : Type} {P : β → β → Prop} {f : Node → List β} (hrefl : ∀ b, P b b)
    (hinert : ∀ k : Node, k.Inert → f k = []) (hidle : ∀ k : Node, k.Idle → f k = [])
    (h : Altered cuts n n')
    (ih : ∀ c ∈ n.children, ∀ c', Altered cuts c c' → List.Forall₂ P (f c) (f c')) :
    List.Forall₂ P (n.children.flatMap f) (n'.children.flatMap f) := by
  have hsame : ∀ l : List β, List.Forall₂ P l l := fun l => List.forall₂_same.2 fun b _ => hrefl b
  cases h with
  | name h => exact hsame _
  | parameters _ h =>
    rw [h.flatMap hinert fun _ h => h.elim]
    exact hsame _
  | openingTag _ _ hn h =>
    rw [(Spliced.of_tail hn h).flatMap hinert fun _ h => h.elim]
    exact hsame _
  | element hp hp' ho h _ =>
    have hc := children_eq_of_element? hp
    rw [List.cons_append] at hc
    rw [children_eq_of_element? hp', List.cons_append, hc, List.flatMap_cons, List.flatMap_cons,
      h.flatMap (fun _ h => h.elim) hidle]
    exact List.rel_append (ih _ (hc ▸ List.mem_cons_self) _ ho) (hsame _)
  | fragment _ h =>
    rw [h.flatMap (fun _ h => h.elim) hidle]
    exact hsame _
  | inside h _ => exact forall₂_flatMap h ih

/-! ### Parts of altered nodes -/

/-- The parts that only nodes have which no repair edits. -/
theorem part {α : Type} {R : α → α → Prop} {part : Node → Option α} (h : Altered cuts n n')
    (hnone : ∀ m : Node, m.label.isAlterable → part m = none)
    (hpart : ∀ children, List.Forall₂ (Altered cuts) n.children children →
      (n.label.isTagged → ∀ c ∈ n.children.head?, ∀ c' ∈ children.head?,
        c.label.name?.isSome → c.label.Spelled c'.label) →
      Option.Rel R (part n) (part { n with children })) : Option.Rel R (part n) (part n') := by
  by_cases ha : n.label.isAlterable
  · rw [hnone n ha, hnone n' (h.isAlterable.trans ha)]
    exact .none
  · cases h with
    | inside h hn => exact hpart _ h hn
    | name h => exact absurd h.isAlterable ha
    | parameters hl _ => exact absurd (by rw [hl]; rfl) ha
    | openingTag hl _ _ _ => exact absurd (by rw [hl]; rfl) ha
    | element hp _ _ _ _ =>
      obtain ⟨isClosed, removed, hl⟩ := Rule.label_of_element? hp
      exact absurd (by rw [hl]; rfl) ha
    | fragment hl _ => exact absurd (by rw [hl]; rfl) ha

theorem head? {l l' : List Node} (h : List.Forall₂ (Altered cuts) l l') :
    Option.Rel (Altered cuts) l.head? l'.head? := by
  cases h with
  | nil => exact .none
  | cons h _ => exact .some h

theorem call? (h : Altered cuts n n') : Option.Rel (fun c c' => Altered cuts c.1 c'.1 ∧
    List.Forall₂ (Altered cuts) c.2 c'.2) n.call? n'.call? := by
  refine h.part (fun m hm => ?_) fun children h _ => ?_
  · rw [Node.call?.eq_def]
    cases hl : m.label <;> first | rfl | (rw [hl] at hm; cases hm)
  · obtain ⟨id, parent, place, label, old⟩ := n
    cases h <;> cases label <;> first | exact .none | exact .some ⟨‹_›, ‹_›⟩

theorem alternate? (h : Altered cuts n n') :
    Option.Rel (Altered cuts) n.alternate? n'.alternate? := by
  refine h.part (fun m hm => ?_) fun children h _ => ?_
  · rw [Node.alternate?.eq_def]
    cases hl : m.label <;> first | rfl | (rw [hl] at hm; cases hm)
  · obtain ⟨id, parent, place, label, old⟩ := n
    rcases h with _ | ⟨_, _ | ⟨_, _ | ⟨_, _ | ⟨_, _⟩⟩⟩⟩ <;> cases label <;>
      first | exact .none | exact .some ‹_›

theorem declarator? (h : Altered cuts n n') : Option.Rel (fun d d' => Altered cuts d.1 d'.1 ∧
    Option.Rel (Altered cuts) d.2 d'.2) n.declarator? n'.declarator? := by
  refine h.part (fun m hm => ?_) fun children h _ => ?_
  · rw [Node.declarator?.eq_def]
    cases hl : m.label <;> first | rfl | (rw [hl] at hm; cases hm)
  · obtain ⟨id, parent, place, label, old⟩ := n
    cases h <;> cases label <;> first | exact .none | exact .some ⟨‹_›, head? ‹_›⟩

theorem attribute? (h : Altered cuts n n') : Option.Rel (fun a a' => Altered cuts a.1 a'.1 ∧
    (a.1.label.name?.isSome → a.1.label.Spelled a'.1.label) ∧ Option.Rel (Altered cuts) a.2 a'.2)
      n.attribute? n'.attribute? := by
  refine h.part (fun m hm => ?_) fun children h hn => ?_
  · rw [Node.attribute?.eq_def]
    cases hl : m.label <;> first | rfl | (rw [hl] at hm; cases hm)
  · obtain ⟨id, parent, place, label, old⟩ := n
    cases h <;> cases label <;> first
      | exact .none
      | exact .some ⟨‹_›, hn rfl _ rfl _ rfl, head? ‹_›⟩

theorem function? (h : Altered cuts n n') : Option.Rel (fun p p' =>
    Option.Rel (Altered cuts) p.name p'.name ∧ Altered cuts p.body p'.body)
      n.function? n'.function? := by
  refine h.part (fun m hm => ?_) fun children hc hn => ?_
  · rw [Node.function?.eq_def]
    cases hl : m.label <;> first | rfl | (rw [hl] at hm; cases hm)
  · clear hn h
    obtain ⟨id, parent, place, label, old⟩ := n
    rcases hc with _ | ⟨_, _ | ⟨_, _ | ⟨_, _ | ⟨_, _⟩⟩⟩⟩ <;> cases label <;> first
      | exact .none
      | exact .some ⟨.none, ‹_›⟩
      | (next hasName => cases hasName <;> first
          | exact .none
          | exact .some ⟨.none, ‹_›⟩
          | exact .some ⟨.some ‹_›, ‹_›⟩)

/-- An altered element was one before, and its opening tag comes from the one it had. -/
theorem element? {parts' : ElementParts} (h : Altered cuts n n') (hp : n'.element? = some parts') :
    ∃ parts, n.element? = some parts ∧ Altered cuts parts.opening parts'.opening ∧
      (cuts ∨ parts'.opening.label = .openingTag true ∨
        List.Forall₂ (Altered cuts) parts.content parts'.content) := by
  obtain ⟨isClosed', removed', hl'⟩ := Rule.label_of_element? hp
  have hform := h.keeps.form
  rw [hl'] at hform
  cases h with
  | element hp₁ hp' ho _ hc =>
    rw [hp'] at hp
    cases hp
    exact ⟨_, hp₁, ho, hc.imp_right .inl⟩
  | inside h _ =>
    obtain ⟨id, parent, place, label, old⟩ := n
    cases hl'
    cases h with
    | nil => cases isClosed' <;> cases hp
    | cons ho h =>
      cases isClosed' with
      | false =>
        cases hp
        exact ⟨_, rfl, ho, .inr (.inr h)⟩
      | true =>
        cases hp
        refine ⟨_, rfl, ho, .inr (.inr ?_)⟩
        rw [List.dropLast_eq_take, List.dropLast_eq_take, h.length_eq]
        exact List.forall₂_take _ h
  | name h =>
    generalize n.label = label at h hform
    cases h <;> simp [Label.form] at hform
  | parameters hl _ => simp [hl, Label.form] at hform
  | openingTag hl _ _ _ => simp [hl, Label.form] at hform
  | fragment hl _ => simp [hl, Label.form] at hform

theorem opening?_eq_none (h : n.label.form ≠ "JSXOpeningElement") : n.opening? = none := by
  rw [Node.opening?.eq_def]
  cases hl : n.label <;> first | rfl | (rw [hl] at h; exact absurd rfl h)

/-- An altered opening tag has its name, in another spelling at most, and all its attributes. -/
theorem opening? (h : Altered cuts n n') : Option.Rel (fun o o' => Altered cuts o.1 o'.1 ∧
    (o.1.label.name?.isSome → o.1.label.Spelled o'.1.label) ∧
      ∀ a ∈ o.2, ∃ a' ∈ o'.2, Altered cuts a a') n.opening? n'.opening? := by
  by_cases hform : n.label.form = "JSXOpeningElement"
  · obtain ⟨selfClosing, hl⟩ := Rule.openingTag_of_form hform
    obtain ⟨id, parent, place, label, old⟩ := n
    cases hl
    cases h with
    | name h => cases h
    | parameters hl _ => cases hl
    | fragment hl _ => cases hl
    | openingTag _ _ hn h =>
      cases old with
      | nil =>
        rw [List.head?_nil, List.head?_eq_none_iff] at hn
        cases hn
        exact .none
      | cons name attributes =>
        obtain ⟨attributes', rfl⟩ := List.head?_eq_some_iff.1 hn
        refine .some ⟨.refl cuts name, fun _ => .inl rfl, fun a ha => ⟨a, ?_, .refl cuts a⟩⟩
        exact (h.mem_of_mem ha).resolve_right not_false
    | element hp _ _ _ _ => cases hp
    | inside h hn =>
      cases h with
      | nil => exact .none
      | cons hab h =>
        refine .some ⟨hab, hn rfl _ rfl _ rfl, fun a ha => ?_⟩
        exact exists_of_forall₂ h.flip ha
  · rw [opening?_eq_none hform, opening?_eq_none (h.keeps.form ▸ hform)]
    exact .none

theorem unwrapped (h : Altered cuts n n') : Altered cuts n.unwrapped n'.unwrapped := by
  induction n using induct generalizing n' with
  | step n ih =>
    rw [Node.unwrapped_eq, Node.unwrapped_eq n']
    by_cases hl : n.label = .parenthesized
    · obtain ⟨hl', hc⟩ := h.around (by rw [hl]; exact Bool.false_ne_true)
      rw [if_pos hl, if_pos (hl'.trans hl)]
      cases hn : n.children <;> cases hn' : n'.children <;> rw [hn, hn'] at hc
      · exact h
      · cases hc
      · cases hc
      · rw [List.forall₂_cons] at hc
        exact ih _ (hn ▸ List.mem_cons_self) hc.1
    · rw [if_neg hl, if_neg fun hl' => hl (h.label_eq hl' rfl)]
      exact h

theorem returnsWithin_of_inert {k : Node} (h : k.Inert) : k.returnsWithin = [] := by
  refine List.eq_nil_iff_forall_not_mem.2 fun m hm => ?_
  obtain ⟨hm, hl⟩ := mem_walk_of_returnsWithin hm
  refine h.forall_walk (P := fun m => m.label ≠ .returnStatement) ?_ ?_ ?_ ?_ m hm hl <;> intros <;>
    exact fun hl => by cases hl

theorem returnsWithin_of_idle {k : Node} (h : k.Idle) : k.returnsWithin = [] := by
  refine List.eq_nil_iff_forall_not_mem.2 fun m hm => ?_
  obtain ⟨hm, hl⟩ := mem_walk_of_returnsWithin hm
  have hi := h m hm
  rw [hl] at hi
  cases hi

theorem returnsWithin (h : Altered cuts n n') :
    List.Forall₂ (Altered cuts) n.returnsWithin n'.returnsWithin := by
  induction n using induct generalizing n' with
  | step n ih =>
    have hchildren := flatMap_children (Altered.refl cuts) (fun _ => returnsWithin_of_inert)
      (fun _ => returnsWithin_of_idle) h fun c hc c' hcc => ih c hc hcc
    rw [returnsWithin_eq, returnsWithin_eq n', h.isFunction]
    split_ifs with hf hl hl' hl'
    · exact .nil
    · exact .cons h hchildren
    · rw [(h.around (by rw [hl]; exact Bool.false_ne_true)).1] at hl'
      exact absurd hl hl'
    · exact absurd (h.label_eq hl' rfl) hl
    · exact hchildren

theorem returned (h : Altered cuts n n') :
    List.Forall₂ (Altered cuts) n.returned n'.returned := by
  rw [Node.returned.eq_def, Node.returned.eq_def n', ownReturns, ownReturns]
  have hf := h.function?
  cases hn : n.function? <;> cases hn' : n'.function? <;> rw [hn, hn'] at hf
  · exact .nil
  · cases hf
  · cases hf
  · next parts parts' =>
    obtain ⟨-, hbody⟩ := Option.rel_some_some.1 hf
    dsimp only
    by_cases hb : parts.body.label = .block
    · obtain ⟨hl', hc⟩ := hbody.around (by rw [hb]; exact Bool.false_ne_true)
      rw [if_pos hb, if_pos (hl'.trans hb), if_pos hb, if_pos (hl'.trans hb), returnsWithinAll_eq,
        returnsWithinAll_eq]
      refine forall₂_filterMap (forall₂_flatMap hc fun c _ c' hcc => hcc.returnsWithin)
        fun m hm m' hmm => ?_
      obtain ⟨k, -, hm⟩ := List.mem_flatMap.1 hm
      have hl := (mem_walk_of_returnsWithin hm).2
      have hh := head? (hmm.around (by rw [hl]; exact Bool.false_ne_true)).2
      cases hc : m.children.head? <;> cases hc' : m'.children.head? <;> rw [hc, hc'] at hh
      · exact .none
      · cases hh
      · cases hh
      · exact .some (Option.rel_some_some.1 hh).unwrapped
    · rw [if_neg hb, if_neg fun hl' => hb (hbody.label_eq hl' rfl)]
      exact .cons hbody.unwrapped .nil

/-- A tag that closes itself keeps doing so. -/
theorem selfClosing (h : Altered cuts n n') (hl : n.label = .openingTag true) :
    n'.label = .openingTag true := by
  cases h with
  | name h => rw [hl] at h; cases h
  | parameters hl' _ => cases hl.symm.trans hl'
  | openingTag hl' hb _ _ =>
    cases hl.symm.trans hl'
    rw [hb rfl]
  | element hp _ _ _ _ =>
    obtain ⟨isClosed, removed, hl'⟩ := Rule.label_of_element? hp
    cases hl.symm.trans hl'
  | fragment hl' _ => cases hl.symm.trans hl'
  | inside _ _ => exact hl

/-! ### Names in altered trees -/

/-- A name is the same, or it is capitalised or spelled in another way. -/
theorem text (h : Altered cuts n n') : n'.text = n.text ∨
    n'.text = Letter.capitalise n.text ∨ (n.text, n'.text) ∈ Label.spellings := by
  cases h with
  | name h =>
    obtain ⟨name, name', hn, hn', h⟩ := h.name?
    right
    rw [Node.text, Node.text, hn, hn']
    exact h
  | parameters hl _ => rw [Node.text, Node.text, hl]; exact .inl rfl
  | openingTag hl _ _ _ => rw [Node.text, Node.text, hl]; exact .inl rfl
  | element hp hp' _ _ _ =>
    obtain ⟨isClosed, removed, hl⟩ := Rule.label_of_element? hp
    obtain ⟨isClosed', removed', hl'⟩ := Rule.label_of_element? hp'
    rw [Node.text, Node.text, hl, hl']
    exact .inl rfl
  | fragment hl _ => rw [Node.text, Node.text, hl]; exact .inl rfl
  | inside _ _ => exact .inl rfl

/-- The name of a tag or an attribute is the same, or another spelling of it. -/
theorem text_spelled (h : Altered cuts n n')
    (hs : n.label.name?.isSome → n.label.Spelled n'.label) :
    n'.text = n.text ∨ (n.text, n'.text) ∈ Label.spellings := by
  by_cases hn : n.label.name?.isSome
  · rcases hs hn with he | ⟨name, name', hp, hl, hl'⟩
    · rw [Node.text, Node.text, he]
      exact .inl rfl
    · rw [Node.text, Node.text, hl, hl']
      exact .inr hp
  · have hn' : ¬n'.label.name?.isSome := by
      rwa [Label.name?_isSome_iff, h.keeps.form, ← Label.name?_isSome_iff]
    rw [Node.text, Node.text, Option.not_isSome_iff_eq_none.1 hn, Option.not_isSome_iff_eq_none.1 hn']
    exact .inl rfl

end Altered
end Node
end JsxLint
