import JsxLint.Proofs.Rule.Alteration

/-!
# What survives alterations

Repairs take out idle trees only, so every node that is not idle is still there when the tree is
altered, itself altered, and an element still has its parts.

* `Node.Altered.survives`, `Node.Alters.survives`: the node that a node becomes;
* `Node.Alters.exists_element?`: the parts that an element then has.
-/

namespace JsxLint.Node

variable {cuts : Prop} {c m n n' : Node} {parts : ElementParts}

theorem Altered.isIdle (h : Altered cuts n n') : n'.label.isIdle = n.label.isIdle := by
  cases h with
  | name h =>
    generalize n.label = label at h
    cases h <;> rfl
  | parameters hl _ => rw [hl]; rfl
  | openingTag hl _ _ _ => rw [hl]; rfl
  | element hp hp' _ _ _ =>
    obtain ⟨isClosed, removed, hl⟩ := Rule.label_of_element? hp
    obtain ⟨isClosed', removed', hl'⟩ := Rule.label_of_element? hp'
    exact (congrArg Label.isIdle hl').trans (congrArg Label.isIdle hl).symm
  | fragment hl _ => rw [hl]; rfl
  | inside _ _ => rfl

/-- A child that is not idle is still a child. -/
theorem Altered.child_survives (h : Altered cuts n n') (hc : c ∈ n.children) (hi : ¬c.Idle) :
    ∃ c' ∈ n'.children, Altered cuts c c' := by
  cases h with
  | name h => exact ⟨c, hc, .refl cuts c⟩
  | parameters _ h => exact ⟨c, (h.mem_of_mem hc).resolve_right not_false, .refl cuts c⟩
  | openingTag _ _ hn h =>
    exact ⟨c, ((Spliced.of_tail hn h).mem_of_mem hc).resolve_right not_false, .refl cuts c⟩
  | element hp hp' ho h _ =>
    rw [children_eq_of_element? hp, List.cons_append] at hc
    rw [children_eq_of_element? hp', List.cons_append]
    rcases List.mem_cons.1 hc with rfl | hc
    · exact ⟨_, List.mem_cons_self, ho⟩
    · exact ⟨c, List.mem_cons_of_mem _ ((h.mem_of_mem hc).resolve_right hi), .refl cuts c⟩
  | fragment _ h => exact ⟨c, (h.mem_of_mem hc).resolve_right hi, .refl cuts c⟩
  | inside h _ => exact exists_of_forall₂ h.flip hc

/-- A node that is not idle is still there, itself altered. -/
theorem Altered.survives (h : Altered cuts n n') (hm : m ∈ n.walk) (hi : ¬m.Idle) :
    ∃ m' ∈ n'.walk, Altered cuts m m' := by
  induction n using induct generalizing n' with
  | step n ih =>
    rcases Node.mem_walk.1 hm with rfl | ⟨c, hc, hmc⟩
    · exact ⟨n', n'.self_mem_walk, h⟩
    · have hci : ¬c.Idle := fun hc => hi fun l hl => hc l (mem_walk_trans hl hmc)
      obtain ⟨c', hc', hcc⟩ := h.child_survives hc hci
      obtain ⟨m', hm', hmm⟩ := ih c hc hcc hmc
      exact ⟨m', mem_walk_of_child hc' hm', hmm⟩

/-- What is not idle does not become so. -/
theorem Altered.not_idle (h : Altered cuts n n') (hi : ¬n.Idle) : ¬n'.Idle := by
  intro hidle
  refine hi fun m hm => ?_
  by_contra hl
  obtain ⟨m', hm', hmm⟩ := h.survives hm fun hidle => hl (hidle m m.self_mem_walk)
  exact hl (hmm.isIdle ▸ hidle m' hm')

/-- A node that is not idle becomes a node that is not idle. -/
theorem Alters.survives (h : Alters cuts n n') (hm : m ∈ n.walk) (hi : ¬m.Idle) :
    ∃ m' ∈ n'.walk, ¬m'.Idle ∧ Alters cuts m m' := by
  induction h with
  | refl => exact ⟨m, hm, hi, .refl cuts m⟩
  | tail _ hstep ih =>
    obtain ⟨m₁, hm₁, hi₁, h₁⟩ := ih
    obtain ⟨m', hm', hmm⟩ := hstep.survives hm₁ hi₁
    exact ⟨m', hm', hmm.not_idle hi₁, h₁.trans hmm.alters⟩

theorem Alters.keeps (h : Alters cuts n n') : n.Keeps n' := by
  induction h with
  | refl => exact .refl n
  | tail _ hstep ih =>
    exact ⟨hstep.keeps.id.trans ih.id, hstep.keeps.parent.trans ih.parent,
      hstep.keeps.form.trans ih.form⟩

/-- An element stays one, and keeps its opening tag. -/
theorem Altered.exists_element? (h : Altered cuts n n') (hp : n.element? = some parts) :
    ∃ parts', n'.element? = some parts' ∧ Altered cuts parts.opening parts'.opening := by
  obtain ⟨isClosed, removed, hl⟩ := Rule.label_of_element? hp
  cases h with
  | element hp₁ hp' ho _ _ =>
    cases hp.symm.trans hp₁
    exact ⟨_, hp', ho⟩
  | inside h _ =>
    obtain ⟨id, parent, place, label, old⟩ := n
    cases hl
    cases h with
    | nil => cases isClosed <;> cases hp
    | cons ho _ =>
      cases isClosed <;> cases hp <;> exact ⟨_, rfl, ho⟩
  | name h =>
    rw [hl] at h
    cases h
  | parameters hl' _ => cases hl.symm.trans hl'
  | openingTag hl' _ _ _ => cases hl.symm.trans hl'
  | fragment hl' _ => cases hl.symm.trans hl'

theorem Alters.exists_element? (h : Alters cuts n n') (hp : n.element? = some parts) :
    ∃ parts', n'.element? = some parts' ∧ Alters cuts parts.opening parts'.opening := by
  induction h with
  | refl => exact ⟨parts, hp, .refl cuts _⟩
  | tail _ hstep ih =>
    obtain ⟨parts₁, hp₁, h₁⟩ := ih
    obtain ⟨parts', hp', ho⟩ := hstep.exists_element? hp₁
    exact ⟨parts', hp', h₁.trans ho.alters⟩

theorem opening_mem_walk (hp : n.element? = some parts) : parts.opening ∈ n.walk :=
  child_mem_walk (children_eq_of_element? hp ▸ List.mem_cons_self)

theorem not_idle_of_element? (hp : n.element? = some parts) : ¬n.Idle := by
  obtain ⟨isClosed, removed, hl⟩ := Rule.label_of_element? hp
  intro hi
  have hidle := hi n n.self_mem_walk
  rw [hl] at hidle
  cases hidle

/-! ### Closing tags -/

/-- What is part of a closing tag stays so. -/
theorem Altered.bare (h : Altered cuts n n') (hb : n.Bare) : n'.Bare := by
  induction n using induct generalizing n' with
  | step n ih =>
    have hchild : ∀ c ∈ n.children, c.Bare := fun c hc m hm => hb m (mem_walk_of_child hc hm)
    have hl := hb n n.self_mem_walk
    cases h with
    | name h =>
      intro m hm
      rcases Node.mem_walk.1 hm with rfl | ⟨c, hc, hm⟩
      · generalize n.label = label at h
        cases h <;> rfl
      · exact hchild c hc m hm
    | inside h _ =>
      intro m hm
      rcases Node.mem_walk.1 hm with rfl | ⟨c', hc', hm⟩
      · exact hl
      · obtain ⟨c, hc, hcc⟩ := exists_of_forall₂ h hc'
        exact ih c hc hcc (hchild c hc) m hm
    | parameters hl' _ => rw [hl'] at hl; cases hl
    | openingTag hl' _ _ _ => rw [hl'] at hl; cases hl
    | element hp _ _ _ _ =>
      obtain ⟨isClosed, removed, hl'⟩ := Rule.label_of_element? hp
      rw [hl'] at hl
      cases hl
    | fragment hl' _ => rw [hl'] at hl; cases hl

theorem TagsBare.altered (h : n.TagsBare) (ha : Altered cuts n n') : n'.TagsBare := by
  intro m' hm' hl
  rcases ha.mem_walk hm' with ⟨m, hm, hmm⟩ | ⟨k, hk, hm'⟩
  · exact hmm.bare (h m hm (hmm.label_eq hl rfl))
  · refine absurd hl (hk.forall_walk (P := fun m => m.label ≠ .closingTag) ?_ ?_ ?_ ?_ m' hm') <;>
      intros <;> exact Label.noConfusion

/-- Closing tags go on to hold names and nothing else. -/
theorem TagsBare.alters (h : n.TagsBare) (ha : Alters cuts n n') : n'.TagsBare := by
  induction ha with
  | refl => exact h
  | tail _ hstep ih => exact ih.altered hstep

end JsxLint.Node
