import JsxLint.Proofs.Syntax.Upkeep

/-!
# What a function gives back

Between a function and what it gives back stands no other function, so the function is the nearest
one around it, and it gives back each expression once.

* `Node.Path.trans`: one way up after another;
* `Node.mem_returnsWithin_iff`: the return statements of a node;
* `Node.exists_path_of_returned`: the way up from what a function gives back;
* `Node.collectReturns`: the search for return statements with a stack;
* `Node.Rooted.enclosingFunction?_eq`: the nearest function around what a function gives back;
* `Node.Rooted.mem_ownReturns_iff`: own returns by the nearest function around them;
* `Document.WellFormed.eq_of_unwrapped`: the node around an expression in parentheses;
* `Document.WellFormed.returned_nodup`: a function gives back each expression once.
-/

namespace JsxLint

namespace Node

variable {above outer : List Node} {f l m n root : Node} {parts : FunctionParts}

theorem Path.trans (h : l.Path above m) (h' : root.Path outer l) : root.Path (above ++ outer) m := by
  induction h with
  | root => exact h'
  | child _ hc ih => exact .child ih hc

/-- A node below another one has it on its way up. -/
theorem exists_path_through (hl : l ∈ root.walk) (hm : m ∈ l.walk) (hne : m ≠ l) :
    ∃ above, root.Path above m ∧ l ∈ above := by
  obtain ⟨outer, houter⟩ := exists_path hl
  obtain ⟨inner, hinner⟩ := exists_path hm
  refine ⟨inner ++ outer, hinner.trans houter, List.mem_append_left _ ?_⟩
  exact (List.mem_cons.1 hinner.root_mem).resolve_left fun he => hne he.symm

/-! ### Returns -/

/-- Around an expression that parentheses are taken from stand those parentheses. -/
theorem exists_path_of_unwrapped (n : Node) :
    ∃ above, n.Path above n.unwrapped ∧ ∀ a ∈ above, a.label = .parenthesized := by
  have hself : ∃ above, n.Path above n ∧ ∀ a ∈ above, a.label = .parenthesized :=
    ⟨[], .root, fun a ha => (by cases ha)⟩
  induction n using induct with
  | step n ih =>
    rw [unwrapped_eq]
    split_ifs with hl
    · cases hc : n.children with
      | nil => exact hself
      | cons c cs =>
        have hmem : c ∈ n.children := hc ▸ List.mem_cons_self
        obtain ⟨above, hp, hab⟩ := ih c hmem ⟨[], .root, fun a ha => (by cases ha)⟩
        refine ⟨above ++ [n], hp.trans (.child .root hmem), fun a ha => ?_⟩
        rcases List.mem_append.1 ha with ha | ha
        · exact hab a ha
        · rw [List.mem_singleton.1 ha, hl]
    · exact hself

theorem unwrapped_mem_walk (n : Node) : n.unwrapped ∈ n.walk :=
  let ⟨_, hp, _⟩ := n.exists_path_of_unwrapped
  hp.mem_walk

theorem not_isFunction_of_parenthesized (h : n.label = .parenthesized) : ¬n.label.isFunction := by
  rw [h]
  exact Bool.false_ne_true

/-- Around a return statement of a node stand no functions. -/
theorem exists_path_of_returnsWithin (h : m ∈ n.returnsWithin) :
    ∃ above, n.Path above m ∧ ∀ a ∈ above, ¬a.label.isFunction := by
  induction n using induct with
  | step n ih =>
    rw [returnsWithin_eq] at h
    split_ifs at h with hf hl
    · cases h
    all_goals
      have hchildren : m ∈ n.children.flatMap returnsWithin →
          ∃ above, n.Path above m ∧ ∀ a ∈ above, ¬a.label.isFunction := by
        intro h
        obtain ⟨c, hc, h⟩ := List.mem_flatMap.1 h
        obtain ⟨above, hp, hab⟩ := ih c hc h
        refine ⟨above ++ [n], hp.trans (.child .root hc), fun a ha => ?_⟩
        rcases List.mem_append.1 ha with ha | ha
        · exact hab a ha
        · exact List.mem_singleton.1 ha ▸ hf
    · rcases List.mem_cons.1 h with rfl | h
      · exact ⟨[], .root, fun a ha => (by cases ha)⟩
      · exact hchildren h
    · exact hchildren h

theorem returnsWithin_subset_of_path (hp : n.Path above m)
    (hno : ∀ a ∈ above, ¬a.label.isFunction) : m.returnsWithin ⊆ n.returnsWithin := by
  induction hp with
  | root => exact List.Subset.refl _
  | @child above m c _ hc ih =>
    obtain ⟨hm, hno⟩ := List.forall_mem_cons.1 hno
    have hchildren : c.returnsWithin ⊆ m.children.flatMap returnsWithin := fun r hr =>
      List.mem_flatMap.2 ⟨c, hc, hr⟩
    refine List.Subset.trans ?_ (ih hno)
    rw [returnsWithin_eq m, if_neg hm]
    split_ifs
    · exact List.subset_cons_of_subset m hchildren
    · exact hchildren

/-- The return statements of a node are those with no function around them. -/
theorem mem_returnsWithin_iff : m ∈ n.returnsWithin ↔ m.label = .returnStatement ∧
    ∃ above, n.Path above m ∧ ∀ a ∈ above, ¬a.label.isFunction := by
  constructor
  · intro h
    exact ⟨(mem_walk_of_returnsWithin h).2, exists_path_of_returnsWithin h⟩
  · rintro ⟨hl, above, hp, hno⟩
    refine returnsWithin_subset_of_path hp hno ?_
    have hf : ¬m.label.isFunction := by
      rw [hl]
      exact Bool.false_ne_true
    rw [returnsWithin_eq, if_neg hf, if_pos hl]
    exact List.mem_cons_self

/-- The own returns of a function are the return statements of its block. -/
theorem ownReturns_eq (hf : f.function? = some parts) (hb : parts.body.label = .block) :
    f.ownReturns = parts.body.returnsWithin := by
  have hblock : ¬parts.body.label.isFunction ∧ parts.body.label ≠ .returnStatement := by
    rw [hb]
    exact ⟨Bool.false_ne_true, by decide⟩
  rw [ownReturns, hf]
  dsimp only
  rw [if_pos hb, returnsWithinAll_eq, returnsWithin_eq, if_neg hblock.1, if_neg hblock.2]

/-- Only a function with a block has returns of its own. -/
theorem ownReturns_cases (f : Node) : f.ownReturns = [] ∨ ∃ parts, f.function? = some parts ∧
    parts.body.label = .block ∧ f.ownReturns = parts.body.returnsWithin := by
  cases hf : f.function? with
  | none =>
    left
    rw [ownReturns, hf]
  | some parts =>
    by_cases hb : parts.body.label = .block
    · exact .inr ⟨parts, rfl, hb, ownReturns_eq hf hb⟩
    · left
      rw [ownReturns, hf]
      exact if_neg hb

/-- What a function gives back stands in its body, with no function around it there. -/
theorem exists_path_of_returned (hf : f.function? = some parts) (h : m ∈ f.returned) :
    ∃ above, parts.body.Path above m ∧ ∀ a ∈ above, ¬a.label.isFunction := by
  rw [returned.eq_def, hf] at h
  dsimp only at h
  split_ifs at h with hb
  · obtain ⟨statement, hs, h⟩ := List.mem_filterMap.1 h
    obtain ⟨c, hc, rfl⟩ := Option.map_eq_some_iff.1 h
    rw [ownReturns_eq hf hb] at hs
    obtain ⟨hl, outer, houter, hno⟩ := mem_returnsWithin_iff.1 hs
    obtain ⟨inner, hinner, hni⟩ := c.exists_path_of_unwrapped
    have hc := List.mem_of_mem_head? hc
    -- from the expression to its statement, from there to the block
    refine ⟨inner ++ (statement :: outer), hinner.trans (.child houter hc), fun a ha => ?_⟩
    simp only [List.mem_append, List.mem_cons] at ha
    rcases ha with ha | rfl | ha
    · exact not_isFunction_of_parenthesized (hni a ha)
    · rw [hl]
      exact Bool.false_ne_true
    · exact hno a ha
  · cases List.mem_singleton.1 h
    obtain ⟨above, hp, hab⟩ := parts.body.exists_path_of_unwrapped
    exact ⟨above, hp, fun a ha => not_isFunction_of_parenthesized (hab a ha)⟩

theorem exists_function?_of_returned (h : m ∈ f.returned) :
    ∃ parts, f.function? = some parts := by
  rw [returned.eq_def] at h
  split at h
  · cases h
  · next parts hf => exact ⟨parts, hf⟩

theorem mem_walk_of_returned (h : m ∈ f.returned) : m ∈ f.walk := by
  obtain ⟨parts, hf⟩ := exists_function?_of_returned h
  obtain ⟨_, hp, -⟩ := exists_path_of_returned hf h
  exact mem_walk_of_child (body_mem_children hf) hp.mem_walk

theorem walk_nodup (h : n.ids.Nodup) : n.walk.Nodup :=
  have h : (n.walk.map (·.id)).Nodup := h
  h.of_map

/-- The return statements of a node stand in its order. -/
theorem returnsWithin_sublist (n : Node) : n.returnsWithin.Sublist n.walk := by
  induction n using induct with
  | step n ih =>
    rw [returnsWithin_eq, walk_eq]
    have hchildren := List.Sublist.flatMap_right n.children ih
    split_ifs
    · exact List.nil_sublist _
    · exact hchildren.cons_cons n
    · exact hchildren.cons n

theorem label_of_mem_ownReturns (h : m ∈ f.ownReturns) : m.label = .returnStatement := by
  rcases f.ownReturns_cases with hnil | ⟨parts, -, -, hown⟩
  · rw [hnil] at h
    cases h
  · rw [hown] at h
    exact (mem_walk_of_returnsWithin h).2

theorem walk_sublist_of_child (hc : m ∈ n.children) : m.walk.Sublist n.walk := by
  rw [walk_eq n, ← List.flatMap_singleton walk m]
  exact ((List.singleton_sublist.2 hc).flatMap walk).cons n

theorem ownReturns_sublist (f : Node) : f.ownReturns.Sublist f.walk := by
  rcases f.ownReturns_cases with hnil | ⟨parts, hf, -, hown⟩
  · rw [hnil]
    exact List.nil_sublist _
  · rw [hown]
    exact parts.body.returnsWithin_sublist.trans (walk_sublist_of_child (body_mem_children hf))

/-! ### The search with a stack -/

/-- The return statements that are found with a stack of trees: functions are passed over, and other
nodes give way to their children, the first of them on top. -/
def collectReturns : List Node → List Node
  | [] => []
  | n :: stack =>
    if n.label.isFunction then collectReturns stack
    else if n.label = .returnStatement then n :: collectReturns (n.children ++ stack)
    else collectReturns (n.children ++ stack)
termination_by stack => (walkAll stack).length
decreasing_by
  all_goals
    simp only [walkAll_eq, List.flatMap_append, List.flatMap_cons, List.length_append, walk_eq,
      List.length_cons]
    omega

theorem collectReturns_append_of {ns stack : List Node} (h : ∀ n ∈ ns, ∀ stack,
    collectReturns (n :: stack) = n.returnsWithin ++ collectReturns stack) :
    collectReturns (ns ++ stack) = ns.flatMap returnsWithin ++ collectReturns stack := by
  induction ns with
  | nil => rfl
  | cons n ns ih =>
    obtain ⟨hn, hns⟩ := List.forall_mem_cons.1 h
    rw [List.cons_append, hn, ih hns, List.flatMap_cons, List.append_assoc]

theorem collectReturns_cons (n : Node) (stack : List Node) :
    collectReturns (n :: stack) = n.returnsWithin ++ collectReturns stack := by
  induction n using induct generalizing stack with
  | step n ih =>
    rw [collectReturns, collectReturns_append_of ih, returnsWithin_eq]
    split_ifs <;> rfl

/-- The search finds the own returns of a function in the statements of its block. -/
theorem collectReturns_eq_ownReturns (hf : f.function? = some parts)
    (hb : parts.body.label = .block) : collectReturns parts.body.children = f.ownReturns := by
  have hsearch : collectReturns (parts.body.children ++ []) = _ :=
    collectReturns_append_of fun n _ => n.collectReturns_cons
  rw [List.append_nil, collectReturns, List.append_nil] at hsearch
  rw [hsearch, ownReturns, hf]
  dsimp only
  rw [if_pos hb, returnsWithinAll_eq]

end Node

open Node

/-! ### The nearest function -/

namespace Node.Rooted

variable {d : Document} {f m : Node} {inner : List Node} {parts : FunctionParts}

/-- The nearest function around a node in the body of a function is one in that body, or else that
function. -/
theorem enclosingFunction?_of_path (h : d.root.Rooted d.fresh) (hf : f ∈ d.root.walk)
    (hparts : f.function? = some parts) (hp : parts.body.Path inner m) :
    d.enclosingFunction? m = (inner.find? (·.label.isFunction)).or (some f) := by
  obtain ⟨outer, houter⟩ := exists_path hf
  have hpath := hp.trans (.child houter (body_mem_children hparts))
  rw [Document.enclosingFunction?, h.ancestors_eq hpath, List.find?_append, List.find?_cons,
    isFunction_of_function? hparts]

/-- The nearest function around what a function gives back is that function. -/
theorem enclosingFunction?_eq (h : d.root.Rooted d.fresh) (hf : f ∈ d.root.walk)
    (hm : m ∈ f.returned) : d.enclosingFunction? m = some f := by
  obtain ⟨parts, hparts⟩ := exists_function?_of_returned hm
  obtain ⟨inner, hinner, hno⟩ := exists_path_of_returned hparts hm
  rw [h.enclosingFunction?_of_path hf hparts hinner, List.find?_eq_none.2 hno, Option.none_or]

/-- The own returns of a function are the return statements in its block around which it is the
nearest function. -/
theorem mem_ownReturns_iff (h : d.root.Rooted d.fresh) (hf : f ∈ d.root.walk)
    (hparts : f.function? = some parts) (hb : parts.body.label = .block) :
    m ∈ f.ownReturns ↔ m ∈ parts.body.walk ∧ m.label = .returnStatement ∧
      d.enclosingFunction? m = some f := by
  rw [ownReturns_eq hparts hb, mem_returnsWithin_iff]
  constructor
  · rintro ⟨hl, inner, hp, hno⟩
    refine ⟨hp.mem_walk, hl, ?_⟩
    rw [h.enclosingFunction?_of_path hf hparts hp, List.find?_eq_none.2 hno, Option.none_or]
  · rintro ⟨hm, hl, hfound⟩
    obtain ⟨inner, hp⟩ := exists_path hm
    rw [h.enclosingFunction?_of_path hf hparts hp] at hfound
    refine ⟨hl, inner, hp, List.find?_eq_none.1 ?_⟩
    cases hfind : inner.find? (·.label.isFunction) with
    | none => rfl
    | some g =>
      -- a function in the block would be the function itself
      rw [hfind, Option.some_or] at hfound
      have hg : f ∈ parts.body.walk :=
        Option.some.inj hfound ▸ hp.above_mem_walk (List.mem_of_find?_eq_some hfind)
      exact absurd (id_mem_ids hg)
        (id_not_mem_child (nodup_of_mem h.nodup hf) (body_mem_children hparts))

end Node.Rooted

theorem Document.WellFormed.enclosingFunction?_eq {d : Document} {f m : Node} (h : d.WellFormed)
    (hf : f ∈ d.root.walk) (hm : m ∈ f.returned) : d.enclosingFunction? m = some f :=
  h.root.rooted.enclosingFunction?_eq hf hm

/-- The nearest node around an expression that is no pair of parentheses. -/
theorem Document.WellFormed.find?_ancestors_unwrapped {d : Document} {c p : Node} (h : d.WellFormed)
    (hp : p ∈ d.root.walk) (hc : c ∈ p.children) (hl : p.label ≠ .parenthesized) :
    (d.ancestors c.unwrapped).find? (fun n => n.label != .parenthesized) = some p := by
  obtain ⟨inner, hinner, hin⟩ := c.exists_path_of_unwrapped
  obtain ⟨outer, houter⟩ := exists_path hp
  have hno : inner.find? (fun n => n.label != .parenthesized) = none :=
    List.find?_eq_none.2 fun a ha => by simp [hin a ha]
  rw [h.ancestors_eq (hinner.trans (.child houter hc)), List.find?_append, hno, List.find?_cons,
    bne_iff_ne.2 hl]
  rfl

/-- What is left of an expression without its parentheses tells the node around it. -/
theorem Document.WellFormed.eq_of_unwrapped {d : Document} {c c' p p' : Node} (h : d.WellFormed)
    (hp : p ∈ d.root.walk) (hp' : p' ∈ d.root.walk) (hc : c ∈ p.children) (hc' : c' ∈ p'.children)
    (hl : p.label ≠ .parenthesized) (hl' : p'.label ≠ .parenthesized)
    (he : c.unwrapped = c'.unwrapped) : p = p' := by
  have hfind := h.find?_ancestors_unwrapped hp hc hl
  rw [he, h.find?_ancestors_unwrapped hp' hc' hl'] at hfind
  exact (Option.some.inj hfind).symm

/-- What is made of the elements of a list is made once when it tells the element. -/
theorem nodup_filterMap_on {α β : Type} {g : α → Option β} {l : List α}
    (h : ∀ a ∈ l, ∀ a' ∈ l, ∀ b, g a = some b → g a' = some b → a = a') (hl : l.Nodup) :
    (l.filterMap g).Nodup := by
  refine List.pairwise_filterMap.2 ((List.Pairwise.and_mem.1 hl).imp ?_)
  rintro a a' ⟨ha, ha', hne⟩ b hb b' hb' rfl
  exact hne (h a ha a' ha' b hb hb')

/-- A function gives back each expression once. -/
theorem Document.WellFormed.returned_nodup {d : Document} {f : Node} (h : d.WellFormed)
    (hf : f ∈ d.root.walk) : f.returned.Nodup := by
  rw [returned.eq_def]
  split
  · exact List.nodup_nil
  · split_ifs
    · have hown := f.ownReturns_sublist
      have hin : ∀ s ∈ f.ownReturns, s ∈ d.root.walk := fun s hs =>
        mem_walk_trans (hown.subset hs) hf
      have hreturn : ∀ s ∈ f.ownReturns, s.label ≠ .parenthesized := by
        intro s hs hl
        rw [label_of_mem_ownReturns hs] at hl
        cases hl
      refine nodup_filterMap_on (fun s hs s' hs' b hb hb' => ?_)
        ((walk_nodup (nodup_of_mem h.root.nodup hf)).sublist hown)
      obtain ⟨c, hc, rfl⟩ := Option.map_eq_some_iff.1 hb
      obtain ⟨c', hc', he⟩ := Option.map_eq_some_iff.1 hb'
      exact h.eq_of_unwrapped (hin s hs) (hin s' hs') (List.mem_of_mem_head? hc)
        (List.mem_of_mem_head? hc') (hreturn s hs) (hreturn s' hs') he.symm
    · exact List.nodup_singleton _

end JsxLint
