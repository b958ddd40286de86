import JsxLint.Proofs.Rule.Alteration
import JsxLint.Proofs.Syntax.Returned

/-!
# Elements of lists

The elements that the rule about keys looks at, with the call and the callback that they belong to.
Repairs leave them together: as long as the element is in the tree, so are the other two.

* `Rule.ListKey.Item`: an element that the callback of `.map` gives back;
* `Rule.ListKey.mem_detect_iff`: what the rule finds;
* `Rule.ListKey.Item.enclosing`: the callback is the function around the element;
* `Rule.ListKey.Item.alters`: elements of lists in altered trees.
-/

namespace JsxLint

open Node

namespace Node

variable {cuts : Prop} {n n' m' : Node} {above' : List Node}

/-! ### The way up in altered trees -/

/-- The way up in an altered tree comes from the one before, unless its end was put in. -/
theorem Altered.path (h : Altered cuts n n') (hp : n'.Path above' m') :
    (∃ above m, n.Path above m ∧ (∀ a ∈ above, ∃ a' ∈ above', Altered cuts a a') ∧
      Altered cuts m m') ∨ ∃ k : Node, k.Inert ∧ m' ∈ k.walk := by
  induction hp with
  | root => exact .inl ⟨[], n, .root, fun a ha => (by cases ha), h⟩
  | @child above' m' c' _ hc' ih =>
    rcases ih with ⟨above, m, hp, ha, hm⟩ | ⟨k, hk, hm⟩
    · rcases hm.mem_children hc' with ⟨c, hc, hcc⟩ | hinert
      · refine .inl ⟨m :: above, c, .child hp hc, fun a hmem => ?_, hcc⟩
        rcases List.mem_cons.1 hmem with rfl | hmem
        · exact ⟨m', List.mem_cons_self, hm⟩
        · obtain ⟨a', ha', haa⟩ := ha a hmem
          exact ⟨a', List.mem_cons_of_mem _ ha', haa⟩
      · exact .inr ⟨c', hinert, c'.self_mem_walk⟩
    · exact .inr ⟨k, hk, mem_walk_trans (child_mem_walk hc') hm⟩

/-- The way up from an element of an altered tree comes from the one before. -/
theorem Alters.path (h : Alters cuts n n') (hp : n'.Path above' m') (he : m'.element?.isSome) :
    ∃ above m, n.Path above m ∧ (∀ a ∈ above, ∃ a' ∈ above', Alters cuts a a') ∧
      Alters cuts m m' := by
  induction h generalizing above' m' with
  | refl => exact ⟨above', m', hp, fun a ha => ⟨a, ha, .refl cuts a⟩, .refl cuts m'⟩
  | tail _ hstep ih =>
    rcases hstep.path hp with ⟨above₁, m₁, hp₁, ha₁, hm₁⟩ | ⟨k, hk, hm⟩
    · obtain ⟨parts', hparts'⟩ := Option.isSome_iff_exists.1 he
      obtain ⟨parts, hparts, -⟩ := hm₁.element? hparts'
      obtain ⟨above, m, hp, ha, hm⟩ := ih hp₁ (by rw [hparts]; rfl)
      refine ⟨above, m, hp, fun a hmem => ?_, hm.tail hm₁⟩
      obtain ⟨a₁, hmem₁, haa⟩ := ha a hmem
      obtain ⟨a', hmem', haa'⟩ := ha₁ a₁ hmem₁
      exact ⟨a', hmem', haa.tail haa'⟩
    · have hnone := hk.forall_walk (P := fun m => m.element? = none) (by intros; rfl)
        (by intros; rfl) (by intros; rfl) (by intros; rfl) m' hm
      rw [hnone] at he
      cases he

/-- What a function gives back, altered functions give back altered. -/
theorem Alters.mem_returned {f f' m : Node} (h : Alters cuts f f') (hm : m ∈ f.returned) :
    ∃ m' ∈ f'.returned, Alters cuts m m' := by
  induction h with
  | refl => exact ⟨m, hm, .refl cuts m⟩
  | tail _ hstep ih =>
    obtain ⟨m₁, hm₁, h₁⟩ := ih
    obtain ⟨m', hm', h'⟩ := exists_of_forall₂ hstep.returned.flip hm₁
    exact ⟨m', hm', h₁.tail h'⟩

theorem Alters.id_eq (h : Alters cuts n n') : n'.id = n.id := by
  induction h with
  | refl => rfl
  | tail _ hstep ih => exact hstep.keeps.id.trans ih

end Node

namespace Rule.ListKey

variable {cuts : Prop} {d d' : Document} {w : Workspace} {finding : Finding}
  {callback m' n n' : Node}

/-! ### Elements of lists -/

/-- An element that the callback of a call of `.map` in a tree gives back. -/
structure Item (root : Node) where
  call : Node
  callback : Node
  element : Node
  call_mem : call ∈ root.walk
  callback? : mapCallback? call = some callback
  returned : element ∈ returnedElements callback

/-- The rule reports the elements without a key. -/
theorem mem_detect_iff : finding ∈ detect w n.walk ↔ ∃ i : Item n, hasKey i.element = false ∧
    finding = info.report w i.element (some i.element.tag |>.filter (· != "")) := by
  simp only [detect, List.mem_flatMap, List.mem_filterMap, List.mem_map, List.mem_filter,
    Bool.not_eq_true']
  constructor
  · rintro ⟨callback, ⟨call, hcall, hcallback⟩, m, ⟨hm, hkey⟩, rfl⟩
    exact ⟨⟨call, callback, m, hcall, hcallback, hm⟩, hkey, rfl⟩
  · rintro ⟨i, hkey, rfl⟩
    exact ⟨i.callback, ⟨i.call, i.call_mem, i.callback?⟩, i.element, ⟨i.returned, hkey⟩, rfl⟩

/-- The callback of `.map` is the first argument, parentheses aside. -/
theorem mapCallback?_eq_some_iff : mapCallback? n = some callback ↔ ∃ callee first rest,
    n.call? = some (callee, first :: rest) ∧ callee.label = .member "map" ∧
      first.unwrapped = callback ∧ callback.label.isFunctionValue := by
  rw [mapCallback?.eq_def]
  constructor
  · intro h
    split at h
    · next callee first rest hcall =>
      split_ifs at h with hmap
      cases h
      rw [Bool.and_eq_true, decide_eq_true_iff] at hmap
      exact ⟨callee, first, rest, hcall, hmap.1, rfl, hmap.2⟩
    · cases h
  · rintro ⟨callee, first, rest, hcall, hmember, rfl, hfunction⟩
    rw [hcall]
    dsimp only
    rw [if_pos]
    rw [Bool.and_eq_true, decide_eq_true_iff]
    exact ⟨hmember, hfunction⟩

/-- The callback of a call stands right below it, parentheses aside. -/
theorem exists_child_of_mapCallback? (h : mapCallback? n = some callback) :
    n.label = .call ∧ ∃ first ∈ n.children, first.unwrapped = callback := by
  obtain ⟨callee, first, rest, hcall, -, hfirst, -⟩ := mapCallback?_eq_some_iff.1 h
  rw [call?.eq_def] at hcall
  split at hcall
  · next hl hchildren =>
    cases hcall
    refine ⟨hl, first, ?_, hfirst⟩
    rw [hchildren]
    exact List.mem_cons_of_mem _ List.mem_cons_self
  · cases hcall

theorem mem_walk_of_mapCallback? (h : mapCallback? n = some callback) : callback ∈ n.walk := by
  obtain ⟨-, first, hfirst, rfl⟩ := exists_child_of_mapCallback? h
  exact mem_walk_of_child hfirst first.unwrapped_mem_walk

/-- A callback stays the callback. -/
theorem mapCallback?_alters (h : Alters cuts n n') (hf : mapCallback? n = some callback) :
    ∃ callback', mapCallback? n' = some callback' ∧ Alters cuts callback callback' := by
  induction h with
  | refl => exact ⟨callback, hf, .refl cuts callback⟩
  | @tail n₁ n' _ hstep ih =>
    obtain ⟨callback₁, hf₁, ha⟩ := ih
    obtain ⟨callee, first, rest, hcall, hmember, rfl, hfunction⟩ := mapCallback?_eq_some_iff.1 hf₁
    have hrel := hstep.call?
    rw [hcall] at hrel
    cases hcall' : n'.call? with
    | none =>
      rw [hcall'] at hrel
      cases hrel
    | some call' =>
      rw [hcall'] at hrel
      obtain ⟨callee', arguments'⟩ := call'
      obtain ⟨hcallee, harguments⟩ := Option.rel_some_some.1 hrel
      cases harguments with
      | @cons _ first' _ rest' hfirst _ =>
        refine ⟨first'.unwrapped, mapCallback?_eq_some_iff.2
          ⟨callee', first', rest', hcall', ?_, rfl, ?_⟩, ha.tail hfirst.unwrapped⟩
        · rw [(hcallee.around (by rw [hmember]; exact Bool.false_ne_true)).1, hmember]
        · rw [hfirst.unwrapped.isFunctionValue, hfunction]

namespace Item

variable (i : Item n)

theorem mem_returned : i.element ∈ i.callback.returned :=
  (List.mem_filter.1 i.returned).1

theorem isElement : i.element.element?.isSome :=
  (List.mem_filter.1 i.returned).2

theorem callback_mem : i.callback ∈ n.walk :=
  mem_walk_trans (mem_walk_of_mapCallback? i.callback?) i.call_mem

theorem element_mem_call : i.element ∈ i.call.walk :=
  mem_walk_trans (mem_walk_of_returned i.mem_returned) (mem_walk_of_mapCallback? i.callback?)

theorem element_mem : i.element ∈ n.walk :=
  mem_walk_trans i.element_mem_call i.call_mem

/-- A call is no element. -/
theorem element_ne_call : i.element ≠ i.call := by
  intro he
  obtain ⟨parts, hp⟩ := Option.isSome_iff_exists.1 i.isElement
  obtain ⟨isClosed, removed, hl⟩ := label_of_element? hp
  obtain ⟨callee, first, rest, hcall, -⟩ := mapCallback?_eq_some_iff.1 i.callback?
  rw [call?.eq_def, ← he, hl] at hcall
  cases hcall

/-- The callback is the function around the element. -/
theorem enclosing (h : d.WellFormed) (i : Item d.root) :
    d.enclosingFunction? i.element = some i.callback :=
  h.enclosingFunction?_eq i.callback_mem i.mem_returned

/-- An element of a list that is still in the tree is one of a list that is there. -/
theorem alters (h : d.WellFormed) (h' : d'.WellFormed) (i : Item d.root)
    (ha : Alters cuts d.root d'.root) (hm : m' ∈ d'.root.walk) (hid : m'.id = i.element.id)
    (he : m'.element?.isSome) : ∃ i' : Item d'.root, i'.element = m' ∧
      Alters cuts i.callback i'.callback := by
  obtain ⟨above', hp'⟩ := exists_path hm
  obtain ⟨above, m, hp, hab, hmm⟩ := ha.path hp' he
  obtain rfl := eq_of_id_eq h.root.nodup hp.mem_walk i.element_mem (hmm.id_eq.symm.trans hid)
  obtain ⟨through, hthrough, hcall⟩ :=
    exists_path_through i.call_mem i.element_mem_call i.element_ne_call
  rw [← h.ancestors_eq hthrough, h.ancestors_eq hp] at hcall
  obtain ⟨call', hcall', hcc⟩ := hab i.call hcall
  have hmem := hp'.above_mem_walk hcall'
  obtain ⟨callback', hcallback', hff⟩ := mapCallback?_alters hcc i.callback?
  obtain ⟨k, hk, hkk⟩ := hff.mem_returned i.mem_returned
  obtain rfl := eq_of_id_eq h'.root.nodup (mem_walk_trans (mem_walk_of_returned hk)
    (mem_walk_trans (mem_walk_of_mapCallback? hcallback') hmem)) hm (hkk.id_eq.trans hid.symm)
  exact ⟨⟨call', callback', k, hmem, hcallback', List.mem_filter.2 ⟨hk, he⟩⟩, rfl, hff⟩

end Item

end Rule.ListKey
end JsxLint
