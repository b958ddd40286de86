import JsxLint.Proofs.Scope.Declarations

/-!
# What a scope table lists

A scope table against a list of declarations: which bindings the declarations make, which
identifiers belong to a binding, and which scopes are around one. Each entry into a table keeps
this, for the declarations with the entered one among them.

* `firstDeclaration`, `Adds`: the first declaration of a name in a scope, and one declaration more;
* `ScopeTable.Around`: the scopes around a scope;
* `ScopeTable.Lists`: the table lists the declarations;
* `ScopeTable.Lists.reference`, `bind`: it does so after one reference or one binding more;
* `ScopeTable.Lists.declare`, `refer`, `addUnresolved`, `openScope`: entries.
-/

namespace JsxLint

/-! ### Names of a scope -/

theorem lookup_cons_if {α β : Type} [BEq α] [LawfulBEq α] [DecidableEq α] (k l : α) (v : β)
    (entries : List (α × β)) :
    ((k, v) :: entries).lookup l = if l = k then some v else entries.lookup l := by
  rw [List.lookup_cons]
  split_ifs with h
  · rw [h, beq_self_eq_true]
  · rw [beq_false_of_ne h]

theorem mem_of_lookup {α β : Type} [BEq α] [LawfulBEq α] {l : List (α × β)} {a : α} {b : β}
    (h : l.lookup a = some b) : (a, b) ∈ l := by
  obtain ⟨before, after, rfl, -⟩ := List.lookup_eq_some_iff.1 h
  exact List.mem_append_right _ List.mem_cons_self

theorem lookup_of_mem {α β : Type} [BEq α] [LawfulBEq α] {l : List (α × β)}
    (hd : (l.map (·.1)).Nodup) {a : α} {b : β} (h : (a, b) ∈ l) : l.lookup a = some b := by
  obtain ⟨before, after, rfl⟩ := List.append_of_mem h
  refine List.lookup_eq_some_iff.2 ⟨before, after, rfl, fun p hp => ?_⟩
  rw [List.map_append, List.map_cons, List.nodup_append] at hd
  exact bne_iff_ne.2 fun he => hd.2.2 _ (List.mem_map_of_mem hp) _ List.mem_cons_self he.symm

theorem lookup_putName (x y : String) (b : BindingId) (names : List (String × BindingId)) :
    (putName x b names).lookup y = if y = x then some b else names.lookup y := by
  induction names with
  | nil => exact lookup_cons_if x y b []
  | cons e names ih =>
    obtain ⟨n, c⟩ := e
    rw [putName]
    split_ifs with hn hy hy
    · rw [lookup_cons_if, if_pos (hy.trans hn.symm)]
    · rw [lookup_cons_if, lookup_cons_if, if_neg fun h => hy (h.trans hn), if_neg fun h => hy (h.trans hn)]
    · rw [lookup_cons_if, if_neg fun h => hn (h.symm.trans hy), ih, if_pos hy]
    · rw [lookup_cons_if, lookup_cons_if, ih, if_neg hy]

theorem lookup_dropName (x y : String) (names : List (String × BindingId)) :
    (dropName x names).lookup y = if y = x then none else names.lookup y := by
  rw [dropName]
  induction names with
  | nil => split_ifs <;> rfl
  | cons e names ih =>
    obtain ⟨n, c⟩ := e
    rw [List.filter_cons, lookup_cons_if]
    by_cases hn : n = x
    · subst hn
      rw [if_neg (by simp), ih]
      by_cases hy : y = n
      · rw [if_pos hy, if_pos hy]
      · rw [if_neg hy, if_neg hy, if_neg hy]
    · rw [if_pos (by simpa using hn), lookup_cons_if, ih]
      by_cases hy : y = n
      · rw [if_pos hy, if_pos hy, if_neg fun h => hn (hy.symm.trans h)]
      · rw [if_neg hy, if_neg hy]

/-! ### Declarations of a scope -/

/-- The identifier that declares a name first in the scope of a node. -/
def firstDeclaration (ds : List Declaration) (scope : NodeId) (name : String) : Option NodeId :=
  (ds.find? fun d => d.scope == scope && d.name == name).map (·.identifier)

/-- Whether declarations come from others by one more, which is the last of its name in its scope. -/
structure Adds (ds ds' : List Declaration) (new : Declaration) : Prop where
  mem : ∀ d, d ∈ ds' ↔ d ∈ ds ∨ d = new
  first : ∀ scope name, firstDeclaration ds' scope name = (firstDeclaration ds scope name).or
    (if new.scope = scope ∧ new.name = name then some new.identifier else none)

section Declarations

variable {ds before after : List Declaration} {d new : Declaration} {scope : NodeId} {name : String}

theorem exists_of_firstDeclaration {i : NodeId} (h : firstDeclaration ds scope name = some i) :
    ∃ d ∈ ds, d.scope = scope ∧ d.name = name ∧ d.identifier = i := by
  obtain ⟨d, hf, hi⟩ := Option.map_eq_some_iff.1 h
  have hp := List.find?_some hf
  simp only [Bool.and_eq_true, beq_iff_eq] at hp
  exact ⟨d, List.mem_of_find?_eq_some hf, hp.1, hp.2, hi⟩

theorem firstDeclaration_isSome (h : d ∈ ds) : (firstDeclaration ds d.scope d.name).isSome := by
  rw [firstDeclaration, Option.isSome_map, List.find?_isSome]
  exact ⟨d, h, by simp⟩

theorem firstDeclaration_append (ds ds' : List Declaration) (scope : NodeId) (name : String) :
    firstDeclaration (ds ++ ds') scope name =
      (firstDeclaration ds scope name).or (firstDeclaration ds' scope name) := by
  rw [firstDeclaration, List.find?_append, Option.map_or]
  rfl

theorem firstDeclaration_singleton : firstDeclaration [new] scope name =
    if new.scope = scope ∧ new.name = name then some new.identifier else none := by
  rw [firstDeclaration, List.find?_singleton]
  by_cases h : new.scope = scope ∧ new.name = name <;> simp [h]

theorem adds_append (ds : List Declaration) (new : Declaration) : Adds ds (ds ++ [new]) new where
  mem d := by rw [List.mem_append, List.mem_singleton]
  first scope name := by rw [firstDeclaration_append, firstDeclaration_singleton]

/-- A declaration may be put in anywhere when its scope does not have the name yet. -/
theorem adds_insert (h : firstDeclaration (before ++ after) new.scope new.name = none) :
    Adds (before ++ after) (before ++ new :: after) new where
  mem d := by
    simp only [List.mem_append, List.mem_cons]
    tauto
  first scope name := by
    have hcons : firstDeclaration (new :: after) scope name =
        (firstDeclaration [new] scope name).or (firstDeclaration after scope name) :=
      firstDeclaration_append [new] after scope name
    rw [firstDeclaration_append, hcons, firstDeclaration_append, firstDeclaration_singleton]
    split_ifs with hn
    · obtain ⟨rfl, rfl⟩ := hn
      rw [firstDeclaration_append, Option.or_eq_none_iff] at h
      rw [h.1, h.2]
      rfl
    · simp

end Declarations

namespace ScopeTable

variable {t t' : ScopeTable} {ds ds' : List Declaration} {s p : ScopeId} {b : BindingId}
  {i j : NodeId} {x : String} {kind : ScopeKind} {B : Binding}

/-! ### The scopes around a scope -/

/-- The scopes of a table, each with the one around it. -/
def skeleton (t : ScopeTable) : List (Region × Option ScopeId) :=
  t.scopes.map fun scope => (⟨scope.node, scope.kind⟩, scope.parent)

/-- The scopes of a table. -/
def regions (t : ScopeTable) : List Region :=
  t.skeleton.map (·.1)

/-- The node that opens a scope. -/
def nodeOf? (t : ScopeTable) (s : ScopeId) : Option NodeId :=
  (t.regions[s]?).map (·.node)

/-- The scopes around a scope, the nearest first. -/
inductive Around (t : ScopeTable) : ScopeId → List Region → Prop
  | top {s : ScopeId} {r : Region} (h : t.skeleton[s]? = some (r, none)) : Around t s [r]
  | inner {s p : ScopeId} {r : Region} {c : List Region} (h : t.skeleton[s]? = some (r, some p))
    (hp : p < s) (ha : Around t p c) : Around t s (r :: c)

theorem nodeOf?_eq (t : ScopeTable) (s : ScopeId) : t.nodeOf? s = (t.scopes[s]?).map (·.node) := by
  rw [nodeOf?, regions, skeleton, List.map_map, List.getElem?_map, Option.map_map]
  rfl

theorem regions_getElem? {r : Region} {o : Option ScopeId} (h : t.skeleton[s]? = some (r, o)) :
    t.regions[s]? = some r := by
  rw [regions, List.getElem?_map, h]
  rfl

theorem Around.extend {c : List Region} (h : t.Around s c) (ht : t.skeleton <+: t'.skeleton) :
    t'.Around s c := by
  have hget : ∀ {s : ScopeId} {e}, t.skeleton[s]? = some e → t'.skeleton[s]? = some e := by
    intro s e he
    obtain ⟨more, hm⟩ := ht
    rw [← hm, List.getElem?_append_left (List.getElem?_eq_some_iff.1 he).1]
    exact he
  induction h with
  | top h => exact .top (hget h)
  | inner h hp _ ih => exact .inner (hget h) hp ih

theorem Around.keep {c : List Region} (h : t.Around s c) (hs : t'.scopes = t.scopes) :
    t'.Around s c := by
  have hskeleton : t'.skeleton = t.skeleton := congrArg (List.map _) hs
  exact h.extend (hskeleton ▸ List.prefix_refl _)

theorem Around.chainFrom {c : List Region} (h : t.Around s c) : ∀ steps, s < steps →
    List.Forall₂ (fun s r => t.regions[s]? = some r) (t.chainFrom steps (some s)) c := by
  have hscope : ∀ {s : ScopeId} {r o}, t.skeleton[s]? = some (r, o) →
      ∃ scope : Scope, t.scopes[s]? = some scope ∧ scope.parent = o := by
    intro s r o he
    rw [skeleton, List.getElem?_map] at he
    obtain ⟨scope, hs, he⟩ := Option.map_eq_some_iff.1 he
    exact ⟨scope, hs, congrArg Prod.snd he⟩
  induction h with
  | top h =>
    intro steps hs
    obtain ⟨steps, rfl⟩ := Nat.exists_eq_add_of_lt (Nat.lt_of_le_of_lt (Nat.zero_le _) hs)
    obtain ⟨scope, hs, hp⟩ := hscope h
    rw [Nat.zero_add, ScopeTable.chainFrom, hs]
    dsimp only
    rw [hp]
    refine .cons (regions_getElem? h) ?_
    cases steps <;> exact .nil
  | @inner s p r c h hp _ ih =>
    intro steps hs
    obtain ⟨steps, rfl⟩ := Nat.exists_eq_add_of_lt (Nat.lt_of_le_of_lt (Nat.zero_le _) hs)
    obtain ⟨scope, hss, hsp⟩ := hscope h
    rw [Nat.zero_add, ScopeTable.chainFrom, hss]
    dsimp only
    rw [hsp]
    rw [Nat.zero_add] at hs
    exact .cons (regions_getElem? h) (ih steps (Nat.lt_of_lt_of_le hp (Nat.le_of_lt_succ hs)))

/-- The chain of a scope goes through the scopes around it. -/
theorem Around.chain {c : List Region} (h : t.Around s c) :
    List.Forall₂ (fun s r => t.regions[s]? = some r) (t.chain s) c := by
  refine h.chainFrom _ ?_
  have hlt : ∀ {e}, t.skeleton[s]? = some e → s < t.scopes.length := by
    intro e he
    have := (List.getElem?_eq_some_iff.1 he).1
    rwa [skeleton, List.length_map] at this
  cases h with
  | top h => exact hlt h
  | inner h => exact hlt h

theorem Around.nearest {c : List Region} (h : t.Around s c) : ∃ r rest, c = r :: rest ∧
    t.regions[s]? = some r := by
  cases h with
  | top h => exact ⟨_, _, rfl, regions_getElem? h⟩
  | inner h => exact ⟨_, _, rfl, regions_getElem? h⟩

theorem chainFrom_congr (h : t'.skeleton = t.skeleton) (steps : Nat) (o : Option ScopeId) :
    t'.chainFrom steps o = t.chainFrom steps o := by
  induction steps generalizing o with
  | zero => rfl
  | succ steps ih =>
    cases o with
    | none => rfl
    | some s =>
      have hs : (t'.scopes[s]?).map (·.parent) = (t.scopes[s]?).map (·.parent) := by
        have hget := congrArg (fun l => (l[s]?).map Prod.snd) h
        simpa [skeleton, Function.comp_def] using hget
      rw [chainFrom, chainFrom]
      cases h1 : t'.scopes[s]? <;> cases h2 : t.scopes[s]? <;> rw [h1, h2] at hs <;> dsimp only
      · cases hs
      · cases hs
      · rw [ih]
        exact congrArg (fun o => s :: t.chainFrom steps o) (Option.some.inj hs)

theorem chain_congr (h : t'.skeleton = t.skeleton) (s : ScopeId) : t'.chain s = t.chain s := by
  have hl := congrArg List.length h
  rw [skeleton, skeleton, List.length_map, List.length_map] at hl
  rw [chain, chain, hl, chainFrom_congr h]


/-! ### Bindings -/

/-- The identifier that declares a binding first. -/
def declarationAt? (t : ScopeTable) (b : BindingId) : Option NodeId :=
  (t.bindings[b]?).map (·.declaration)

/-- The declaration of the binding that an identifier belongs to. -/
def declaration? (t : ScopeTable) (identifier : NodeId) : Option NodeId :=
  (t.bindingOf? identifier).bind t.declarationAt?

/-- Whether a table has the bindings that declarations make. -/
structure Lists (t : ScopeTable) (ds : List Declaration) : Prop where
  nodup : (t.regions.map (·.node)).Nodup
  bound_iff : ∀ s x b, t.bound? s x = some b ↔
    ∃ B : Binding, t.bindings[b]? = some B ∧ B.scope = s ∧ B.name = x
  /-- A binding stands for the first declaration of its name in its scope. -/
  first : ∀ (b : BindingId) (B : Binding), t.bindings[b]? = some B →
    ∃ n, t.nodeOf? B.scope = some n ∧ firstDeclaration ds n B.name = some B.declaration
  /-- Every declaration has a binding. -/
  complete : ∀ d ∈ ds, ∃ (b : BindingId) (B : Binding), t.declared.lookup d.identifier = some b ∧
    t.bindings[b]? = some B ∧ t.nodeOf? B.scope = some d.scope ∧ B.name = d.name
  declared : ∀ i, (t.declared.lookup i).isSome → ∃ d ∈ ds, d.identifier = i
  /-- The identifiers of a binding are its declaration and its references. -/
  member : ∀ i b, t.bindingOf? i = some b ↔
    ∃ B : Binding, t.bindings[b]? = some B ∧ (i = B.declaration ∨ i ∈ B.references)
  unresolved : ∀ i ∈ t.unresolved, t.bindingOf? i = none

theorem bindingOf?_of_declared (h : t.declared.lookup i = some b) : t.bindingOf? i = some b := by
  rw [bindingOf?, h]
  rfl

namespace Lists

variable (h : t.Lists ds)

include h

/-- A scope goes by the node that opens it. -/
theorem scope_eq {s s' : ScopeId} {n : NodeId} (hs : t.nodeOf? s = some n)
    (hs' : t.nodeOf? s' = some n) : s = s' := by
  rw [nodeOf?, ← List.getElem?_map] at hs hs'
  have hlt := (List.getElem?_eq_some_iff.1 hs).1
  exact (List.getElem?_inj hlt h.nodup).1 (hs.trans hs'.symm)

/-- The binding of a name in a scope stands for the first declaration of it there. -/
theorem bound?_bind {n : NodeId} (hs : t.nodeOf? s = some n) (x : String) :
    (t.bound? s x).bind t.declarationAt? = firstDeclaration ds n x := by
  cases hb : t.bound? s x with
  | some b =>
    obtain ⟨B, hB, rfl, rfl⟩ := (h.bound_iff s x b).1 hb
    obtain ⟨m, hm, hf⟩ := h.first b B hB
    rw [hs] at hm
    cases hm
    rw [hf]
    exact congrArg (Option.map _) hB
  | none =>
    cases hf : firstDeclaration ds n x with
    | none => rfl
    | some i =>
      obtain ⟨d, hd, rfl, rfl, rfl⟩ := exists_of_firstDeclaration hf
      obtain ⟨b, B, -, hB, hn, hname⟩ := h.complete d hd
      have hbound := (h.bound_iff s d.name b).2 ⟨B, hB, h.scope_eq hn hs, hname⟩
      rw [hb] at hbound
      cases hbound

/-- A name looked up from a scope stands for its first declaration in the nearest scope that has
one. -/
theorem lookup?_bind {c : List Region} (ha : t.Around s c) (x : String) :
    (t.lookup? s x).bind t.declarationAt? =
      c.findSome? fun r => firstDeclaration ds r.node x := by
  have hchain := ha.chain
  rw [lookup?]
  generalize t.chain s = ss at hchain
  clear ha
  induction hchain with
  | nil => rfl
  | @cons s r ss c hr _ ih =>
    have hb := h.bound?_bind (n := r.node) (by rw [nodeOf?, hr]; rfl) x
    rw [List.findSome?_cons, List.findSome?_cons, ← hb]
    cases hs : t.bound? s x with
    | none => exact ih
    | some b =>
      obtain ⟨B, hB, -⟩ := (h.bound_iff s x b).1 hs
      simp [declarationAt?, hB]

/-- A binding that is found by a name has that name. -/
theorem name_of_lookup? {x : String} {B : Binding} (hl : t.lookup? s x = some b)
    (hB : t.bindings[b]? = some B) : B.name = x := by
  obtain ⟨r, -, hr⟩ := List.exists_of_findSome?_eq_some hl
  obtain ⟨C, hC, -, hx⟩ := (h.bound_iff r x b).1 hr
  rw [hB] at hC
  cases hC
  exact hx

/-- A declaring identifier belongs to the binding of the first declaration of its name. -/
theorem declaration?_of_mem {d : Declaration} (hd : d ∈ ds) :
    t.declaration? d.identifier = firstDeclaration ds d.scope d.name := by
  obtain ⟨b, B, hb, hB, hn, hname⟩ := h.complete d hd
  obtain ⟨n, hn', hf⟩ := h.first b B hB
  rw [hn] at hn'
  cases hn'
  rw [declaration?, bindingOf?_of_declared hb, ← hname, hf]
  exact congrArg (Option.map _) hB

theorem exists_binding (hi : t.bindingOf? i = some b) : ∃ B : Binding, t.bindings[b]? = some B :=
  let ⟨B, hB, _⟩ := (h.member i b).1 hi
  ⟨B, hB⟩

theorem declaration?_eq_none : t.declaration? i = none ↔ t.bindingOf? i = none := by
  rw [declaration?, Option.bind_eq_none_iff]
  constructor
  · intro hn
    cases hi : t.bindingOf? i with
    | none => rfl
    | some b =>
      obtain ⟨B, hB⟩ := h.exists_binding hi
      have hb := hn b hi
      rw [declarationAt?, hB] at hb
      cases hb
  · intro hn b hb
    rw [hn] at hb
    cases hb

end Lists

/-! ### Entries -/

theorem nodeOf?_congr (h : t'.skeleton = t.skeleton) (s : ScopeId) : t'.nodeOf? s = t.nodeOf? s := by
  rw [nodeOf?, nodeOf?, regions, regions, h]

theorem exists_addReference {B : Binding} {b c : BindingId}
    (h : (t.addReference b i s).bindings[c]? = some B) :
    ∃ C, t.bindings[c]? = some C ∧ B.scope = C.scope ∧ B.name = C.name ∧
      B.declaration = C.declaration ∧ ∀ j, j ∈ B.references ↔ j ∈ C.references ∨ c = b ∧ j = i := by
  rw [addReference, List.getElem?_modify] at h
  obtain ⟨C, hC, rfl⟩ := Option.map_eq_some_iff.1 h
  refine ⟨C, hC, ?_⟩
  split_ifs with hb
  · subst hb
    simp
  · simp [Ne.symm hb]

theorem addReference_getElem? {C : Binding} {c : BindingId} (h : t.bindings[c]? = some C) :
    ∃ B, (t.addReference b i s).bindings[c]? = some B ∧ B.scope = C.scope ∧ B.name = C.name ∧
      B.declaration = C.declaration ∧ ∀ j, j ∈ B.references ↔ j ∈ C.references ∨ c = b ∧ j = i := by
  have hget : (t.addReference b i s).bindings[c]? =
      some (if b = c then { C with references := C.references ++ [i] } else C) := by
    rw [addReference, List.getElem?_modify, h]
    rfl
  obtain ⟨D, hD, he⟩ := exists_addReference hget
  rw [h] at hD
  cases hD
  exact ⟨_, hget, he⟩

/-- A table lists declarations when it comes from one that does by one reference more, which may
declare a name again. -/
theorem Lists.reference (h : t.Lists ds) (hb : t.bindings[b]? = some B)
    (hscopes : t'.scopes = t.scopes) (hbindings : t'.bindings = (t.addReference b i s).bindings)
    (hof : ∀ j, t'.bindingOf? j = if j = i then some b else t.bindingOf? j)
    (hfirst : ∀ n x, firstDeclaration ds' n x = firstDeclaration ds n x)
    (hold : ∀ d ∈ ds, t'.declared.lookup d.identifier = t.declared.lookup d.identifier)
    (hnew : ∀ d ∈ ds', d ∈ ds ∨ t'.declared.lookup d.identifier = some b ∧
      t.nodeOf? B.scope = some d.scope ∧ B.name = d.name)
    (hdeclared : ∀ j, (t'.declared.lookup j).isSome → ∃ d ∈ ds', d.identifier = j)
    (hi : t.bindingOf? i = none) (hunresolved : t'.unresolved = t.unresolved)
    (hu : i ∉ t.unresolved) : t'.Lists ds' := by
  have hskeleton : t'.skeleton = t.skeleton := congrArg (List.map _) hscopes
  have hnode := nodeOf?_congr hskeleton
  refine ⟨?_, fun s x c => ?_, fun c C hC => ?_, fun d hd => ?_, hdeclared, fun j c => ?_,
    fun j hj => ?_⟩
  · rw [regions, hskeleton]
    exact h.nodup
  · rw [bound?, hscopes, hbindings]
    refine (h.bound_iff s x c).trans ⟨?_, ?_⟩
    · rintro ⟨C, hC, rfl, rfl⟩
      obtain ⟨D, hD, hs, hn, -⟩ := addReference_getElem? hC
      exact ⟨D, hD, hs, hn⟩
    · rintro ⟨C, hC, rfl, rfl⟩
      obtain ⟨D, hD, hs, hn, -⟩ := exists_addReference hC
      exact ⟨D, hD, hs.symm, hn.symm⟩
  · rw [hbindings] at hC
    obtain ⟨D, hD, hs, hn, hd, -⟩ := exists_addReference hC
    obtain ⟨n, hnn, hf⟩ := h.first c D hD
    exact ⟨n, by rw [hnode, hs, hnn], by rw [hfirst, hn, hf, hd]⟩
  · rw [hbindings]
    rcases hnew d hd with hd | ⟨hl, hn, hname⟩
    · obtain ⟨c, C, hl, hC, hn, hname⟩ := h.complete d hd
      obtain ⟨D, hD, hs, hx, -⟩ := addReference_getElem? hC
      exact ⟨c, D, (hold d hd).trans hl, hD, by rw [hnode, hs, hn], hx.trans hname⟩
    · obtain ⟨D, hD, hs, hx, -⟩ := addReference_getElem? hb
      exact ⟨b, D, hl, hD, by rw [hnode, hs, hn], hx.trans hname⟩
  · rw [hof, hbindings]
    constructor
    · intro hj
      split_ifs at hj with hji
      · cases hj
        obtain ⟨D, hD, -, -, -, hr⟩ := addReference_getElem? hb
        exact ⟨D, hD, .inr ((hr j).2 (.inr ⟨rfl, hji⟩))⟩
      · obtain ⟨C, hC, hm⟩ := (h.member j c).1 hj
        obtain ⟨D, hD, -, -, hd, hr⟩ := addReference_getElem? hC
        exact ⟨D, hD, hm.imp (fun he => he.trans hd.symm) fun he => (hr j).2 (.inl he)⟩
    · rintro ⟨C, hC, hm⟩
      obtain ⟨D, hD, -, -, hd, hr⟩ := exists_addReference hC
      rw [hd, hr] at hm
      split_ifs with hji
      · rcases hm with hm | hm | ⟨rfl, -⟩
        · exact absurd ((h.member j c).2 ⟨D, hD, .inl hm⟩) (by rw [hji, hi]; exact fun h => by cases h)
        · exact absurd ((h.member j c).2 ⟨D, hD, .inr hm⟩) (by rw [hji, hi]; exact fun h => by cases h)
        · rfl
      · rcases hm with hm | hm | ⟨-, hm⟩
        · exact (h.member j c).2 ⟨D, hD, .inl hm⟩
        · exact (h.member j c).2 ⟨D, hD, .inr hm⟩
        · exact absurd hm hji
  · rw [hunresolved] at hj
    rw [hof, if_neg fun he : j = i => hu (he ▸ hj)]
    exact h.unresolved j hj

theorem lookup_or_cons {entries more : List (NodeId × BindingId)} :
    ((((i, b) :: entries).lookup j).or (more.lookup j)) =
      if j = i then some b else (entries.lookup j).or (more.lookup j) := by
  rw [lookup_cons_if]
  split_ifs <;> rfl

theorem declare_bindingOf? (t : ScopeTable) (s : ScopeId) (i j : NodeId) (x word : String) :
    (t.declare s i x word).2.bindingOf? j =
      if j = i then some (t.declare s i x word).1 else t.bindingOf? j := by
  rw [declare]
  split <;> exact lookup_or_cons

theorem declare_declared (t : ScopeTable) (s : ScopeId) (i : NodeId) (x word : String) :
    (t.declare s i x word).2.declared = (i, (t.declare s i x word).1) :: t.declared := by
  rw [declare]
  split <;> rfl

theorem declare_skeleton (t : ScopeTable) (s : ScopeId) (i : NodeId) (x word : String) :
    (t.declare s i x word).2.skeleton = t.skeleton := by
  rw [declare]
  split
  · rfl
  · dsimp only [skeleton]
    refine List.ext_getElem? fun n => ?_
    rw [List.getElem?_map, List.getElem?_map, List.getElem?_modify]
    cases t.scopes[n]? with
    | none => rfl
    | some scope =>
      dsimp only [Option.map_some]
      split_ifs <;> rfl

theorem declare_unresolved (t : ScopeTable) (s : ScopeId) (i : NodeId) (x word : String) :
    (t.declare s i x word).2.unresolved = t.unresolved := by
  rw [declare]
  split <;> rfl

theorem declare_referring (t : ScopeTable) (s : ScopeId) (i : NodeId) (x word : String) :
    (t.declare s i x word).2.referring = t.referring := by
  rw [declare]
  split <;> rfl

theorem bound?_of_getElem?_none (h : t.scopes[s]? = none) (x : String) : t.bound? s x = none := by
  rw [bound?, h]
  rfl

theorem lookup_declared_ne (h : t.Lists ds) (hi : t.bindingOf? i = none) {d : Declaration}
    (hd : d ∈ ds) : d.identifier ≠ i := by
  rintro rfl
  obtain ⟨b, B, hb, -⟩ := h.complete d hd
  rw [bindingOf?_of_declared hb] at hi
  cases hi

/-- What a scope binds after a declaration of a new name. -/
theorem declare_bound? {word : String} (hb : t.bound? s x = none) (hs : s < t.scopes.length)
    (r : ScopeId) (y : String) : (t.declare s i x word).2.bound? r y =
      if r = s ∧ y = x then some t.bindings.length else t.bound? r y := by
  rw [declare, hb]
  dsimp only [bound?]
  rw [List.getElem?_modify]
  by_cases hr : r = s
  · subst hr
    rw [List.getElem?_eq_getElem hs]
    simp only [if_true, Option.map_eq_map, Option.map_some, Option.bind_some, lookup_putName,
      true_and]
  · simp only [Ne.symm hr, hr, if_false, false_and]
    cases t.scopes[r]? <;> rfl

theorem lt_of_nodeOf? {n : NodeId} (h : t.nodeOf? s = some n) : s < t.scopes.length := by
  rw [nodeOf?_eq] at h
  obtain ⟨scope, hs, -⟩ := Option.map_eq_some_iff.1 h
  exact (List.getElem?_eq_some_iff.1 hs).1

/-- A binding of a table with one binding more is an old one or the new one. -/
theorem getElem?_concat_iff {bs : List Binding} {B C : Binding} {c : BindingId} :
    (bs ++ [B])[c]? = some C ↔ bs[c]? = some C ∨ c = bs.length ∧ B = C := by
  rcases Nat.lt_trichotomy c bs.length with hlt | rfl | hgt
  · rw [List.getElem?_append_left hlt]
    simp [Nat.ne_of_lt hlt]
  · simp
  · simp [List.getElem?_eq_none (Nat.le_of_lt hgt), List.getElem?_append_right (Nat.le_of_lt hgt),
      Nat.ne_of_gt hgt, Nat.sub_ne_zero_of_lt hgt]

/-- A table lists declarations when it comes from one that does by one binding more, for the first
declaration of its name in its scope. -/
theorem Lists.bind {n : NodeId} {word : String} (h : t.Lists ds) (hs : t.nodeOf? s = some n)
    (hfree : t.bound? s x = none) (ha : Adds ds ds' ⟨n, i, x⟩) (hskeleton : t'.skeleton = t.skeleton)
    (hbindings : t'.bindings = t.bindings ++ [⟨x, word, i, s, []⟩])
    (hbound : ∀ r y, t'.bound? r y =
      if r = s ∧ y = x then some t.bindings.length else t.bound? r y)
    (hof : ∀ j, t'.bindingOf? j = if j = i then some t.bindings.length else t.bindingOf? j)
    (hold : ∀ d ∈ ds, t'.declared.lookup d.identifier = t.declared.lookup d.identifier)
    (hnew : t'.declared.lookup i = some t.bindings.length)
    (hdeclared : ∀ j, (t'.declared.lookup j).isSome → ∃ d ∈ ds', d.identifier = j)
    (hi : t.bindingOf? i = none) (hunresolved : t'.unresolved = t.unresolved)
    (hu : i ∉ t.unresolved) : t'.Lists ds' := by
  have hnode := nodeOf?_congr hskeleton
  have hiff : ∀ {c : BindingId} {C}, t'.bindings[c]? = some C ↔
      t.bindings[c]? = some C ∨ c = t.bindings.length ∧ ⟨x, word, i, s, []⟩ = C := by
    intro c C
    rw [hbindings, getElem?_concat_iff]
  have hlast := hiff.2 (.inr ⟨rfl, rfl⟩)
  refine ⟨?_, fun r y c => ?_, fun c C hC => ?_, fun d hd => ?_, hdeclared, fun j c => ?_,
    fun j hj => ?_⟩
  · rw [regions, hskeleton]
    exact h.nodup
  · rw [hbound]
    constructor
    · intro hc
      split_ifs at hc with hr
      · cases hc
        exact ⟨_, hlast, hr.1.symm, hr.2.symm⟩
      · obtain ⟨C, hC, he⟩ := (h.bound_iff r y c).1 hc
        exact ⟨C, hiff.2 (.inl hC), he⟩
    · rintro ⟨C, hC, rfl, rfl⟩
      rcases hiff.1 hC with hC | ⟨rfl, rfl⟩
      · have hc := (h.bound_iff _ _ c).2 ⟨C, hC, rfl, rfl⟩
        rw [if_neg, hc]
        rintro ⟨he1, he2⟩
        rw [he1, he2, hfree] at hc
        cases hc
      · rw [if_pos ⟨rfl, rfl⟩]
  · rcases hiff.1 hC with hC | ⟨rfl, rfl⟩
    · obtain ⟨m, hm, hf⟩ := h.first c C hC
      exact ⟨m, (hnode _).trans hm, by rw [ha.first, hf, Option.some_or]⟩
    · refine ⟨n, (hnode _).trans hs, ?_⟩
      rw [ha.first, ← h.bound?_bind hs, hfree, Option.bind_none, Option.none_or, if_pos ⟨rfl, rfl⟩]
  · rcases (ha.mem d).1 hd with hd | rfl
    · obtain ⟨c, C, hl, hC, hm, hname⟩ := h.complete d hd
      exact ⟨c, C, (hold d hd).trans hl, hiff.2 (.inl hC), (hnode _).trans hm, hname⟩
    · exact ⟨_, _, hnew, hlast, (hnode _).trans hs, rfl⟩
  · rw [hof]
    constructor
    · intro hc
      split_ifs at hc with hj
      · cases hc
        exact ⟨_, hlast, .inl hj⟩
      · obtain ⟨C, hC, he⟩ := (h.member j c).1 hc
        exact ⟨C, hiff.2 (.inl hC), he⟩
    · rintro ⟨C, hC, hm⟩
      rcases hiff.1 hC with hC | ⟨rfl, rfl⟩
      · have hjc := (h.member j c).2 ⟨C, hC, hm⟩
        rw [if_neg, hjc]
        rintro rfl
        rw [hi] at hjc
        cases hjc
      · rcases hm with rfl | hm
        · rw [if_pos rfl]
        · cases hm
  · rw [hunresolved] at hj
    rw [hof, if_neg fun he : j = i => hu (he ▸ hj)]
    exact h.unresolved j hj

/-- An entered declaration is listed with the others. -/
theorem Lists.declare {n : NodeId} {word : String} (h : t.Lists ds) (hs : t.nodeOf? s = some n)
    (hi : t.bindingOf? i = none) (hu : i ∉ t.unresolved) (ha : Adds ds ds' ⟨n, i, x⟩) :
    (t.declare s i x word).2.Lists ds' := by
  have hlookup : ∀ j, (t.declare s i x word).2.declared.lookup j =
      if j = i then some (t.declare s i x word).1 else t.declared.lookup j := by
    intro j
    rw [declare_declared, lookup_cons_if]
  have hdeclared : ∀ j, ((t.declare s i x word).2.declared.lookup j).isSome →
      ∃ d ∈ ds', d.identifier = j := by
    intro j hj
    rw [hlookup] at hj
    split_ifs at hj with hji
    · exact ⟨⟨n, i, x⟩, (ha.mem _).2 (.inr rfl), hji.symm⟩
    · obtain ⟨d, hd, he⟩ := h.declared j hj
      exact ⟨d, (ha.mem d).2 (.inl hd), he⟩
  have hold : ∀ d ∈ ds, (t.declare s i x word).2.declared.lookup d.identifier =
      t.declared.lookup d.identifier := by
    intro d hd
    rw [hlookup, if_neg (lookup_declared_ne h hi hd)]
  have hof := fun j => declare_bindingOf? t s i j x word
  have hself := hlookup i
  rw [if_pos rfl] at hself
  -- a name that the scope has already gets a reference, another one gets a binding
  cases hb : t.bound? s x with
  | some b =>
    obtain ⟨B, hB, hBs, hBx⟩ := (h.bound_iff s x b).1 hb
    have hfst : (t.declare s i x word).1 = b := by rw [ScopeTable.declare, hb]
    rw [hfst] at hself hof
    refine h.reference hB (i := i) (s := s) ?_ ?_ hof (fun m y => ?_) hold (fun d hd => ?_)
      hdeclared hi (declare_unresolved t s i x word) hu
    · rw [ScopeTable.declare, hb]
      rfl
    · rw [ScopeTable.declare, hb]
    · rw [ha.first]
      split_ifs with hn
      · obtain ⟨rfl, rfl⟩ := hn
        rw [← h.bound?_bind hs, hb]
        simp [declarationAt?, hB]
      · exact Option.or_none
    · rcases (ha.mem d).1 hd with hd | rfl
      · exact .inl hd
      · exact .inr ⟨hself, hBs ▸ hs, hBx⟩
  | none =>
    have hfst : (t.declare s i x word).1 = t.bindings.length := by rw [ScopeTable.declare, hb]
    rw [hfst] at hself hof
    exact h.bind hs hb ha (declare_skeleton t s i x word) (by rw [ScopeTable.declare, hb])
      (declare_bound? hb (lt_of_nodeOf? hs)) hof hold hself hdeclared hi
      (declare_unresolved t s i x word) hu

theorem refer_bindingOf? (hi : t.bindingOf? i = none) (j : NodeId) :
    (t.refer b i s).bindingOf? j = if j = i then some b else t.bindingOf? j := by
  have hd : t.declared.lookup i = none := (Option.or_eq_none_iff.1 hi).1
  show (t.declared.lookup j).or (((i, b) :: t.referring).lookup j) = _
  rw [lookup_cons_if]
  split_ifs with hj
  · rw [hj, hd, Option.none_or]
  · rfl

/-- A reference changes nothing about the declarations that a table lists. -/
theorem Lists.refer (h : t.Lists ds) (hb : t.bindings[b]? = some B) (hi : t.bindingOf? i = none)
    (hu : i ∉ t.unresolved) : (t.refer b i s).Lists ds :=
  h.reference (s := s) hb rfl rfl (refer_bindingOf? hi) (fun _ _ => rfl) (fun _ _ => rfl)
    (fun _ hd => .inl hd) h.declared hi rfl hu

theorem Lists.addUnresolved (h : t.Lists ds) (hi : t.bindingOf? i = none) :
    (t.addUnresolved i).Lists ds where
  nodup := h.nodup
  bound_iff := h.bound_iff
  first := h.first
  complete := h.complete
  declared := h.declared
  member := h.member
  unresolved j hj := by
    rcases List.mem_append.1 hj with hj | hj
    · exact h.unresolved j hj
    · rw [List.mem_singleton.1 hj]
      exact hi

theorem openScope_skeleton (t : ScopeTable) (kind : ScopeKind) (node : NodeId) (p : ScopeId) :
    (t.openScope kind node p).2.skeleton = t.skeleton ++ [(⟨node, kind⟩, some p)] :=
  List.map_append

/-- A new scope has no names. -/
theorem openScope_bound? (t : ScopeTable) (kind : ScopeKind) (node : NodeId) (p s : ScopeId)
    (x : String) : (t.openScope kind node p).2.bound? s x = t.bound? s x := by
  show ((t.scopes ++ [_])[s]?).bind _ = _
  rw [List.getElem?_append]
  split_ifs with hs
  · rfl
  · rw [bound?_of_getElem?_none (List.getElem?_eq_none (Nat.le_of_not_lt hs))]
    rcases Nat.eq_zero_or_pos (s - t.scopes.length) with h0 | h0
    · rw [h0]
      rfl
    · rw [List.getElem?_eq_none h0]
      rfl

theorem Lists.openScope {node : NodeId} (h : t.Lists ds)
    (hn : node ∉ t.regions.map (·.node)) : (t.openScope kind node p).2.Lists ds := by
  have hnode : ∀ s n, t.nodeOf? s = some n → (t.openScope kind node p).2.nodeOf? s = some n := by
    intro s n hs
    have hlt := lt_of_nodeOf? hs
    rw [nodeOf?_eq] at hs ⊢
    show ((t.scopes ++ [_])[s]?).map _ = _
    rwa [List.getElem?_append_left hlt]
  refine ⟨?_, fun s x c => ?_, fun c C hC => ?_, fun d hd => ?_, h.declared, h.member,
    h.unresolved⟩
  · rw [regions, openScope_skeleton, List.map_append, List.map_append]
    exact List.nodup_append'.2 ⟨h.nodup, List.nodup_singleton _,
      List.disjoint_singleton.2 hn⟩
  · rw [openScope_bound?]
    exact h.bound_iff s x c
  · obtain ⟨n, hn, hf⟩ := h.first c C hC
    exact ⟨n, hnode _ _ hn, hf⟩
  · obtain ⟨c, C, hl, hC, hn, hx⟩ := h.complete d hd
    exact ⟨c, C, hl, hC, hnode _ _ hn, hx⟩

end ScopeTable
end JsxLint
