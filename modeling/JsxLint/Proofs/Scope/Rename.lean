import JsxLint.Proofs.Scope.Resolution
import JsxLint.Scope.Workspace

/-!
# Renamed bindings in a table

A table in which a binding has another name lists the declarations with that name, and a use finds
the same binding as before unless a scope on its way out binds one of the two names.

* `ScopeTable.rename`: another name for a binding;
* `ScopeTable.Lists.rename`: the declarations under the name;
* `ScopeTable.lookup?_rename`, …: what uses find.
-/

namespace JsxLint

section Declarations

variable {ds : List Declaration} {g : NodeId → String → String} {scope scope' : NodeId}
  {name name' : String}

/-- Renamed declarations of a name are those of another name that the renaming maps to it. -/
theorem firstDeclaration_map (h : ∀ d ∈ ds, d.scope = scope ∧ g d.identifier d.name = name ↔
    d.scope = scope' ∧ d.name = name') :
    firstDeclaration (ds.map (·.map g)) scope name = firstDeclaration ds scope' name' := by
  rw [firstDeclaration, firstDeclaration]
  induction ds with
  | nil => rfl
  | cons d ds ih =>
    have hd := h d List.mem_cons_self
    have hrest := ih fun e he => h e (List.mem_cons_of_mem _ he)
    rw [List.map_cons, List.find?_cons, List.find?_cons]
    by_cases hp : d.scope = scope' ∧ d.name = name'
    · have hp' : ((d.map g).scope == scope && (d.map g).name == name) = true := by
        simpa [Declaration.map] using hd.2 hp
      have hp : (d.scope == scope' && d.name == name') = true := by simpa using hp
      rw [hp, hp']
      rfl
    · have hp' : ((d.map g).scope == scope && (d.map g).name == name) = false := by
        simpa [Declaration.map] using mt hd.1 hp
      have hp : (d.scope == scope' && d.name == name') = false := by simpa using hp
      rw [hp, hp']
      exact hrest

theorem firstDeclaration_eq_none
    (h : ∀ d ∈ ds, ¬(d.scope = scope ∧ d.name = name)) : firstDeclaration ds scope name = none := by
  cases hf : firstDeclaration ds scope name with
  | none => rfl
  | some i =>
    obtain ⟨d, hd, hs, hn, -⟩ := exists_of_firstDeclaration hf
    exact absurd ⟨hs, hn⟩ (h d hd)

end Declarations

namespace ScopeTable

variable {t : ScopeTable} {ds : List Declaration} {s r : ScopeId} {b c : BindingId} {i : NodeId}
  {x y : String} {B : Binding}

/-- A table in which a binding has another name. -/
def rename (t : ScopeTable) (b : BindingId) (B : Binding) (y : String) : ScopeTable :=
  { t with
    scopes := t.scopes.modify B.scope fun scope =>
      { scope with names := putName y b (dropName B.name scope.names) }
    bindings := t.bindings.modify b fun binding => { binding with name := y } }

/-- The names of identifiers when a binding has another one. -/
def newName (t : ScopeTable) (b : BindingId) (y : String) (i : NodeId) (x : String) : String :=
  if t.bindingOf? i = some b then y else x

theorem rename_skeleton (t : ScopeTable) (b : BindingId) (B : Binding) (y : String) :
    (t.rename b B y).skeleton = t.skeleton := by
  refine List.ext_getElem? fun n => ?_
  rw [skeleton, skeleton, List.getElem?_map, List.getElem?_map, rename, List.getElem?_modify]
  cases t.scopes[n]? with
  | none => rfl
  | some scope =>
    dsimp only [Option.map_some]
    split_ifs <;> rfl

theorem rename_bound? (hs : B.scope < t.scopes.length) (r : ScopeId) (x : String) :
    (t.rename b B y).bound? r x =
      if r = B.scope then if x = y then some b else if x = B.name then none else t.bound? r x
      else t.bound? r x := by
  rw [bound?, rename, List.getElem?_modify]
  by_cases hr : r = B.scope
  · subst hr
    rw [bound?, List.getElem?_eq_getElem hs]
    simp only [if_true, Option.map_eq_map, Option.map_some, Option.bind_some, lookup_putName,
      lookup_dropName]
  · simp only [Ne.symm hr, hr, if_false]
    cases hscope : t.scopes[r]? <;> rw [bound?, hscope] <;> rfl

theorem rename_bindings (t : ScopeTable) (b c : BindingId) (B : Binding) (y : String) :
    (t.rename b B y).bindings[c]? =
      (t.bindings[c]?).map fun C => if b = c then { C with name := y } else C := by
  rw [rename, List.getElem?_modify]
  rfl

/-- The bindings when one of them has another name. -/
theorem rename_getElem?_iff (hb : t.bindings[b]? = some B) {c : BindingId} {C : Binding} :
    (t.rename b B y).bindings[c]? = some C ↔
      c = b ∧ { B with name := y } = C ∨ c ≠ b ∧ t.bindings[c]? = some C := by
  rw [rename_bindings]
  by_cases hc : c = b
  · subst hc
    rw [hb, Option.map_some, if_pos rfl]
    simp
  · simp [Ne.symm hc, hc]

theorem rename_getElem?_self (hb : t.bindings[b]? = some B) :
    (t.rename b B y).bindings[b]? = some { B with name := y } :=
  (rename_getElem?_iff hb).2 (.inl ⟨rfl, rfl⟩)

theorem rename_getElem?_of_ne (hb : t.bindings[b]? = some B) {C : Binding} (hcb : c ≠ b)
    (hC : t.bindings[c]? = some C) : (t.rename b B y).bindings[c]? = some C :=
  (rename_getElem?_iff hb).2 (.inr ⟨hcb, hC⟩)

section Rename

variable (h : t.Lists ds) (hb : t.bindings[b]? = some B) (hy : t.bound? B.scope y = none)

include h hb

theorem Lists.bound?_self : t.bound? B.scope B.name = some b :=
  (h.bound_iff _ _ _).2 ⟨B, hb, rfl, rfl⟩

/-- The declaring identifiers of a binding are those that declare its name in its scope. -/
theorem Lists.bindingOf?_iff {d : Declaration} (hd : d ∈ ds) :
    t.bindingOf? d.identifier = some b ↔ t.nodeOf? B.scope = some d.scope ∧ B.name = d.name := by
  obtain ⟨c, C, hl, hC, hn, hname⟩ := h.complete d hd
  rw [bindingOf?_of_declared hl]
  constructor
  · intro hc
    cases hc
    rw [hb] at hC
    cases hC
    exact ⟨hn, hname⟩
  · rintro ⟨hnode, hx⟩
    have hself := h.bound?_self hb
    rw [← h.scope_eq hn hnode, hx, ← hname, (h.bound_iff _ _ c).2 ⟨C, hC, rfl, rfl⟩] at hself
    exact hself

/-- A binding is told by its scope and its name. -/
theorem Lists.binding_eq {C : Binding} (hc : t.bindings[c]? = some C) (hs : C.scope = B.scope)
    (hn : C.name = B.name) : c = b := by
  have hself := h.bound?_self hb
  rw [← hs, ← hn, h.bound?_self hc] at hself
  exact Option.some.inj hself

theorem lookup?_rename (x : String) : (t.rename b B y).lookup? s x =
    (t.chain s).findSome? fun r =>
      if r = B.scope then if x = y then some b else if x = B.name then none else t.bound? r x
      else t.bound? r x := by
  obtain ⟨n, hn, -⟩ := h.first b B hb
  rw [lookup?, chain_congr (rename_skeleton t b B y)]
  congr 1
  funext r
  exact rename_bound? (lt_of_nodeOf? hn) r x

/-- An identifier of the binding finds it under the name unless the name is bound further in. -/
theorem lookup?_rename_self (hl : t.lookup? s B.name = some b)
    (hshadow : ∀ r ∈ (t.chain s).takeWhile (· != B.scope), t.bound? r y = none) :
    (t.rename b B y).lookup? s y = some b := by
  have hself := h.bound?_self hb
  rw [lookup?_rename h hb]
  rw [lookup?] at hl
  generalize t.chain s = rs at *
  induction rs with
  | nil => cases hl
  | cons r rs ih =>
    rw [List.findSome?_cons] at hl ⊢
    by_cases hr : r = B.scope
    · rw [if_pos hr, if_pos rfl]
    · have htake : (r :: rs).takeWhile (· != B.scope) = r :: rs.takeWhile (· != B.scope) := by
        rw [List.takeWhile_cons, if_pos (bne_iff_ne.2 hr)]
      rw [htake] at hshadow
      rw [if_neg hr, hshadow r List.mem_cons_self]
      have hnone : t.bound? r B.name = none := by
        cases hc : t.bound? r B.name with
        | none => rfl
        | some c =>
          rw [hc] at hl
          cases hl
          obtain ⟨C, hC, hs, -⟩ := (h.bound_iff _ _ _).1 hc
          rw [hb] at hC
          cases hC
          exact absurd hs.symm hr
      rw [hnone] at hl
      exact ih hl fun q hq => hshadow q (List.mem_cons_of_mem _ hq)

/-- Another identifier finds what it found before, when it uses another name. -/
theorem lookup?_rename_other (hl : t.lookup? s x ≠ some b) (hx : x ≠ y) :
    (t.rename b B y).lookup? s x = t.lookup? s x := by
  have hself := h.bound?_self hb
  rw [lookup?_rename h hb]
  rw [lookup?] at hl ⊢
  generalize t.chain s = rs at *
  induction rs with
  | nil => rfl
  | cons r rs ih =>
    rw [List.findSome?_cons] at hl
    rw [List.findSome?_cons, List.findSome?_cons]
    by_cases hr : r = B.scope
    · by_cases hxB : x = B.name
      · rw [hr, hxB, hself] at hl
        exact absurd rfl hl
      · rw [if_pos hr, if_neg hx, if_neg hxB]
        cases hc : t.bound? r x with
        | some c => rfl
        | none =>
          rw [hc] at hl
          exact ih hl
    · rw [if_neg hr]
      cases hc : t.bound? r x with
      | some c => rfl
      | none =>
        rw [hc] at hl
        exact ih hl

/-- An unresolved identifier that uses the new name stays unresolved when it is outside the scope of
the renamed binding. -/
theorem lookup?_rename_global (hl : t.lookup? s y = none) (hout : B.scope ∉ t.chain s) :
    (t.rename b B y).lookup? s y = none := by
  rw [lookup?_rename h hb]
  rw [lookup?, List.findSome?_eq_none_iff] at hl
  refine List.findSome?_eq_none_iff.2 fun r hr => ?_
  rw [if_neg fun he : r = B.scope => hout (he ▸ hr)]
  exact hl r hr

include hy

theorem Lists.name_ne : B.name ≠ y := by
  rintro rfl
  rw [h.bound?_self hb] at hy
  cases hy

/-- The first declarations in a scope when a binding has another name. -/
theorem Lists.firstDeclaration_rename {n : NodeId} (hn : t.nodeOf? B.scope = some n) (m : NodeId)
    (x : String) : firstDeclaration (ds.map (·.map (t.newName b y))) m x =
      if m = n then if x = y then firstDeclaration ds n B.name else
        if x = B.name then none else firstDeclaration ds m x
      else firstDeclaration ds m x := by
  have hne := h.name_ne hb hy
  have hiff : ∀ d ∈ ds, t.newName b y d.identifier d.name =
      if d.scope = n ∧ d.name = B.name then y else d.name := by
    intro d hd
    rw [newName]
    congr 1
    rw [h.bindingOf?_iff hb hd, hn, Option.some.injEq]
    exact propext ⟨fun ⟨h1, h2⟩ => ⟨h1.symm, h2.symm⟩, fun ⟨h1, h2⟩ => ⟨h1.symm, h2.symm⟩⟩
  have hnew : ∀ d ∈ ds, ¬(d.scope = n ∧ d.name = y) := by
    rintro d hd ⟨rfl, rfl⟩
    have hsome := firstDeclaration_isSome hd
    rw [← h.bound?_bind hn, hy] at hsome
    cases hsome
  split_ifs with hm hxy hxB
  · subst hm hxy
    refine firstDeclaration_map fun d hd => ?_
    rw [hiff d hd]
    split_ifs with hself
    · exact ⟨fun _ => hself, fun _ => ⟨hself.1, rfl⟩⟩
    · exact ⟨fun hd' => absurd hd' (hnew d hd), fun hd' => absurd hd' hself⟩
  · subst hm hxB
    refine firstDeclaration_eq_none fun d' hd' => ?_
    obtain ⟨d, hd, rfl⟩ := List.mem_map.1 hd'
    rintro ⟨hs, hx⟩
    change t.newName b y d.identifier d.name = B.name at hx
    rw [hiff d hd] at hx
    split_ifs at hx with hself
    · exact hne hx.symm
    · exact hself ⟨hs, hx⟩
  · subst hm
    refine firstDeclaration_map fun d hd => ?_
    rw [hiff d hd]
    split_ifs with hself
    · exact ⟨fun hd' => absurd hd'.2.symm hxy, fun hd' => absurd (hd'.2.symm.trans hself.2) hxB⟩
    · exact Iff.rfl
  · refine firstDeclaration_map fun d hd => ?_
    rw [hiff d hd]
    split_ifs with hself
    · exact ⟨fun hd' => absurd (hd'.1.symm.trans hself.1) hm,
        fun hd' => absurd (hd'.1.symm.trans hself.1) hm⟩
    · exact Iff.rfl

/-- Under a name of a scope stands the binding of that name, with another name for one of them. -/
theorem Lists.bound_iff_rename (s : ScopeId) (x : String) (c : BindingId) :
    (t.rename b B y).bound? s x = some c ↔
      ∃ C : Binding, (t.rename b B y).bindings[c]? = some C ∧ C.scope = s ∧ C.name = x := by
  obtain ⟨n, hn, -⟩ := h.first b B hb
  have hkept : t.bound? s x = some c → (B.scope = s → B.name ≠ x) →
      ∃ C : Binding, (t.rename b B y).bindings[c]? = some C ∧ C.scope = s ∧ C.name = x := by
    intro hc hne
    obtain ⟨C, hC, rfl, rfl⟩ := (h.bound_iff s x c).1 hc
    refine ⟨C, rename_getElem?_of_ne hb ?_ hC, rfl, rfl⟩
    rintro rfl
    rw [hb] at hC
    cases hC
    exact hne rfl rfl
  rw [rename_bound? (lt_of_nodeOf? hn)]
  constructor
  · intro hc
    split_ifs at hc with hs hxy hxB
    · cases hc
      exact ⟨_, rename_getElem?_self hb, hs.symm, hxy.symm⟩
    · exact hkept hc fun _ he => hxB he.symm
    · exact hkept hc fun he => absurd he.symm hs
  · rintro ⟨C, hC, rfl, rfl⟩
    rcases (rename_getElem?_iff hb).1 hC with ⟨rfl, rfl⟩ | ⟨hcb, hC⟩
    · rw [if_pos rfl, if_pos rfl]
    · have hbound := h.bound?_self hC
      split_ifs with hs hxy hxB
      · rw [hs, hxy, hy] at hbound
        cases hbound
      · exact absurd (h.binding_eq hb hC hs hxB) hcb
      · exact hbound
      · exact hbound

/-- Bindings stand for the first declarations of their names, with another name for one of them. -/
theorem Lists.first_rename {C : Binding} (hC : (t.rename b B y).bindings[c]? = some C) :
    ∃ n, t.nodeOf? C.scope = some n ∧
      firstDeclaration (ds.map (·.map (t.newName b y))) n C.name = some C.declaration := by
  obtain ⟨n, hn, hfirst⟩ := h.first b B hb
  rcases (rename_getElem?_iff hb).1 hC with ⟨rfl, rfl⟩ | ⟨hcb, hC⟩
  · refine ⟨n, hn, ?_⟩
    rw [h.firstDeclaration_rename hb hy hn, if_pos rfl, if_pos rfl]
    exact hfirst
  · obtain ⟨m, hm, hf⟩ := h.first c C hC
    refine ⟨m, hm, ?_⟩
    rw [h.firstDeclaration_rename hb hy hn]
    split_ifs with hmn hxy hxB
    · subst hmn
      have hbound := h.bound?_self hC
      rw [h.scope_eq hm hn, hxy, hy] at hbound
      cases hbound
    · subst hmn
      exact absurd (h.binding_eq hb hC (h.scope_eq hm hn) hxB) hcb
    · exact hf
    · exact hf

omit hy in
/-- A declaration has its binding still, and both have another name or neither has. -/
theorem Lists.complete_rename {d : Declaration} (hd : d ∈ ds) :
    ∃ (c : BindingId) (C : Binding), t.declared.lookup d.identifier = some c ∧
      (t.rename b B y).bindings[c]? = some C ∧ t.nodeOf? C.scope = some d.scope ∧
        C.name = t.newName b y d.identifier d.name := by
  obtain ⟨c, C, hl, hC, hm, hname⟩ := h.complete d hd
  rw [newName, bindingOf?_of_declared hl]
  by_cases hcb : c = b
  · subst hcb
    rw [hb] at hC
    cases hC
    exact ⟨c, _, hl, rename_getElem?_self hb, hm, (if_pos rfl).symm⟩
  · refine ⟨c, C, hl, rename_getElem?_of_ne hb hcb hC, hm, hname.trans (if_neg ?_).symm⟩
    exact fun he => hcb (Option.some.inj he)

omit h hy in
/-- A binding has the identifiers that it had, with another name for one of them. -/
theorem exists_binding_rename_iff {i : NodeId} :
    (∃ C : Binding, (t.rename b B y).bindings[c]? = some C ∧
      (i = C.declaration ∨ i ∈ C.references)) ↔
    ∃ C : Binding, t.bindings[c]? = some C ∧ (i = C.declaration ∨ i ∈ C.references) := by
  constructor
  · rintro ⟨C, hC, hm⟩
    rcases (rename_getElem?_iff hb).1 hC with ⟨rfl, rfl⟩ | ⟨-, hC⟩
    · exact ⟨B, hb, hm⟩
    · exact ⟨C, hC, hm⟩
  · rintro ⟨C, hC, hm⟩
    by_cases hcb : c = b
    · subst hcb
      rw [hb] at hC
      cases hC
      exact ⟨_, rename_getElem?_self hb, hm⟩
    · exact ⟨C, rename_getElem?_of_ne hb hcb hC, hm⟩

/-- A table in which a binding has another name lists the declarations under that name. -/
theorem Lists.rename : (t.rename b B y).Lists (ds.map (·.map (t.newName b y))) := by
  have hskeleton := rename_skeleton t b B y
  have hnode := nodeOf?_congr hskeleton
  refine ⟨?_, h.bound_iff_rename hb hy, fun c C hC => ?_, fun d' hd' => ?_, fun i hi => ?_,
    fun i c => (h.member i c).trans (exists_binding_rename_iff hb).symm, h.unresolved⟩
  · rw [regions, hskeleton]
    exact h.nodup
  · obtain ⟨n, hn, hfirst⟩ := h.first_rename hb hy hC
    exact ⟨n, (hnode _).trans hn, hfirst⟩
  · obtain ⟨d, hd, rfl⟩ := List.mem_map.1 hd'
    obtain ⟨c, C, hl, hC, hm, hname⟩ := h.complete_rename hb hd
    exact ⟨c, C, hl, hC, (hnode _).trans hm, hname⟩
  · obtain ⟨d, hd, rfl⟩ := h.declared i hi
    exact ⟨_, List.mem_map_of_mem hd, rfl⟩

/-- An identifier that uses the new name finds the binding that it found before, unless the renamed
one is in a scope further in. -/
theorem lookup?_rename_captured {o : BindingId} {O : Binding} (hl : t.lookup? s y = some o)
    (ho : t.bindings[o]? = some O) (hcaptured : ∀ r,
      (t.chain s).find? (fun r => some r == some O.scope || r == B.scope) = some r → r = O.scope) :
    (t.rename b B y).lookup? s y = some o := by
  have hbound := h.bound?_self ho
  rw [h.name_of_lookup? hl ho] at hbound
  rw [lookup?_rename h hb]
  rw [lookup?] at hl
  generalize t.chain s = rs at *
  induction rs with
  | nil => cases hl
  | cons r rs ih =>
    rw [List.findSome?_cons] at hl ⊢
    rw [List.find?_cons] at hcaptured
    by_cases hr : r = B.scope
    · have hcond : (some r == some O.scope || r == B.scope) = true := by simp [hr]
      rw [hcond] at hcaptured
      rw [← hcaptured r rfl, hr, hy] at hbound
      cases hbound
    · rw [if_neg hr]
      cases hc : t.bound? r y with
      | some c =>
        rw [hc] at hl
        exact hl
      | none =>
        rw [hc] at hl
        refine ih hl fun q hq => hcaptured q ?_
        have hcond : (some r == some O.scope || r == B.scope) = false := by
          simp only [Bool.or_eq_false_iff, beq_eq_false_iff_ne, ne_eq, Option.some.injEq]
          refine ⟨?_, hr⟩
          rintro rfl
          rw [hc] at hbound
          cases hbound
        rw [hcond]
        exact hq

end Rename

end ScopeTable
end JsxLint
