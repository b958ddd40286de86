import JsxLint.Proofs.Scope.Books
import JsxLint.Proofs.Scope.Rename
import JsxLint.Proofs.Scope.Renamed

/-!
# Tables up to the order of names

A scope lists its names in the order in which they came. A binding that gets another name comes to
the end of the names of its scope, where a table that is made afresh has it in its place; nothing
that is asked of a table depends on that.

* `ScopeTable.Reordered`: tables that differ in the order of names only;
* `ScopeTable.Reordered.bound?`, `lookup?`: what is asked of them;
* `ScopeTable.rename_reordered`: the two ways to rename a binding.
-/

namespace JsxLint

namespace ScopeTable

variable {t t' t'' : ScopeTable} {ds : List Declaration} {ss ss' : List ScopeId} {s : ScopeId}
  {b : BindingId} {x y : String} {B : Binding}

/-- Whether no scope lists a name twice. -/
def Distinct (t : ScopeTable) : Prop :=
  ∀ scope ∈ t.scopes, (scope.names.map (·.1)).Nodup

/-- Whether two tables differ at most in the order of the names in some scopes. -/
structure Reordered (ss : List ScopeId) (t t' : ScopeTable) : Prop where
  skeleton : t'.skeleton = t.skeleton
  names : ∀ (s : ScopeId) (S S' : Scope), t.scopes[s]? = some S → t'.scopes[s]? = some S' →
    S'.names.Perm S.names ∧ (s ∉ ss → S'.names = S.names)
  bindings : t'.bindings = t.bindings
  declared : t'.declared = t.declared
  referring : t'.referring = t.referring
  usedIn : t'.usedIn = t.usedIn
  unresolved : t'.unresolved = t.unresolved

theorem Reordered.refl (t : ScopeTable) : Reordered [] t t where
  skeleton := rfl
  names s S S' hS hS' := by
    rw [hS] at hS'
    cases hS'
    exact ⟨.refl _, fun _ => rfl⟩
  bindings := rfl
  declared := rfl
  referring := rfl
  usedIn := rfl
  unresolved := rfl

theorem Reordered.symm (h : Reordered ss t t') : Reordered ss t' t where
  skeleton := h.skeleton.symm
  names s S S' hS hS' := by
    obtain ⟨hp, hn⟩ := h.names s S' S hS' hS
    exact ⟨hp.symm, fun hs => (hn hs).symm⟩
  bindings := h.bindings.symm
  declared := h.declared.symm
  referring := h.referring.symm
  usedIn := h.usedIn.symm
  unresolved := h.unresolved.symm

/-- The order of names does not matter for what identifiers belong to. -/
theorem Reordered.declaration? (h : Reordered ss t t') (i : NodeId) :
    t'.declaration? i = t.declaration? i := by
  have hat : t'.declarationAt? = t.declarationAt? := by
    funext b
    rw [declarationAt?, declarationAt?, h.bindings]
  rw [ScopeTable.declaration?, ScopeTable.declaration?, bindingOf?, bindingOf?, h.declared,
    h.referring, hat]

/-- Tables with the same skeleton have the same scopes but for the names. -/
theorem exists_scope_of_skeleton (h : t'.skeleton = t.skeleton) {S : Scope}
    (hS : t.scopes[s]? = some S) : ∃ S' : Scope, t'.scopes[s]? = some S' ∧ S'.node = S.node := by
  have hnode := nodeOf?_congr h s
  rw [nodeOf?_eq, nodeOf?_eq, hS] at hnode
  obtain ⟨S', hS', hn⟩ := Option.map_eq_some_iff.1 hnode
  exact ⟨S', hS', hn⟩

theorem Reordered.trans (h : Reordered ss t t') (h' : Reordered ss' t' t'') :
    Reordered (ss' ++ ss) t t'' where
  skeleton := h'.skeleton.trans h.skeleton
  names s S S'' hS hS'' := by
    obtain ⟨S', hS', -⟩ := exists_scope_of_skeleton h.skeleton hS
    obtain ⟨hp, hn⟩ := h.names s S S' hS hS'
    obtain ⟨hp', hn'⟩ := h'.names s S' S'' hS' hS''
    refine ⟨hp'.trans hp, fun hs => ?_⟩
    rw [List.mem_append, not_or] at hs
    exact (hn' hs.1).trans (hn hs.2)
  bindings := h'.bindings.trans h.bindings
  declared := h'.declared.trans h.declared
  referring := h'.referring.trans h.referring
  usedIn := h'.usedIn.trans h.usedIn
  unresolved := h'.unresolved.trans h.unresolved

theorem lookup_perm {names names' : List (String × BindingId)} (hp : names'.Perm names)
    (hd : (names.map (·.1)).Nodup) (x : String) : names'.lookup x = names.lookup x := by
  have hd' : (names'.map (·.1)).Nodup := (hp.map _).nodup_iff.2 hd
  apply Option.ext
  intro b
  constructor
  · intro h
    exact lookup_of_mem hd (hp.mem_iff.1 (mem_of_lookup h))
  · intro h
    exact lookup_of_mem hd' (hp.mem_iff.2 (mem_of_lookup h))

section Reordered

variable (h : Reordered ss t t') (hd : t.Distinct)

include h hd

theorem Reordered.distinct : t'.Distinct := by
  intro S' hS'
  obtain ⟨s, hs'⟩ := List.mem_iff_getElem?.1 hS'
  obtain ⟨S, hs, -⟩ := exists_scope_of_skeleton h.skeleton.symm hs'
  exact ((h.names s S S' hs hs').1.map _).nodup_iff.2 (hd S (List.mem_of_getElem? hs))

/-- The order of names does not matter for what a scope binds. -/
theorem Reordered.bound? (s : ScopeId) (x : String) : t'.bound? s x = t.bound? s x := by
  rw [ScopeTable.bound?, ScopeTable.bound?]
  cases hs : t.scopes[s]? with
  | some S =>
    obtain ⟨S', hs', -⟩ := exists_scope_of_skeleton h.skeleton hs
    rw [hs']
    exact lookup_perm (h.names s S S' hs hs').1 (hd S (List.mem_of_getElem? hs)) x
  | none =>
    cases hs' : t'.scopes[s]? with
    | none => rfl
    | some S' =>
      obtain ⟨S, hS, -⟩ := exists_scope_of_skeleton h.skeleton.symm hs'
      rw [hs] at hS
      cases hS

theorem Reordered.lookup? (s : ScopeId) (x : String) : t'.lookup? s x = t.lookup? s x := by
  rw [ScopeTable.lookup?, ScopeTable.lookup?, chain_congr h.skeleton]
  simp only [h.bound? hd]

end Reordered

/-! ### Another name for a binding -/

/-- A name that is not there yet comes to the end. -/
theorem putName_dropName {names : List (String × BindingId)} (hy : names.lookup y = none) :
    putName y b (dropName x names) = dropName x names ++ [(y, b)] := by
  apply putName_of_lookup
  rw [lookup_dropName, hy]
  split_ifs <;> rfl

/-- The names of a scope when the name of a binding in it is another one. -/
theorem renamed_perm {names : List (String × BindingId)} (hd : (names.map (·.1)).Nodup)
    (hx : names.lookup x = some b) (hy : names.lookup y = none) :
    (names.map fun e => (if e.1 = x then y else e.1, e.2)).Perm
      (putName y b (dropName x names)) := by
  rw [putName_dropName hy]
  induction names with
  | nil => cases hx
  | cons e names ih =>
    obtain ⟨z, c⟩ := e
    rw [List.map_cons, List.nodup_cons] at hd
    rw [lookup_eq_none_iff, List.forall_mem_cons, ← lookup_eq_none_iff] at hy
    rw [lookup_cons_if] at hx
    by_cases hz : z = x
    · subst hz
      rw [if_pos rfl, Option.some.injEq] at hx
      subst hx
      have hother : ∀ e ∈ names, e.1 ≠ z := fun e he hez =>
        hd.1 (List.mem_map.2 ⟨e, he, hez⟩)
      have hmap : (names.map fun e => (if e.1 = z then y else e.1, e.2)) = names := by
        refine (List.map_congr_left fun e he => ?_).trans (List.map_id' _)
        rw [if_neg (hother e he)]
      have hdrop : dropName z ((z, c) :: names) = names := by
        rw [dropName, List.filter_cons_of_neg (by simp)]
        exact List.filter_eq_self.2 fun e he => by simpa using hother e he
      rw [List.map_cons, hmap, hdrop, if_pos rfl]
      exact (List.perm_append_singleton _ _).symm
    · have hdrop : dropName x ((z, c) :: names) = (z, c) :: dropName x names := by
        rw [dropName, List.filter_cons_of_pos (by simpa using hz)]
        rfl
      rw [List.map_cons, if_neg hz, hdrop]
      rw [if_neg fun hxz => hz hxz.symm] at hx
      exact (ih hd.2 hx hy.2).cons _

/-- The names of a scope when one name in the scope of a node is another one. -/
def nameIn (n : NodeId) (x y : String) (m : NodeId) (z : String) : String :=
  if m = n ∧ z = x then y else z

section Rename

variable (h : t.Lists ds) (hd : t.Distinct) (hb : t.bindings[b]? = some B)
  (hy : t.bound? B.scope y = none) {n : NodeId} (hn : t.nodeOf? B.scope = some n)

include h hb hn

theorem newName_eq {e : Declaration} (he : e ∈ ds) :
    t.newName b y e.identifier e.name = nameIn n B.name y e.scope e.name := by
  have hiff := h.bindingOf?_iff hb he
  rw [hn, Option.some.injEq] at hiff
  rw [newName, nameIn]
  exact if_congr (hiff.trans (and_congr eq_comm eq_comm)) rfl rfl

include hy

/-- The names of a scope stay apart when a binding gets a name that its scope does not have. -/
theorem renaming_newName : Renaming ds (t.newName b y) (nameIn n B.name y) := by
  have hfree : ∀ e ∈ ds, ¬(e.scope = n ∧ e.name = y) := by
    rintro e he ⟨rfl, rfl⟩
    have hsome := firstDeclaration_isSome he
    rw [← h.bound?_bind hn, hy] at hsome
    cases hsome
  refine ⟨fun e he => newName_eq h hb hn he, fun d hd e he hs heq => ?_⟩
  rw [nameIn, nameIn] at heq
  split_ifs at heq with hdx hex hex
  · exact hdx.2.trans hex.2.symm
  · exact absurd ⟨hdx.1, heq.symm⟩ (hfree e he)
  · exact absurd ⟨hs.trans hex.1, heq⟩ (hfree d hd)
  · exact heq

include hd

/-- The two ways to rename a binding differ at most in the order of the names of its scope. -/
theorem rename_reordered :
    Reordered [B.scope] (t.rename b B y) (t.mapNames (t.newName b y) (nameIn n B.name y)) := by
  refine ⟨(skeleton_mapNames t).trans (rename_skeleton t b B y).symm, fun s S' S'' hS' hS'' => ?_,
    ?_, rfl, rfl, rfl, rfl⟩
  · rw [ScopeTable.rename, List.getElem?_modify] at hS'
    rw [mapNames, List.getElem?_map] at hS''
    obtain ⟨S, hS, rfl⟩ := Option.map_eq_some_iff.1 hS'
    rw [hS] at hS''
    cases hS''
    by_cases hs : B.scope = s
    · subst hs
      have hnode : S.node = n := by
        rw [nodeOf?_eq, hS] at hn
        exact Option.some.inj hn
      have hself := h.bound?_self hb
      rw [ScopeTable.bound?, hS, Option.bind_some] at hself hy
      have hperm := renamed_perm (hd S (List.mem_of_getElem? hS)) hself hy
      simp only [Scope.mapNames, nameIn, hnode, if_true, true_and]
      exact ⟨hperm, fun hs => absurd List.mem_cons_self hs⟩
    · have hnode : S.node ≠ n := by
        rintro rfl
        apply hs
        apply h.scope_eq hn
        rw [nodeOf?_eq, hS]
        rfl
      have hsame : (S.mapNames (nameIn n B.name y)).names = S.names := by
        simp [Scope.mapNames, nameIn, hnode]
      rw [if_neg hs, hsame]
      exact ⟨.refl _, fun _ => rfl⟩
  · apply List.ext_getElem?
    intro c
    rw [rename_bindings, mapNames, List.getElem?_map]
    cases hC : t.bindings[c]? with
    | none => rfl
    | some C =>
      have hof : t.bindingOf? C.declaration = some c := (h.member _ _).2 ⟨C, hC, .inl rfl⟩
      rw [Option.map_some, Option.map_some, Binding.mapName, newName, hof]
      by_cases hcb : b = c
      · rw [if_pos hcb, if_pos (congrArg some hcb.symm)]
      · rw [if_neg hcb, if_neg fun he => hcb (Option.some.inj he).symm]

end Rename

/-- Renaming a binding keeps names apart. -/
theorem Distinct.rename (hd : t.Distinct) (hb : t.bound? B.scope y = none) :
    (t.rename b B y).Distinct := by
  intro S' hS'
  obtain ⟨s, hs⟩ := List.mem_iff_getElem?.1 hS'
  rw [ScopeTable.rename, List.getElem?_modify] at hs
  obtain ⟨S, hS, rfl⟩ := Option.map_eq_some_iff.1 hs
  have hkeys := hd S (List.mem_of_getElem? hS)
  split_ifs with hsc
  · subst hsc
    rw [ScopeTable.bound?, hS, Option.bind_some] at hb
    dsimp only
    rw [putName_dropName hb, List.map_append]
    refine List.nodup_append'.2 ⟨?_, List.nodup_singleton _, List.disjoint_singleton.2 ?_⟩
    · exact (List.filter_sublist.map _).nodup hkeys
    · intro hm
      obtain ⟨e, he, hey⟩ := List.mem_map.1 hm
      exact lookup_eq_none_iff.1 hb e (List.mem_filter.1 he).1 hey
  · exact hkeys

/-- Renaming a binding does not depend on the order of names. -/
theorem Reordered.rename (h : Reordered ss t t') (b : BindingId) (B : Binding) (y : String)
    (hy : t.bound? B.scope y = none) (hd : t.Distinct) :
    Reordered ss (t.rename b B y) (t'.rename b B y) := by
  have hy' := (h.bound? hd B.scope y).trans hy
  refine ⟨?_, fun s R R' hR hR' => ?_, ?_, h.declared, h.referring, h.usedIn, h.unresolved⟩
  · rw [rename_skeleton, rename_skeleton, h.skeleton]
  · rw [ScopeTable.rename, List.getElem?_modify] at hR hR'
    obtain ⟨S, hS, rfl⟩ := Option.map_eq_some_iff.1 hR
    obtain ⟨S', hS', rfl⟩ := Option.map_eq_some_iff.1 hR'
    obtain ⟨hp, hsame⟩ := h.names s S S' hS hS'
    split_ifs with hs
    · subst hs
      rw [ScopeTable.bound?, hS, Option.bind_some] at hy
      rw [ScopeTable.bound?, hS', Option.bind_some] at hy'
      refine ⟨?_, fun hs => ?_⟩
      · dsimp only
        rw [putName_dropName hy, putName_dropName hy']
        exact (hp.filter _).append_right _
      · dsimp only
        rw [hsame hs]
    · exact ⟨hp, hsame⟩
  · rw [ScopeTable.rename, ScopeTable.rename, h.bindings]

end ScopeTable
end JsxLint
