import JsxLint.Proofs.Scope.Resolution

/-!
# The books of a scope table

A scope table is filled by entries, one for each identifier that is declared, refers to a binding or
stays unresolved. Whatever the entries, a name stands once in a scope, and the identifiers in the
books of a table are those of its entries.

* `ScopeTable.account`: the identifiers in the books of a table;
* `ScopeTable.Filled`: the tables that entries make;
* `ScopeTable.Filled.kept`: what every entry keeps;
* `ScopeTable.resolve_filled`: the entries that resolve the names of a tree;
* `ScopeTable.resolve_once`: every identifier of a tree is entered once.
-/

namespace JsxLint

/-! ### Names of a scope -/

theorem keys_putName (x : String) (b : BindingId) (names : List (String × BindingId)) :
    (putName x b names).map (·.1) =
      if x ∈ names.map (·.1) then names.map (·.1) else names.map (·.1) ++ [x] := by
  induction names with
  | nil => rfl
  | cons e names ih =>
    obtain ⟨n, c⟩ := e
    rw [putName]
    split_ifs with hn hx hx <;> simp_all [eq_comm]

theorem mem_putName {x : String} {b : BindingId} {e : String × BindingId}
    {names : List (String × BindingId)} (h : e ∈ putName x b names) : e ∈ names ∨ e.2 = b := by
  induction names with
  | nil =>
    cases List.mem_singleton.1 h
    exact .inr rfl
  | cons f names ih =>
    obtain ⟨n, c⟩ := f
    rw [putName] at h
    split_ifs at h
    · rcases List.mem_cons.1 h with rfl | h
      · exact .inr rfl
      · exact .inl (List.mem_cons_of_mem _ h)
    · rcases List.mem_cons.1 h with rfl | h
      · exact .inl List.mem_cons_self
      · exact (ih h).imp_left (List.mem_cons_of_mem _)

theorem mem_of_mem_modify {α : Type} {f : α → α} {l : List α} {n : Nat} {a : α}
    (h : a ∈ l.modify n f) : a ∈ l ∨ ∃ b ∈ l, a = f b := by
  obtain ⟨i, hi⟩ := List.mem_iff_getElem?.1 h
  rw [List.getElem?_modify] at hi
  obtain ⟨b, hb, rfl⟩ := Option.map_eq_some_iff.1 hi
  have hm := List.mem_of_getElem? hb
  split_ifs
  · exact .inr ⟨b, hm, rfl⟩
  · exact .inl hm

namespace ScopeTable

variable {t : ScopeTable} {s : ScopeId} {b : BindingId} {i : NodeId} {is : List NodeId} {x : String}
  {ds : List Declaration}

/-- The identifiers in the books of a table: those of each binding, then the unresolved ones. -/
def account (t : ScopeTable) : List NodeId :=
  (t.bindings.flatMap fun B => B.declaration :: B.references) ++ t.unresolved

/-- The tables that entries make, with the identifiers that were entered. -/
inductive Filled : ScopeTable → List NodeId → Prop
  | program (root : NodeId) : Filled (ofProgram root) []
  | openScope {t : ScopeTable} {is : List NodeId} (kind : ScopeKind) (node : NodeId) (p : ScopeId)
    (h : Filled t is) : Filled (t.openScope kind node p).2 is
  | declare {t : ScopeTable} {is : List NodeId} (s : ScopeId) (i : NodeId) (x word : String)
    (h : Filled t is) : Filled (t.declare s i x word).2 (is ++ [i])
  | refer {t : ScopeTable} {is : List NodeId} {s : ScopeId} {x : String} {b : BindingId} (i : NodeId)
    (h : Filled t is) (hb : t.lookup? s x = some b) : Filled (t.refer b i s) (is ++ [i])
  | addUnresolved {t : ScopeTable} {is : List NodeId} (i : NodeId) (h : Filled t is) :
    Filled (t.addUnresolved i) (is ++ [i])

/-! ### What every entry keeps -/

/-- What holds of every table that entries make. -/
structure Kept (t : ScopeTable) (is : List NodeId) : Prop where
  /-- No name stands twice in a scope. -/
  keys : ∀ scope ∈ t.scopes, (scope.names.map (·.1)).Nodup
  /-- Names stand for bindings of the table. -/
  range : ∀ scope ∈ t.scopes, ∀ e ∈ scope.names, e.2 < t.bindings.length
  account : t.account.Perm is

theorem Kept.lt_of_bound? (h : t.Kept is) (hb : t.bound? s x = some b) : b < t.bindings.length := by
  obtain ⟨scope, hs, hl⟩ := Option.bind_eq_some_iff.1 hb
  exact h.range scope (List.mem_of_getElem? hs) _ (mem_of_lookup hl)

/-- A reference puts one identifier into the books. -/
theorem account_addReference (hb : b < t.bindings.length) :
    (t.addReference b i s).account.Perm (t.account ++ [i]) := by
  obtain ⟨before, B, after, hsplit, -, hmodify⟩ := List.exists_of_modify
    (fun B : Binding => { B with references := B.references ++ [i] }) hb
  rw [account, account, addReference, hmodify, hsplit]
  refine List.perm_iff_count.2 fun j => ?_
  simp only [List.flatMap_append, List.flatMap_cons, List.count_append, List.count_cons,
    List.count_nil]
  omega

/-- A binding that is made puts its declaration into the books. -/
theorem account_declare_new (hb : t.bound? s x = none) (i : NodeId) (word : String) :
    (t.declare s i x word).2.account.Perm (t.account ++ [i]) := by
  have hbindings : (t.declare s i x word).2.bindings = t.bindings ++ [⟨x, word, i, s, []⟩] := by
    rw [declare, hb]
  rw [account, account, hbindings, declare_unresolved, List.flatMap_append, List.flatMap_singleton,
    List.append_assoc, List.append_assoc]
  exact List.perm_append_comm.append_left _

theorem Kept.declare (h : t.Kept is) (s : ScopeId) (i : NodeId) (x word : String) :
    (t.declare s i x word).2.Kept (is ++ [i]) := by
  cases hb : t.bound? s x with
  | some b =>
    have hlt := h.lt_of_bound? hb
    have haccount := (account_addReference (i := i) (s := s) hlt).trans (h.account.append_right [i])
    rw [ScopeTable.declare, hb]
    refine ⟨h.keys, fun scope hs e he => ?_, haccount⟩
    have hlength : (t.addReference b i s).bindings.length = t.bindings.length :=
      List.length_modify ..
    exact hlength ▸ h.range scope hs e he
  | none =>
    have haccount := (account_declare_new hb i word).trans (h.account.append_right [i])
    have hscopes : (t.declare s i x word).2.scopes =
        t.scopes.modify s fun scope =>
          { scope with names := putName x t.bindings.length scope.names } := by
      rw [ScopeTable.declare, hb]
    have hlength : (t.declare s i x word).2.bindings.length = t.bindings.length + 1 := by
      rw [ScopeTable.declare, hb]
      exact List.length_append
    refine ⟨fun scope hs => ?_, fun scope hs e he => ?_, haccount⟩ <;> rw [hscopes] at hs
    · rcases mem_of_mem_modify hs with hs | ⟨old, hold, rfl⟩
      · exact h.keys scope hs
      · rw [keys_putName]
        split_ifs with hx
        · exact h.keys old hold
        · exact List.nodup_append'.2 ⟨h.keys old hold, List.nodup_singleton _,
            List.disjoint_singleton.2 hx⟩
    · rw [hlength]
      rcases mem_of_mem_modify hs with hs | ⟨old, hold, rfl⟩
      · exact Nat.lt_succ_of_lt (h.range scope hs e he)
      · rcases mem_putName he with he | he
        · exact Nat.lt_succ_of_lt (h.range old hold e he)
        · rw [he]
          exact Nat.lt_succ_self _

theorem Kept.refer (h : t.Kept is) (i : NodeId) (hb : t.lookup? s x = some b) :
    (t.refer b i s).Kept (is ++ [i]) := by
  obtain ⟨r, -, hr⟩ := List.exists_of_findSome?_eq_some hb
  have hlt := h.lt_of_bound? hr
  refine ⟨h.keys, fun scope hs e he => ?_,
    (account_addReference (i := i) (s := s) hlt).trans (h.account.append_right [i])⟩
  have hlength : (t.refer b i s).bindings.length = t.bindings.length := List.length_modify ..
  exact hlength ▸ h.range scope hs e he

/-- What entries make keeps its names apart and has the entered identifiers in its books. -/
theorem Filled.kept (h : Filled t is) : t.Kept is := by
  induction h with
  | program root =>
    refine ⟨fun scope hs => ?_, fun scope hs e he => ?_, .refl _⟩ <;>
      cases List.mem_singleton.1 hs
    · exact List.nodup_nil
    · cases he
  | openScope kind node p _ ih =>
    refine ⟨fun scope hs => ?_, fun scope hs e he => ?_, ih.account⟩ <;>
      rcases List.mem_append.1 hs with hs | hs
    · exact ih.keys scope hs
    · cases List.mem_singleton.1 hs
      exact List.nodup_nil
    · exact ih.range scope hs e he
    · cases List.mem_singleton.1 hs
      cases he
  | declare s i x word _ ih => exact ih.declare s i x word
  | refer i _ hb ih => exact ih.refer i hb
  | addUnresolved i _ ih =>
    refine ⟨ih.keys, ih.range, ?_⟩
    rw [ScopeTable.account, ScopeTable.addUnresolved, ← List.append_assoc]
    exact ih.account.append_right [i]

/-! ### The scopes of declarations -/

/-- What holds of the scopes that a table notes when no identifier is entered twice. -/
structure Noted (t : ScopeTable) (is : List NodeId) : Prop where
  /-- A name that a scope has stands for a binding of the scope. -/
  owner : ∀ s x b, t.bound? s x = some b → ∃ B : Binding, t.bindings[b]? = some B ∧ B.scope = s
  declared : ∀ i, (t.declared.lookup i).isSome → i ∈ is
  /-- What declares a binding again is used in the scope of the binding. -/
  redeclared : ∀ (b : BindingId) (B : Binding), t.bindings[b]? = some B → ∀ i ∈ B.references,
    (t.declared.lookup i).isSome → t.usedIn.lookup i = some B.scope

theorem Kept.mem_of_references {B : Binding} (h : t.Kept is) (hb : t.bindings[b]? = some B)
    (hi : i ∈ B.references) : i ∈ is := by
  apply h.account.mem_iff.1
  apply List.mem_append_left
  exact List.mem_flatMap.2 ⟨B, List.mem_of_getElem? hb, List.mem_cons_of_mem _ hi⟩

theorem Noted.openScope {kind : ScopeKind} {node : NodeId} {p : ScopeId} (h : t.Noted is) :
    (t.openScope kind node p).2.Noted is where
  owner r x b hb := by
    rw [openScope_bound?] at hb
    exact h.owner r x b hb
  declared := h.declared
  redeclared := h.redeclared

section Declare

variable (h : t.Noted is) (hk : t.Kept is) (hi : i ∉ is)

include h in
theorem Noted.declared_declare (s : ScopeId) (x word : String) :
    ∀ j, ((t.declare s i x word).2.declared.lookup j).isSome → j ∈ is ++ [i] := by
  intro j hj
  rw [declare_declared, lookup_cons_if] at hj
  split_ifs at hj with hji
  · simp [hji]
  · exact List.mem_append_left _ (h.declared j hj)

include hi in
theorem isSome_of_declare {s : ScopeId} {x word : String} (hj : j ∈ is)
    (hd : ((t.declare s i x word).2.declared.lookup j).isSome) : (t.declared.lookup j).isSome := by
  rwa [declare_declared, lookup_cons_if, if_neg fun he : j = i => hi (he ▸ hj)] at hd

include h hk hi

/-- A name that its scope has already is used there. -/
theorem Noted.redeclare {s : ScopeId} {x : String} (hb : t.bound? s x = some b) (word : String) :
    (t.declare s i x word).2.Noted (is ++ [i]) := by
  obtain ⟨B, hB, hs⟩ := h.owner s x b hb
  have heq : (t.declare s i x word).2 =
      { t.addReference b i s with declared := (i, b) :: t.declared } := by
    rw [ScopeTable.declare, hb]
  refine ⟨fun r y c hc => ?_, h.declared_declare s x word, fun c C hC j hj hd => ?_⟩
  · rw [heq] at hc ⊢
    obtain ⟨C, hC, rfl⟩ := h.owner r y c hc
    obtain ⟨D, hD, hscope, -⟩ := addReference_getElem? (b := b) (i := i) (s := s) hC
    exact ⟨D, hD, hscope⟩
  · rw [heq] at hC ⊢
    obtain ⟨D, hD, hscope, -, -, href⟩ := exists_addReference (s := s) hC
    refine (lookup_cons_if ..).trans ?_
    rcases (href j).1 hj with hj | ⟨rfl, rfl⟩
    · have hjs := hk.mem_of_references hD hj
      rw [if_neg fun he : j = i => hi (he ▸ hjs), hscope]
      exact h.redeclared c D hD j hj (isSome_of_declare hi hjs hd)
    · rw [hB] at hD
      cases hD
      rw [if_pos rfl, hscope, hs]

/-- A name that is new to its scope gets a binding without references. -/
theorem Noted.bind {s : ScopeId} {x : String} (hb : t.bound? s x = none) (word : String) :
    (t.declare s i x word).2.Noted (is ++ [i]) := by
  have hbindings : (t.declare s i x word).2.bindings = t.bindings ++ [⟨x, word, i, s, []⟩] := by
    rw [ScopeTable.declare, hb]
  have hused : (t.declare s i x word).2.usedIn = t.usedIn := by
    rw [ScopeTable.declare, hb]
  refine ⟨fun r y c hc => ?_, h.declared_declare s x word, fun c C hC j hj hd => ?_⟩
  · rw [hbindings]
    simp only [getElem?_concat_iff]
    by_cases hlt : s < t.scopes.length
    · rw [declare_bound? hb hlt] at hc
      split_ifs at hc with hr
      · cases hc
        exact ⟨_, .inr ⟨rfl, rfl⟩, hr.1.symm⟩
      · obtain ⟨C, hC, hscope⟩ := h.owner r y c hc
        exact ⟨C, .inl hC, hscope⟩
    · have hsame : (t.declare s i x word).2.scopes = t.scopes := by
        rw [ScopeTable.declare, hb]
        exact List.modify_eq_self (Nat.le_of_not_lt hlt)
      rw [bound?, hsame] at hc
      obtain ⟨C, hC, hscope⟩ := h.owner r y c hc
      exact ⟨C, .inl hC, hscope⟩
  · rw [hbindings, getElem?_concat_iff] at hC
    rw [hused]
    rcases hC with hC | ⟨-, rfl⟩
    · exact h.redeclared c C hC j hj (isSome_of_declare hi (hk.mem_of_references hC hj) hd)
    · cases hj

theorem Noted.declare (s : ScopeId) (x word : String) :
    (t.declare s i x word).2.Noted (is ++ [i]) := by
  cases hb : t.bound? s x with
  | some b => exact h.redeclare hk hi hb word
  | none => exact h.bind hk hi hb word

end Declare

theorem Noted.refer (h : t.Noted is) (hi : i ∉ is) (b : BindingId) (s : ScopeId) :
    (t.refer b i s).Noted (is ++ [i]) where
  owner r y c hc := by
    obtain ⟨C, hC, rfl⟩ := h.owner r y c hc
    obtain ⟨D, hD, hscope, -⟩ := addReference_getElem? (b := b) (i := i) (s := s) hC
    exact ⟨D, hD, hscope⟩
  declared j hj := List.mem_append_left _ (h.declared j hj)
  redeclared c C hC j hj hd := by
    obtain ⟨D, hD, hscope, -, -, href⟩ := exists_addReference (s := s) hC
    have hne : j ≠ i := fun he => hi (h.declared i (he ▸ hd))
    refine (lookup_cons_if ..).trans ?_
    rw [if_neg hne, hscope]
    exact h.redeclared c D hD j (((href j).1 hj).resolve_right fun hji => hne hji.2) hd

/-- What is noted of the scopes of declarations, whatever the entries. -/
theorem Filled.noted (h : Filled t is) (hd : is.Nodup) : t.Noted is := by
  induction h with
  | program root =>
    refine ⟨fun s x b hb => ?_, fun i hi => ?_, fun b B hB => ?_⟩
    · cases s <;> cases hb
    · cases hi
    · cases hB
  | openScope kind node p _ ih => exact (ih hd).openScope
  | declare s i x word h ih =>
    obtain ⟨hd, -, hi⟩ := List.nodup_append.1 hd
    exact (ih hd).declare h.kept (fun hm => hi i hm i List.mem_cons_self rfl) s x word
  | @refer t is s x b i h hb ih =>
    obtain ⟨hd, -, hi⟩ := List.nodup_append.1 hd
    exact (ih hd).refer (fun hm => hi i hm i List.mem_cons_self rfl) b s
  | addUnresolved i h ih =>
    have h := ih (List.nodup_append.1 hd).1
    exact ⟨h.owner, fun j hj => List.mem_append_left _ (h.declared j hj), h.redeclared⟩

/-! ### The entries for a tree -/

section Tree

open Node

variable {f : Bool} {c : List Region} {n : Node} {word : String}

theorem Filled.declareAll {ns : List Node} (h : Filled t is) :
    Filled (t.declareAll s word ns) (is ++ ns.map (·.id)) := by
  induction ns generalizing t is with
  | nil =>
    rw [List.map_nil, List.append_nil]
    exact h
  | cons n ns ih =>
    rw [List.map_cons, List.append_cons]
    exact ih (h.declare s n.id n.text word)

theorem Filled.enterFunction (h : Filled t is) (own : Option Node) :
    Filled (t.enterFunction s n own).2
      (is ++ (own.toList.map (·.id) ++ n.parameterNames.map (·.id))) := by
  rw [← List.append_assoc]
  exact (h.openScope .function n.id s).declareAll.declareAll

theorem Filled.declareClass (h : Filled t is) (kind : String) :
    Filled (t.declareClass s kind n) (is ++ (n.declaresClass c kind).map (·.identifier)) := by
  rw [ScopeTable.declareClass, Node.declaresClass]
  split_ifs
  · rw [declareIn_identifiers]
    exact h.declareAll
  · rw [List.map_nil, List.append_nil]
    exact h

theorem Filled.declareHead {kind : String} {keyword : Option String} (h : Filled t is) :
    Filled (t.declareHead s kind keyword n)
      (is ++ (n.declaresHead c kind keyword).map (·.identifier)) := by
  have hnil : Filled t (is ++ ([] : List Declaration).map (·.identifier)) := by
    rw [List.map_nil, List.append_nil]
    exact h
  rw [ScopeTable.declareHead.eq_def, Node.declaresHead.eq_def]
  split_ifs
  · rw [declareIn_identifiers]
    exact h.declareAll
  · cases keyword with
    | none => exact hnil
    | some word =>
      dsimp only
      split_ifs
      · exact hnil
      · rw [declareIn_identifiers]
        exact h.declareAll
  · exact hnil

/-- The first walk makes an entry for each name that a node declares. -/
theorem Filled.enter (h : Filled t is) :
    Filled (t.enter f s n).2 (is ++ (n.declares c).map (·.identifier)) := by
  have hnil : Filled t (is ++ ([] : List Declaration).map (·.identifier)) := by
    rw [List.map_nil, List.append_nil]
    exact h
  rw [ScopeTable.enter.eq_def, Node.declares.eq_def]
  cases n.label with
  | functionDeclaration hasName =>
    dsimp only
    rw [List.map_append, declareIn_identifiers, declareIn_identifiers, ← List.append_assoc]
    exact h.declareAll.enterFunction none
  | functionExpression hasName =>
    dsimp only
    rw [List.map_append, declareIn_identifiers, declareIn_identifiers]
    exact h.enterFunction _
  | arrowFunction =>
    dsimp only
    rw [declareIn_identifiers]
    exact h.enterFunction none
  | block =>
    cases f with
    | true => exact hnil
    | false => exact hnil.openScope .block n.id s
  | variableDeclaration keyword =>
    dsimp only
    rw [declareIn_identifiers]
    exact h.declareAll
  | importDeclaration =>
    dsimp only
    rw [declareIn_identifiers]
    exact h.declareAll
  | other kind fields keyword =>
    dsimp only
    rw [List.map_append, ← List.append_assoc]
    have hclass := h.declareClass (s := s) (c := c) (n := n) kind
    split_ifs with hk
    · exact (hclass.openScope .block n.id s).declareHead
    · rw [declaresHead_of_not_block hk, List.map_nil, List.append_nil]
      exact hclass
  | _ => exact hnil

theorem Filled.declareTrees {ns : List Node}
    (hns : ∀ n ∈ ns, ∀ t is s f c, Filled t is →
      Filled (t.declareTree f s n) (is ++ n.declaring f c)) (h : Filled t is) :
    Filled (t.declareTrees f s ns) (is ++ ns.flatMap (declaring f c)) := by
  induction ns generalizing t is with
  | nil =>
    rw [List.flatMap_nil, List.append_nil]
    exact h
  | cons n ns ih =>
    rw [List.flatMap_cons, ← List.append_assoc]
    exact ih (fun m hm => hns m (List.mem_cons_of_mem _ hm)) (hns n List.mem_cons_self _ _ s f c h)

/-- The first walk makes an entry for each name that is declared in a tree. -/
theorem declareTree_filled (n : Node) (t : ScopeTable) (is : List NodeId) (s : ScopeId) (f : Bool)
    (c : List Region) (h : Filled t is) : Filled (t.declareTree f s n) (is ++ n.declaring f c) := by
  induction n using Node.induct generalizing t is s f c with
  | step n ih =>
    rw [declareTree_eq, declaring_eq, ← List.append_assoc]
    exact h.enter.declareTrees ih

/-- The identifiers among some that declare nothing. -/
def undeclared (t : ScopeTable) (is : List NodeId) : List NodeId :=
  is.filter fun i => !t.isDeclaration i

theorem undeclared_congr {t t' : ScopeTable} (h : t'.declared = t.declared) (is : List NodeId) :
    t'.undeclared is = t.undeclared is := by
  simp only [undeclared, isDeclaration, h]

/-- The second walk makes an entry for each identifier that declares nothing. -/
theorem Filled.referNode (h : Filled t is) : Filled (t.referNode s n.id n.label)
    (is ++ t.undeclared ((n.use? c).toList.map (·.identifier))) := by
  rw [ScopeTable.referNode.eq_def, undeclared]
  cases hl : n.label with
  | identifier name written shorthand =>
    have hu : n.use? c = some ⟨n.id, name, c⟩ := by
      rw [use?, if_pos (by rw [hl]; rfl), Node.text, hl]
      rfl
    rw [hu]
    rw [Option.toList_some, List.map_singleton, List.filter_singleton]
    dsimp only
    split_ifs with hd
    · rw [hd, Bool.not_true, cond_false, List.append_nil]
      exact h
    · rw [Bool.not_eq_true] at hd
      rw [hd, Bool.not_false, cond_true]
      cases hb : t.lookup? s name with
      | some b => exact h.refer n.id hb
      | none => exact h.addUnresolved n.id
  | _ =>
    have hu : n.use? c = none := by
      rw [use?, if_neg]
      rw [hl]
      exact Bool.false_ne_true
    rw [hu, Option.toList_none, List.map_nil, List.filter_nil, List.append_nil]
    exact h

/-- The table after the second walk through trees with some identifiers. -/
structure FilledWith (t t' : ScopeTable) (is new : List NodeId) : Prop where
  filled : Filled t' (is ++ t.undeclared new)
  declared : t'.declared = t.declared

theorem referTrees_filled {ns : List Node}
    (hns : ∀ n ∈ ns, ∀ t is s f c, Filled t is →
      FilledWith t (t.referTree s n) is ((n.uses f c).map (·.identifier))) (h : Filled t is) :
    FilledWith t (t.referTrees s ns) is ((ns.flatMap (uses f c)).map (·.identifier)) := by
  induction ns generalizing t is with
  | nil =>
    refine ⟨?_, rfl⟩
    rw [List.flatMap_nil, List.map_nil, undeclared, List.filter_nil, List.append_nil]
    exact h
  | cons n ns ih =>
    obtain ⟨h1, hd1⟩ := hns n List.mem_cons_self t is s f c h
    obtain ⟨h2, hd2⟩ := ih (fun m hm => hns m (List.mem_cons_of_mem _ hm)) h1
    refine ⟨?_, hd2.trans hd1⟩
    rw [List.flatMap_cons, List.map_append, undeclared, List.filter_append, ← List.append_assoc]
    rw [undeclared_congr hd1] at h2
    exact h2

theorem referTree_filled (n : Node) (t : ScopeTable) (is : List NodeId) (s : ScopeId) (f : Bool)
    (c : List Region) (h : Filled t is) :
    FilledWith t (t.referTree s n) is ((n.uses f c).map (·.identifier)) := by
  induction n using Node.induct generalizing t is s f c with
  | step n ih =>
    obtain ⟨-, hd1⟩ := referNode_scopes t ((t.scopeOpenedBy? n.id).getD s) n.id n.label
    obtain ⟨h2, hd2⟩ := referTrees_filled (f := n.label.isFunction) (c := n.inner f c)
      (s := (t.scopeOpenedBy? n.id).getD s) ih (h.referNode (c := c) (n := n))
    rw [referTree_eq]
    refine ⟨?_, hd2.trans hd1⟩
    rw [uses_eq, List.map_append, undeclared, List.filter_append, ← List.append_assoc]
    rw [undeclared_congr hd1] at h2
    exact h2

end Tree

/-! ### The books of a tree -/

section Resolve

open Node

variable {root n : Node}

/-- The entries that resolve the names of a tree: first its declarations, then its other uses. -/
theorem resolve_filled (root : Node) : Filled (resolve root) (root.declaring false root.program ++
    (resolve root).undeclared ((root.uses false root.program).map (·.identifier))) := by
  have h := declareTree_filled root _ _ 0 false root.program (.program root.id)
  rw [List.nil_append] at h
  obtain ⟨h2, hd⟩ := referTree_filled root _ _ 0 false root.program h
  rw [← undeclared_congr hd] at h2
  exact h2

theorem use_mem_uses (hn : n ∈ root.walk) (hi : n.label.isIdentifier) :
    n.id ∈ (root.uses false root.program).map (·.identifier) := by
  obtain ⟨above, hp⟩ := exists_path hn
  have hspot := mem_spots_of_path root.program hp
  exact List.mem_map.2 ⟨⟨n.id, n.text, _⟩,
    List.mem_filterMap.2 ⟨_, hspot, by rw [use?, if_pos hi]⟩, rfl⟩

theorem isDeclaration_iff (h : t.Lists ds) {i : NodeId} :
    t.isDeclaration i ↔ i ∈ ds.map (·.identifier) := by
  rw [isDeclaration, List.mem_map]
  refine ⟨h.declared i, ?_⟩
  rintro ⟨d, hd, rfl⟩
  obtain ⟨b, B, hb, -⟩ := h.complete d hd
  rw [hb]
  rfl

/-- The entries that resolve the names of a tree. -/
def entries (root : Node) : List NodeId :=
  root.declaring false root.program ++
    (resolve root).undeclared ((root.uses false root.program).map (·.identifier))

/-- No identifier of a tree is entered twice. -/
theorem entries_nodup (hd : root.ids.Nodup) (hs : ∀ n ∈ root.walk, n.ListsParameters)
    (hl : root.label = .program) : (entries root).Nodup := by
  obtain ⟨⟨hlists, -⟩, -⟩ := resolve_resolved hd hs hl
  refine List.nodup_append'.2 ⟨declaring_nodup hd hs, ?_, ?_⟩
  · exact ((uses_sublist root _ _).nodup hd).filter _
  · intro i hi hu
    have hnot := (List.mem_filter.1 hu).2
    rw [(isDeclaration_iff hlists).2 hi] at hnot
    cases hnot

/-- Every identifier of a tree is in the books once: it declares a binding, is among the references
of a binding, or is unresolved. -/
theorem resolve_once (hd : root.ids.Nodup) (hs : ∀ n ∈ root.walk, n.ListsParameters)
    (hl : root.label = .program) (hn : n ∈ root.walk) (hi : n.label.isIdentifier) :
    (resolve root).account.count n.id = 1 := by
  obtain ⟨⟨hlists, -⟩, -⟩ := resolve_resolved hd hs hl
  rw [(resolve_filled root).kept.account.count_eq]
  refine List.count_eq_one_of_mem (entries_nodup hd hs hl) ?_
  rw [List.mem_append]
  by_cases h : (resolve root).isDeclaration n.id
  · exact .inl ((isDeclaration_iff hlists).1 h)
  · exact .inr (List.mem_filter.2 ⟨use_mem_uses hn hi, by simpa using h⟩)

/-- What declares a binding of a tree again is used in the scope of the binding. -/
theorem resolve_redeclared (hd : root.ids.Nodup) (hs : ∀ n ∈ root.walk, n.ListsParameters)
    (hl : root.label = .program) {B : Binding} (hb : (resolve root).bindings[b]? = some B)
    (hi : i ∈ B.references) (hdecl : ((resolve root).declared.lookup i).isSome) :
    (resolve root).usedIn.lookup i = some B.scope :=
  ((resolve_filled root).noted (entries_nodup hd hs hl)).redeclared b B hb i hi hdecl

end Resolve

end ScopeTable
end JsxLint
