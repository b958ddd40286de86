import Mathlib.Data.List.TakeWhile
import JsxLint.Proofs.Scope.Ownership
import JsxLint.Proofs.Syntax.Returned
import JsxLint.Proofs.Workspace.Conflicts

/-!
# The scopes that a declaration crosses

Between an identifier and the scope that its name is bound in may lie other scopes. A reference that
crosses a scope with the new name of its binding is a conflict, but nothing looks at the scopes that
a declaration crosses. Most declarations cross none; the name of a function stands in the scope of
that function, and a `var` is declared through all blocks around it, where a `let` of the same name
makes the program invalid.

* `Node.Declares.exists_path`: between a node and a name that it declares no scope is opened;
* `ScopeTable.Covers.crossed`: the scopes that a declaration crosses;
* `Workspace.between`, `Workspace.isCovered`: the scopes that an identifier crosses, and whether one
  of them has a name;
* `Workspace.rename_covered`: what a rename without conflict does about them.
-/

namespace JsxLint

/-! ### Names below the nodes that declare them -/

namespace Node

variable {m n : Node} {reach : Reach}

/-- What binds names of its parts opens no scope. -/
theorem region?_of_combine {kind : String} {fields : List (Option String)} {keyword : Option String}
    {parts : List (List Node)} (hl : n.label = .other kind fields keyword)
    (h : m ∈ Pattern.combine kind fields parts) (f : Bool) : n.region? f = none := by
  have hkind : ScopeTable.blockKinds.contains kind = false := by
    by_contra hc
    simp only [ScopeTable.blockKinds, List.contains_cons, List.contains_nil, Bool.or_false,
      Bool.not_eq_false, Bool.or_eq_true, beq_iff_eq] at hc
    rcases hc with rfl | rfl | rfl | rfl | rfl <;> cases h
  rw [region?.eq_def, hl]
  dsimp only
  rw [hkind, if_neg Bool.false_ne_true]

/-- Between a pattern and a name that it binds no scope is opened. -/
theorem exists_path_of_patternNames (h : m ∈ n.patternNames) :
    ∃ inner, n.Path inner m ∧ ∀ a ∈ inner, ∀ f, a.region? f = none := by
  induction n using induct with
  | step n ih =>
    rw [patternNames_eq] at h
    split at h
    · cases List.mem_singleton.1 h
      exact ⟨[], .root, fun a ha => by cases ha⟩
    · next hl =>
      obtain ⟨names, hn, hm⟩ := mem_combine h
      obtain ⟨k, hk, rfl⟩ := List.mem_map.1 hn
      obtain ⟨inner, hp, hin⟩ := ih k hk hm
      refine ⟨inner ++ [n], hp.trans (.child .root hk), fun a ha => ?_⟩
      rcases List.mem_append.1 ha with ha | ha
      · exact hin a ha
      · cases List.mem_singleton.1 ha
        exact region?_of_combine hl h
    · cases h

/-- Between a node and a name that it declares no scope is opened. -/
theorem Declares.exists_path (h : n.Declares reach m) (hs : n.ListsParameters) :
    ∃ inner, n.Path (inner ++ [n]) m ∧ ∀ a ∈ inner, ∀ f, a.region? f = none := by
  have hchild : m ∈ n.children →
      ∃ inner, n.Path (inner ++ [n]) m ∧ ∀ a ∈ inner, ∀ f, a.region? f = none :=
    fun hm => ⟨[], .child .root hm, fun a ha => by cases ha⟩
  have hpattern : ∀ pattern ∈ n.children, m ∈ pattern.patternNames →
      ∃ inner, n.Path (inner ++ [n]) m ∧ ∀ a ∈ inner, ∀ f, a.region? f = none := by
    intro pattern hp hm
    obtain ⟨inner, hpath, hin⟩ := exists_path_of_patternNames hm
    exact ⟨inner, hpath.trans (.child .root hp), hin⟩
  -- the patterns of parameters and declarators are two levels down
  have hbelow : ∀ part ∈ n.children, (∀ f, part.region? f = none) → ∀ pattern ∈ part.children,
      m ∈ pattern.patternNames →
      ∃ inner, n.Path (inner ++ [n]) m ∧ ∀ a ∈ inner, ∀ f, a.region? f = none := by
    intro part hd hnone pattern hp hm
    obtain ⟨inner, hpath, hin⟩ := exists_path_of_patternNames hm
    refine ⟨inner ++ [part], ?_, fun a ha => ?_⟩
    · rw [List.append_assoc]
      exact hpath.trans (.child (.child .root hd) hp)
    · rcases List.mem_append.1 ha with ha | ha
      · exact hin a ha
      · cases List.mem_singleton.1 ha
        exact hnone
  cases h with
  | functionName hl hf hm | ownName hl hf hm =>
    refine hchild ?_
    rw [children_eq_of_function? hf, hm]
    exact List.mem_cons_self
  | @parameter parts pattern _ hf hp hm =>
    refine hbelow parts.parameters (parameters_mem_children hf) (fun f => ?_) pattern hp hm
    have hform := hs parts hf
    rw [region?.eq_def]
    cases hl : parts.parameters.label <;> rw [hl] at hform <;> first
      | rfl
      | simp [Label.form] at hform
  | @declarator keyword part pattern _ value hl hd hp hm =>
    obtain ⟨rest, hc⟩ := children_eq_of_declarator? hp
    refine hbelow part hd (fun f => ?_) pattern (hc ▸ List.mem_cons_self) hm
    rw [region?.eq_def]
    cases hlp : part.label <;> rw [declarator?, hlp] at hp <;> first
      | rfl
      | simp at hp
  | imported hl hm => exact hchild hm
  | className hl hk hp hi => exact hchild (part?_mem hp)
  | caught hl hp hm => exact hpattern _ (part?_mem hp) hm
  | loop hl hk hp hm => exact hpattern _ (part?_mem hp) hm

theorem Path.id_ne_root {root : Node} {above : List Node} (hp : root.Path above n)
    (hne : above ≠ []) (hd : root.ids.Nodup) : n.id ≠ root.id := by
  cases hp with
  | root => exact (hne rfl).elim
  | child hp hc => exact ((Path.child hp hc).id_ne hd hp.root_mem).symm

end Node

/-! ### Scopes on the way out -/

section Way

variable {α : Type} [BEq α] {l l' : List α} {r s : α} {p : α → Bool}

theorem mem_takeWhile_append (h : r ∈ (l ++ l').takeWhile (· != s)) :
    r ∈ l ∨ r ∈ l'.takeWhile (· != s) := by
  induction l with
  | nil => exact .inr h
  | cons a l ih =>
    rw [List.cons_append, List.takeWhile_cons] at h
    split_ifs at h
    · rcases List.mem_cons.1 h with rfl | h
      · exact .inl List.mem_cons_self
      · exact (ih h).imp_left (List.mem_cons_of_mem a)
    · cases h

theorem takeWhile_of_head? [LawfulBEq α] (h : l.head? = some s) : l.takeWhile (· != s) = [] := by
  cases l with
  | nil => rfl
  | cons a l =>
    cases h
    rw [List.takeWhile_cons, if_neg (by simp)]

theorem eq_false_of_mem_takeWhile [LawfulBEq α] (h : l.find? p = some s) (hr : r ∈ l.takeWhile (· != s)) :
    p r = false := by
  induction l with
  | nil => cases hr
  | cons a l ih =>
    rw [List.takeWhile_cons] at hr
    rw [List.find?_cons] at h
    split_ifs at hr with ha
    · cases hp : p a with
      | true =>
        rw [hp] at h
        cases h
        exact absurd rfl (bne_iff_ne.1 ha)
      | false =>
        rw [hp] at h
        rcases List.mem_cons.1 hr with rfl | hr
        · exact hp
        · exact ih h hr
    · cases hr

variable [LawfulBEq α] {o : Option α}

theorem takeWhile_of_own (h : o = some s) :
    s ∈ o.toList ++ l ∧ (o.toList ++ l).takeWhile (· != s) = [] := by
  rw [h]
  exact ⟨List.mem_cons_self, takeWhile_of_head? rfl⟩

theorem takeWhile_of_next (h : l.head? = some s) : s ∈ o.toList ++ l ∧
    ∀ r ∈ (o.toList ++ l).takeWhile (· != s), o = some r := by
  refine ⟨List.mem_append_right _ (List.mem_of_mem_head? h), fun r hr => ?_⟩
  rcases mem_takeWhile_append hr with hr | hr
  · exact Option.mem_toList.1 hr
  · rw [takeWhile_of_head? h] at hr
    cases hr

theorem takeWhile_of_found (h : l.find? p = some s) : s ∈ o.toList ++ l ∧
    ∀ r ∈ (o.toList ++ l).takeWhile (· != s), o = some r ∨ p r = false := by
  refine ⟨List.mem_append_right _ (List.mem_of_find?_eq_some h), fun r hr => ?_⟩
  rcases mem_takeWhile_append hr with hr | hr
  · exact .inl (Option.mem_toList.1 hr)
  · exact .inr (eq_false_of_mem_takeWhile h hr)

end Way

namespace ScopeTable

open Node

variable {t : ScopeTable} {root n m : Node} {above inner : List Node} {r s : ScopeId} {reach : Reach}

namespace Covers

variable (h : t.Covers root) (hd : root.ids.Nodup)

include h hd

theorem scopeOpenedBy?_of_none (hp : root.Path above n) (hne : above ≠ [])
    (hr : n.region? (isInFunction above) = none) : t.scopeOpenedBy? n.id = none :=
  scopeOpenedBy?_eq_none
    (h.regions ▸ not_mem_regions hd (mem_spots_of_path root.program hp) (hp.id_ne_root hne hd) hr)

omit hd in
theorem scopeOpenedBy?_of_some {region : Region} (hp : root.Path above n)
    (hr : n.region? (isInFunction above) = some region) : ∃ o, t.scopeOpenedBy? n.id = some o ∧
      t.scopes[o]?.map (·.kind) = some region.kind := by
  obtain ⟨s, ha⟩ := h.exists_around hp
  have hinner := h.opens _ (mem_spots_of_path root.program hp) s ha
  rw [Node.inner, hr] at hinner
  obtain ⟨_, _, he, hregion⟩ := hinner.nearest
  cases he
  exact ⟨_, h.resolved.lists.scopeOpenedBy?_eq (hinner.nodeOf?.trans
    (congrArg some (region?_node hr))), kind_of_region hregion⟩

/-- Nodes that open no scope leave no trace among the scopes above a node. -/
theorem scopesAbove_append (hne : above ≠ []) (hp : root.Path (inner ++ above) m)
    (hin : ∀ a ∈ inner, ∀ f, a.region? f = none) :
    t.scopesAbove (inner ++ above) = t.scopesAbove above := by
  induction inner generalizing m with
  | nil => rfl
  | cons a inner ih =>
    obtain ⟨ha, hin⟩ := List.forall_mem_cons.1 hin
    cases hp with
    | child hp _ =>
      have hopened := h.scopeOpenedBy?_of_none hd hp (by simp [hne]) (ha _)
      rw [List.cons_append, scopesAbove, List.filterMap_cons, hopened]
      exact ih hp hin

omit h hd in
theorem scopesAbove_cons : t.scopesAbove (n :: above) =
    (t.scopeOpenedBy? n.id).toList ++ t.scopesAbove above := by
  rw [scopesAbove, List.filterMap_cons]
  cases t.scopeOpenedBy? n.id <;> rfl

omit h hd in
/-- What `var` declares crosses blocks only, and the scope that its own node may open. -/
theorem blocks_crossed (hs : ((t.scopesAbove above).find? fun s =>
    (t.scopes[s]?.map (·.kind)) != some .block) = some s) : s ∈ t.scopesAbove (n :: above) ∧
      ∀ r ∈ (t.scopesAbove (n :: above)).takeWhile (· != s),
        t.scopeOpenedBy? n.id = some r ∨ t.scopes[r]?.map (·.kind) = some .block := by
  rw [scopesAbove_cons]
  obtain ⟨hin, hall⟩ := takeWhile_of_found hs
  exact ⟨hin, fun r hr => (hall r hr).imp_right fun hk => by simpa using hk⟩

/-- Most declarations stand in the scope that binds their name. The name of a function is in the
scope of the function, and what `var` declares is in the blocks up to the next function. -/
theorem crossed (hl : root.label = .program) (hp : root.Path above n) (hm : n.Declares reach m)
    (hs : t.reached? above n reach = some s) : s ∈ t.scopesAbove (n :: above) ∧
      ∀ r ∈ (t.scopesAbove (n :: above)).takeWhile (· != s),
        ((∃ hasName parts, n.label = .functionDeclaration hasName ∧ n.function? = some parts ∧
          parts.name = some m) ∧ t.scopeOpenedBy? n.id = some r) ∨
        (reach = .function ∧ t.scopes[r]?.map (·.kind) = some .block) := by
  have hne : above ≠ [] := by
    rintro rfl
    cases hp
    exact label_ne_program_of_declares hm hl
  have hwithin (ho : t.scopeOpenedBy? n.id = some s) : s ∈ t.scopesAbove (n :: above) ∧
      (t.scopesAbove (n :: above)).takeWhile (· != s) = [] :=
    scopesAbove_cons ▸ takeWhile_of_own ho
  have haround (hh : (t.scopesAbove above).head? = some s) : s ∈ t.scopesAbove (n :: above) ∧
      ∀ r ∈ (t.scopesAbove (n :: above)).takeWhile (· != s), t.scopeOpenedBy? n.id = some r :=
    scopesAbove_cons ▸ takeWhile_of_next hh
  -- without a scope of its own a node is crossed by nothing that stays in the scope around it
  have hnone (hr : ∀ f, n.region? f = none) (r : ScopeId) : t.scopeOpenedBy? n.id ≠ some r := by
    rw [h.scopeOpenedBy?_of_none hd hp hne (hr _)]
    exact nofun
  have hvariable : ∀ keyword, n.label = .variableDeclaration keyword → ∀ f, n.region? f = none :=
    fun _ hl f => by rw [region?.eq_def, hl]
  cases hm with
  | functionName hl hf hm =>
    obtain ⟨hin, hall⟩ := haround hs
    exact ⟨hin, fun r hr => .inl ⟨⟨_, _, hl, hf, hm⟩, hall r hr⟩⟩
  | ownName | parameter | caught =>
    obtain ⟨hin, hnil⟩ := hwithin hs
    exact ⟨hin, fun r hr => by rw [hnil] at hr; cases hr⟩
  | @declarator keyword _ _ _ _ hl =>
    by_cases hk : keyword = "var"
    · rw [Reach.ofKeyword, if_pos hk] at hs ⊢
      obtain ⟨hin, hall⟩ := blocks_crossed (n := n) hs
      exact ⟨hin, fun r hr => .inr ⟨rfl, (hall r hr).resolve_left (hnone (hvariable _ hl) r)⟩⟩
    · rw [Reach.ofKeyword, if_neg hk] at hs
      obtain ⟨hin, hall⟩ := haround hs
      exact ⟨hin, fun r hr => absurd (hall r hr) (hnone (hvariable _ hl) r)⟩
  | imported hl =>
    obtain ⟨hin, hall⟩ := haround hs
    exact ⟨hin, fun r hr => absurd (hall r hr) (hnone (fun f => by rw [region?.eq_def, hl]) r)⟩
  | className hl hk =>
    obtain ⟨hin, hall⟩ := haround hs
    refine ⟨hin, fun r hr => absurd (hall r hr) (hnone (fun f => ?_) r)⟩
    rw [region?.eq_def, hl]
    rcases hk with rfl | rfl <;> rfl
  | @loop _ keyword _ _ hl =>
    by_cases hk : keyword = "var"
    · rw [Reach.ofKeyword, if_pos hk] at hs ⊢
      have hregion : n.region? (isInFunction above) = some ⟨n.id, .block⟩ := by
        rw [region?.eq_def, hl]
        rfl
      obtain ⟨o, ho, hkind⟩ := h.scopeOpenedBy?_of_some hp hregion
      obtain ⟨hin, hall⟩ := blocks_crossed (n := n) hs
      refine ⟨hin, fun r hr => .inr ⟨rfl, (hall r hr).elim (fun he => ?_) id⟩⟩
      rw [ho] at he
      cases he
      exact hkind
    · rw [Reach.ofKeyword, if_neg hk] at hs
      obtain ⟨hin, hnil⟩ := hwithin hs
      exact ⟨hin, fun r hr => by rw [hnil] at hr; cases hr⟩

end Covers

end ScopeTable

/-! ### Renamed declarations -/

theorem Node.Path.mapNames {root m : Node} {above : List Node} (hp : root.Path above m)
    (g : NodeId → String → String) :
    (root.mapNames g).Path (above.map (Node.mapNames g)) (m.mapNames g) := by
  induction hp with
  | root => exact .root
  | child _ hc ih =>
    refine .child ih ?_
    rw [mapNames_children]
    exact List.mem_map_of_mem hc

open Node

namespace Workspace

/-- The scopes that a node stands in, the innermost first. -/
def enclosing (w : Workspace) (id : NodeId) : List ScopeId :=
  w.scopes.scopesAbove (((w.document.node? id).map w.document.ancestors).getD [])

/-- The scopes between an identifier and a scope further out, the innermost first. -/
def between (w : Workspace) (id : NodeId) (s : ScopeId) : List ScopeId :=
  (w.enclosing id).takeWhile (· != s)

/-- Whether a scope between an identifier and a scope further out has a name. -/
def isCovered (w : Workspace) (id : NodeId) (s : ScopeId) (name : String) : Bool :=
  (w.between id s).any fun inner => (w.scopes.bound? inner name).isSome

/-- Whether a scope is that of a function declaration which an identifier names. -/
def IsOwnScope (w : Workspace) (id : NodeId) (s : ScopeId) : Prop :=
  ∃ n ∈ w.document.root.walk, ∃ m, m.id = id ∧ (∃ hasName parts,
    n.label = .functionDeclaration hasName ∧ n.function? = some parts ∧ parts.name = some m) ∧
      w.scopes.scopeOpenedBy? n.id = some s

/-- Whether a scope is a block, and an identifier is declared by `var`. -/
def IsPassed (w : Workspace) (id : NodeId) (s : ScopeId) : Prop :=
  w.scopes.scopes[s]?.map (·.kind) = some .block ∧
    ∃ n ∈ w.document.root.walk, ∃ m, m.id = id ∧ n.Declares .function m

section Crossed

variable {d : Document} {w : Workspace} {b : BindingId} {B : Binding} {y : String} {i : NodeId}
  {m : Node} {above : List Node}

theorem enclosing_eq (hd : w.document.WellFormed) (hp : w.document.root.Path above m) :
    w.enclosing m.id = w.scopes.scopesAbove above := by
  rw [enclosing, hd.node?_eq hp.mem_walk, Option.map_some, Option.getD_some, hd.ancestors_eq hp]

section Fresh

variable (hd : d.WellFormed) (hi : d.DeclaresIdentifiers)
  (hb : (ofDocument d).scopes.bindings[b]? = some B)

include hd

theorem covers_ofDocument : (ofDocument d).scopes.Covers d.root :=
  ScopeTable.resolve_covers hd.root.nodup (fun n hn => (hd.root.shaped n hn).parameters)
    hd.root.program

/-- A declaration stands in the scope of its binding, and crosses only the scope of a function that
it names and, declared by `var`, blocks. -/
theorem declaration_crosses (hb : (ofDocument d).scopes.bindings[b]? = some B)
    (hof : (ofDocument d).scopes.bindingOf? i = some b)
    (hdecl : (ofDocument d).scopes.isDeclaration i) : B.scope ∈ (ofDocument d).enclosing i ∧
      ∀ s ∈ (ofDocument d).between i B.scope,
        (ofDocument d).IsOwnScope i s ∨ (ofDocument d).IsPassed i s := by
  have hcovers := covers_ofDocument hd
  have hlists := hcovers.resolved.lists
  obtain ⟨e, he, rfl⟩ := hlists.declared i hdecl
  obtain ⟨p, hp, he⟩ := List.mem_flatMap.1 he
  obtain ⟨reach, m, hm, rfl⟩ := declares_of_mem he
  obtain ⟨above, hpath, -⟩ := exists_path_of_spots d.root.program .root hp
  obtain ⟨inner, hinner, hnone⟩ := hm.exists_path (hd.root.shaped _ hpath.mem_walk).parameters
  have hpm : d.root.Path (inner ++ p.node :: above) m := by
    have htrans := hinner.trans hpath
    rwa [List.append_assoc] at htrans
  obtain ⟨s, b', hreached, hbound, hdeclared⟩ :=
    hcovers.owned hd.root.nodup hd.root.program hpath hm
  have hscope : B.scope = s := by
    cases hof.symm.trans (ScopeTable.bindingOf?_of_declared hdeclared)
    obtain ⟨C, hC, hs, -⟩ := (hlists.bound_iff s m.text b).1 hbound
    cases hb.symm.trans hC
    exact hs
  obtain ⟨hmem, hcrossed⟩ :=
    hcovers.crossed hd.root.nodup hd.root.program hpath hm (hscope ▸ hreached)
  have henclosing : (ofDocument d).enclosing m.id =
      (ofDocument d).scopes.scopesAbove (p.node :: above) :=
    (enclosing_eq (w := ofDocument d) hd hpm).trans
      (hcovers.scopesAbove_append hd.root.nodup (List.cons_ne_nil _ _) hpm hnone)
  refine ⟨henclosing ▸ hmem, fun r hr => ?_⟩
  rw [between, henclosing] at hr
  rcases hcrossed r hr with ⟨hname, ho⟩ | ⟨rfl, hkind⟩
  · exact .inl ⟨p.node, hpath.mem_walk, m, rfl, hname, ho⟩
  · exact .inr ⟨hkind, p.node, hpath.mem_walk, m, rfl, hm⟩

/-- A reference crosses the scopes that a conflict is looked for in. -/
theorem reference_crosses (hof : (ofDocument d).scopes.bindingOf? i = some b)
    (hdecl : (ofDocument d).scopes.isDeclaration i = false) :
    (ofDocument d).enclosing i = (ofDocument d).scopesAround i := by
  have hcovers := covers_ofDocument hd
  have hnone : (ofDocument d).scopes.declared.lookup i = none := by
    rwa [ScopeTable.isDeclaration, Option.isSome_eq_false_iff, Option.isNone_iff_eq_none] at hdecl
  obtain ⟨u, hu, rfl⟩ := exists_use_of_undeclared hd hnone (.inl (by rw [hof]; rfl))
  obtain ⟨s, hr⟩ := hcovers.resolved.knows u hu hnone
  obtain ⟨above, m, hp, hident, hid, -, haround⟩ := Document.exists_of_mem_uses hu
  have hne : above ≠ [] := by
    rintro rfl
    cases hp
    rw [hd.root.program] at hident
    cases hident
  have hstand := hcovers.stand hd.root.nodup hd.root.program hp hne
  have hchain := hcovers.resolved.lists.chain_eq hstand (haround ▸ hr.around)
  rw [scopesAround, scopeOf, hr.usedIn (by rw [hof]; rfl), ← hid]
  exact (enclosing_eq (w := ofDocument d) hd hp).trans hchain.symm

include hi hb

/-- A rename without conflict leaves the scopes where they are, and their names outside of the scope
of the binding. -/
theorem rename_keeps (hc : (ofDocument d).renameConflict? b y = none) :
    (∀ m ∈ d.root.walk, (ofDocument ((ofDocument d).rename b y).document).enclosing m.id =
      (ofDocument d).enclosing m.id) ∧
    ∀ s x, s ≠ B.scope → (ofDocument ((ofDocument d).rename b y).document).scopes.bound? s x =
      (ofDocument d).scopes.bound? s x := by
  have hrelabelled := rename_relabelled (y := y) hd hi hb
  have hreordered := resolve_rename hd hi hb hc
  obtain ⟨hbound, -⟩ := (renameConflict?_eq_none_iff hb).1 hc
  have hdistinct : (ofDocument d).scopes.Distinct :=
    (ScopeTable.resolve_filled d.root).kept.keys
  have htable : ((ofDocument d).rename b y).scopes = (ofDocument d).scopes.rename b B y := by
    rw [rename_eq hb]
  rw [htable] at hreordered
  obtain ⟨n, hn, -⟩ := (sound_ofDocument hd).lists.first b B hb
  constructor
  · intro m hm
    obtain ⟨above, hp⟩ := exists_path hm
    have hp' := hp.mapNames ((ofDocument d).scopes.newName b y)
    rw [← hrelabelled.root] at hp'
    have henclosing := enclosing_eq (w := ofDocument ((ofDocument d).rename b y).document)
      hrelabelled.formed hp'
    rw [mapNames_id] at henclosing
    rw [henclosing, enclosing_eq (w := ofDocument d) hd hp, ScopeTable.scopesAbove,
      ScopeTable.scopesAbove, List.filterMap_map]
    refine List.filterMap_congr fun a _ => ?_
    rw [Function.comp_apply, mapNames_id]
    exact ScopeTable.scopeOpenedBy?_congr
      (hreordered.skeleton.trans (ScopeTable.rename_skeleton _ b B y)) a.id
  · intro s x hne
    have hsame := hreordered.bound? (hdistinct.rename hbound) s x
    rw [ScopeTable.rename_bound? (ScopeTable.lt_of_nodeOf? hn), if_neg hne] at hsame
    exact hsame

/-- After a rename without conflict no scope between a reference and the scope of the binding has
the new name. For declarations this was never looked at: one crosses a scope with the new name just
when it did before. Only blocks that `var` declares through are crossed, and the scope of a
function by its own name. -/
theorem rename_covered (hc : (ofDocument d).renameConflict? b y = none)
    (hof : (ofDocument d).scopes.bindingOf? i = some b) :
    (ofDocument ((ofDocument d).rename b y).document).isCovered i B.scope y =
        (ofDocument d).isCovered i B.scope y ∧
      ((ofDocument d).scopes.isDeclaration i = false →
        (ofDocument d).isCovered i B.scope y = false) ∧
      ((ofDocument d).scopes.isDeclaration i → B.scope ∈ (ofDocument d).enclosing i ∧
        ∀ s ∈ (ofDocument d).between i B.scope,
          (ofDocument d).IsOwnScope i s ∨ (ofDocument d).IsPassed i s) := by
  have hs := sound_ofDocument hd
  obtain ⟨m, hm, rfl, -⟩ := (covers_ofDocument hd).named hb ((hs.mem_binding_iff hb i).2 hof)
  obtain ⟨henclosing, hbound⟩ := rename_keeps hd hi hb hc
  refine ⟨?_, fun hdecl => ?_, fun hdecl => declaration_crosses hd hb hof hdecl⟩
  · rw [isCovered, isCovered, between, between, henclosing m hm]
    rw [Bool.eq_iff_iff, List.any_eq_true, List.any_eq_true]
    refine exists_congr fun s => and_congr_right fun hs => ?_
    have hne := List.mem_takeWhile_imp hs
    rw [hbound s y (bne_iff_ne.1 hne)]
  · have hnone : (ofDocument d).scopes.declared.lookup m.id = none := by
      rwa [ScopeTable.isDeclaration, Option.isSome_eq_false_iff, Option.isNone_iff_eq_none] at hdecl
    have hshadowed := ((renameConflict?_eq_none_iff hb).1 hc).2.1 m.id
      (hs.mem_references hb hof hnone)
    rw [isCovered, between, reference_crosses hd hof hdecl]
    exact hshadowed

end Fresh

end Crossed

end Workspace

/-! ### A `var` in a block -/

namespace Concrete

/-- The tree of `{ let b; var a; }`. -/
def passedBlock : Concrete :=
  rule "program" 0 18 none
    [rule "statement_block" 0 17 none
      [token "\x7b" 0 1,
        rule "lexical_declaration" 2 8 none
          [token "let" 2 5,
            rule "variable_declarator" 6 7 none [rule "identifier" 6 7 (some "name") []],
            token ";" 7 8],
        rule "variable_declaration" 9 15 none
          [token "var" 9 12,
            rule "variable_declarator" 13 14 none [rule "identifier" 13 14 (some "name") []],
            token ";" 14 15],
        token "\x7d" 16 17]]

end Concrete

namespace Workspace

/-- The variable `a` may be called `b`, though its declaration then crosses the block of `let b`. -/
theorem passedBlock_rename_covered : ∃ d B,
    Document.read (fun _ _ => Concrete.passedBlock) "A.js" "\x7b let b; var a; \x7d\n" = .ok d ∧
      d.WellFormed ∧ d.DeclaresIdentifiers ∧ (ofDocument d).scopes.bindings[1]? = some B ∧
      (ofDocument d).renameConflict? 1 "b" = none ∧
      (ofDocument d).scopes.bindingOf? B.declaration = some 1 ∧
      (ofDocument d).scopes.isDeclaration B.declaration ∧
      (ofDocument ((ofDocument d).rename 1 "b").document).isCovered B.declaration B.scope "b" := by
  have hfacts : (Document.read (fun _ _ => Concrete.passedBlock) "A.js"
      "\x7b let b; var a; \x7d\n").map (fun d =>
        (decide d.DeclaresIdentifiers, (ofDocument d).renameConflict? 1 "b",
          (ofDocument d).scopes.bindings[1]?.map fun B =>
            ((ofDocument d).scopes.bindingOf? B.declaration,
              (ofDocument d).scopes.isDeclaration B.declaration,
              (ofDocument d).isCovered B.declaration B.scope "b"))) =
      .ok (true, none, some (some 1, true, true)) := by decide +kernel
  obtain ⟨d, hd, hvalues⟩ := Reading.map_eq_ok.1 hfacts
  simp only [Prod.mk.injEq, decide_eq_true_eq] at hvalues
  obtain ⟨hi, hc, hB⟩ := hvalues
  obtain ⟨B, hB, he⟩ := Option.map_eq_some_iff.1 hB
  simp only [Prod.mk.injEq] at he
  obtain ⟨hof, hdecl, hcovered⟩ := he
  have hformed := Reading.read_wellFormed (by decide +kernel) hd
  obtain ⟨hsame, -⟩ := rename_covered hformed hi hB hc hof
  exact ⟨d, B, hd, hformed, hi, hB, hc, hof, hdecl, hsame.trans hcovered⟩

end Workspace

end JsxLint
