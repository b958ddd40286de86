import JsxLint.Proofs.Scope.Places
import JsxLint.Proofs.Scope.Table

/-!
# What name resolution finds

The two walks of name resolution against the declarations and uses in the tree: the first enters
each declaration in the scope that owns it, the second finds for each use the first declaration in
the nearest scope that has one.

* `ScopeTable.Entered`, `ScopeTable.declareTree_walks`: the first walk;
* `ScopeTable.Knows`, `ScopeTable.Resolved`, `ScopeTable.referTree_refs`: the second walk;
* `ScopeTable.resolve_resolved`: the table of a tree.
-/

namespace JsxLint

open Node

namespace ScopeTable

variable {t t' : ScopeTable} {ds : List Declaration} {s : ScopeId} {b : BindingId} {i j : NodeId}
  {x word : String} {f : Bool} {c : List Region} {n m root : Node}

/-! ### Declarations -/

/-- Whether a table lists declarations and nothing else. -/
structure Entered (t : ScopeTable) (ds : List Declaration) : Prop where
  lists : t.Lists ds
  usedIn : ∀ i, t.declared.lookup i = none → t.usedIn.lookup i = none
  unresolved : t.unresolved = []
  referring : t.referring = []

theorem Entered.bindingOf?_eq_none (h : t.Entered ds) (hi : i ∉ ds.map (·.identifier)) :
    t.bindingOf? i = none := by
  rw [bindingOf?, h.referring]
  cases hd : t.declared.lookup i with
  | none => rfl
  | some b =>
    obtain ⟨d, hdm, rfl⟩ := h.lists.declared i (by rw [hd]; rfl)
    exact absurd (List.mem_map_of_mem hdm) hi

theorem declare_usedIn (hi : j ≠ i) :
    (t.declare s i x word).2.usedIn.lookup j = t.usedIn.lookup j := by
  rw [declare]
  split
  · exact (lookup_cons_if ..).trans (if_neg hi)
  · rfl

theorem Entered.declare {scope : NodeId} (h : t.Entered ds) (hs : t.nodeOf? s = some scope)
    (hi : i ∉ ds.map (·.identifier)) :
    (t.declare s i x word).2.Entered (ds ++ [⟨scope, i, x⟩]) where
  lists := h.lists.declare hs (h.bindingOf?_eq_none hi) (by rw [h.unresolved]; exact List.not_mem_nil)
    (adds_append ds _)
  usedIn j hj := by
    rw [declare_declared, lookup_cons_if] at hj
    split_ifs at hj with hji
    rw [declare_usedIn hji]
    exact h.usedIn j hj
  unresolved := (declare_unresolved t s i x word).trans h.unresolved
  referring := (declare_referring t s i x word).trans h.referring

theorem Entered.declareAll {scope : NodeId} {ns : List Node} (h : t.Entered ds)
    (hs : t.nodeOf? s = some scope)
    (hd : (ds.map (·.identifier) ++ (declareIn scope (ns.map entry)).map (·.identifier)).Nodup) :
    (t.declareAll s word ns).Entered (ds ++ declareIn scope (ns.map entry)) ∧
      (t.declareAll s word ns).skeleton = t.skeleton := by
  induction ns generalizing t ds with
  | nil =>
    refine ⟨?_, rfl⟩
    rw [show declareIn scope (List.map entry []) = [] from rfl, List.append_nil]
    exact h
  | cons n ns ih =>
    have hcons : ∀ ds : List Declaration, ds ++ declareIn scope ((n :: ns).map entry) =
        ds ++ [⟨scope, n.id, n.text⟩] ++ declareIn scope (ns.map entry) := by
      intro ds
      rw [List.append_assoc]
      rfl
    have hi : n.id ∉ ds.map (·.identifier) := fun hi =>
      (List.nodup_append.1 hd).2.2 n.id hi n.id List.mem_cons_self rfl
    have hskeleton := declare_skeleton t s n.id n.text word
    have hstep : (t.declare s n.id n.text word).2.Entered _ := h.declare hs hi
    rw [hcons]
    rw [← List.map_append, hcons, List.map_append] at hd
    obtain ⟨h1, h2⟩ := ih hstep ((nodeOf?_congr hskeleton s).trans hs) hd
    exact ⟨h1, h2.trans hskeleton⟩

theorem Entered.openScope {kind : ScopeKind} {node : NodeId} (h : t.Entered ds)
    (hn : node ∉ t.regions.map (·.node)) : (t.openScope kind node s).2.Entered ds :=
  ⟨h.lists.openScope hn, h.usedIn, h.unresolved, h.referring⟩

/-! ### The scope of a node -/

theorem Around.nodeOf? (h : t.Around s c) : t.nodeOf? s = some (Region.nearest c) := by
  obtain ⟨r, rest, rfl, hr⟩ := h.nearest
  rw [ScopeTable.nodeOf?, hr]
  rfl

/-- The scope of a function is the nearest one that is no block. -/
theorem Around.functionScope (h : t.Around s c) (hc : ∃ r ∈ c, r.kind ≠ .block) :
    t.nodeOf? (t.functionScope s) = some (Region.nearestFunction c) := by
  have hchain := h.chain
  rw [ScopeTable.functionScope, Region.nearestFunction]
  generalize t.chain s = ss at hchain
  clear h
  induction hchain with
  | nil =>
    obtain ⟨r, hr, -⟩ := hc
    cases hr
  | @cons s r ss c hr _ ih =>
    have hkind : (t.scopes[s]?).map (·.kind) = some r.kind := by
      rw [regions, skeleton, List.map_map, List.getElem?_map] at hr
      obtain ⟨scope, hs, rfl⟩ := Option.map_eq_some_iff.1 hr
      rw [hs]
      rfl
    rw [List.dropWhile_cons, List.find?_cons, hkind]
    by_cases hb : r.kind = .block
    · rw [hb] at hkind ⊢
      obtain ⟨r', hr', hne⟩ := hc
      have hrest : ∃ r ∈ c, r.kind ≠ .block := by
        rcases List.mem_cons.1 hr' with rfl | hr'
        · exact absurd hb hne
        · exact ⟨r', hr', hne⟩
      have hne : ss ≠ [] := by
        rintro rfl
        obtain ⟨r', hr', -⟩ := hrest
        cases ‹List.Forall₂ _ [] c›
        cases hr'
      rw [if_pos (by rfl), show (ScopeKind.block != ScopeKind.block) = false from rfl]
      rw [List.getLast?_cons_of_ne_nil hne]
      exact ih hrest
    · rw [if_neg (by simpa using hb), show (r.kind != ScopeKind.block) = true from bne_iff_ne.2 hb]
      rw [ScopeTable.nodeOf?, hr]
      rfl

theorem Around.owner (h : t.Around s c) (hc : ∃ r ∈ c, r.kind ≠ .block) (keyword : String) :
    t.nodeOf? (t.owner s keyword) = some (Region.owner c keyword) := by
  rw [ScopeTable.owner, Region.owner]
  split_ifs
  · exact h.functionScope hc
  · exact h.nodeOf?

theorem around_openScope (kind : ScopeKind) (node : NodeId) (h : t.Around s c) :
    (t.openScope kind node s).2.Around (t.openScope kind node s).1 (⟨node, kind⟩ :: c) := by
  have hskeleton := openScope_skeleton t kind node s
  have hlt := lt_of_nodeOf? h.nodeOf?
  refine .inner (p := s) ?_ hlt (h.extend ⟨_, hskeleton.symm⟩)
  rw [hskeleton]
  have hl : t.scopes.length = t.skeleton.length := (List.length_map ..).symm
  show (t.skeleton ++ _)[t.scopes.length]? = _
  rw [hl, List.getElem?_concat_length]

/-- A table with the scope and the declarations of a node in it. -/
structure Enters (t : ScopeTable) (ds : List Declaration) (s : ScopeId) (c : List Region)
    (regions : List Region) (result : ScopeId × ScopeTable) : Prop where
  entered : result.2.Entered ds
  skeleton : result.2.skeleton = t.skeleton ++ regions.map fun r => (r, some s)
  around : result.2.Around result.1 (regions ++ c)

theorem Enters.regions {rs : List Region} {result : ScopeId × ScopeTable}
    (h : t.Enters ds s c rs result) : result.2.regions = t.regions ++ rs := by
  rw [ScopeTable.regions, h.skeleton, List.map_append, List.map_map, ← ScopeTable.regions]
  exact congrArg _ (List.map_id' _)

theorem Entered.enterFunction (h : t.Entered ds) (own : Option Node) (ha : t.Around s c)
    (hd : (ds.map (·.identifier) ++ (declareIn n.id (own.toList.map entry) ++
      declareIn n.id (n.parameterNames.map entry)).map (·.identifier)).Nodup)
    (hn : n.id ∉ t.regions.map (·.node)) :
    t.Enters (ds ++ (declareIn n.id (own.toList.map entry) ++
      declareIn n.id (n.parameterNames.map entry))) s c [⟨n.id, .function⟩]
      (t.enterFunction s n own) := by
  have hopen : (t.openScope .function n.id s).2.Entered ds := h.openScope hn
  have haround := around_openScope .function n.id ha
  rw [List.map_append, ← List.append_assoc] at hd
  obtain ⟨h1, hs1⟩ := hopen.declareAll haround.nodeOf? (List.nodup_append.1 hd).1
  rw [← List.map_append] at hd
  obtain ⟨h2, hs2⟩ := h1.declareAll
    ((nodeOf?_congr hs1 _).trans haround.nodeOf?) hd
  have hskeleton := hs2.trans hs1
  rw [List.append_assoc] at h2
  exact ⟨h2, hskeleton.trans (openScope_skeleton ..), haround.extend (hskeleton ▸ List.prefix_refl _)⟩

theorem Entered.declareClass {kind : String} (h : t.Entered ds) (ha : t.Around s c)
    (hd : (ds.map (·.identifier) ++ (n.declaresClass c kind).map (·.identifier)).Nodup) :
    (t.declareClass s kind n).Entered (ds ++ n.declaresClass c kind) ∧
      (t.declareClass s kind n).skeleton = t.skeleton := by
  rw [Node.declaresClass] at hd ⊢
  rw [ScopeTable.declareClass]
  split_ifs at hd ⊢
  · exact h.declareAll ha.nodeOf? hd
  · rw [List.append_nil]
    exact ⟨h, rfl⟩

theorem Entered.declareHead {kind : String} {keyword : Option String} (h : t.Entered ds)
    (ha : t.Around s (⟨n.id, .block⟩ :: c)) (hc : ∃ r ∈ c, r.kind ≠ .block)
    (hd : (ds.map (·.identifier) ++ (n.declaresHead c kind keyword).map (·.identifier)).Nodup) :
    (t.declareHead s kind keyword n).Entered (ds ++ n.declaresHead c kind keyword) ∧
      (t.declareHead s kind keyword n).skeleton = t.skeleton := by
  have hnil : t.Entered (ds ++ []) := (List.append_nil ds).symm ▸ h
  rw [Node.declaresHead.eq_def] at hd ⊢
  rw [ScopeTable.declareHead.eq_def]
  split_ifs at hd ⊢
  · exact h.declareAll ha.nodeOf? hd
  · cases keyword with
    | none => exact ⟨hnil, rfl⟩
    | some word =>
      dsimp only at hd ⊢
      split_ifs at hd ⊢
      · exact ⟨hnil, rfl⟩
      · obtain ⟨r, hr, hk⟩ := hc
        exact h.declareAll (ha.owner ⟨r, List.mem_cons_of_mem _ hr, hk⟩ word) hd
  · exact ⟨hnil, rfl⟩

/-- Only loops and `catch` clauses, which open scopes, have a head. -/
theorem declaresHead_of_not_block {kind : String} {keyword : Option String}
    (hk : ¬blockKinds.contains kind) : n.declaresHead c kind keyword = [] := by
  rw [Node.declaresHead.eq_def, if_neg, if_neg]
  · rintro rfl
    exact hk rfl
  · rintro rfl
    exact hk rfl

/-- A function declaration declares its name around it and opens a scope of its own. -/
theorem Entered.enterDeclaration (h : t.Entered ds) (ha : t.Around s c)
    (hd : (ds.map (·.identifier) ++ (declareIn (Region.nearest c)
      ((n.function?.bind (·.name)).toList.map entry) ++
        declareIn n.id (n.parameterNames.map entry)).map (·.identifier)).Nodup)
    (hn : n.id ∉ t.regions.map (·.node)) :
    t.Enters (ds ++ (declareIn (Region.nearest c) ((n.function?.bind (·.name)).toList.map entry) ++
      declareIn n.id (n.parameterNames.map entry))) s c [⟨n.id, .function⟩]
      ((t.declareAll s "function" (n.function?.bind (·.name)).toList).enterFunction s n none) := by
  rw [List.map_append, ← List.append_assoc] at hd
  obtain ⟨h1, hs1⟩ := h.declareAll ha.nodeOf? (List.nodup_append.1 hd).1
  rw [← List.map_append] at hd
  have hr : (t.declareAll s "function" (n.function?.bind (·.name)).toList).regions = t.regions :=
    congrArg (List.map _) hs1
  have h2 := h1.enterFunction none (ha.extend (hs1 ▸ List.prefix_refl _)) hd (hr ▸ hn)
  rw [← List.append_assoc]
  exact ⟨h2.entered, h2.skeleton.trans (by rw [hs1]), h2.around⟩

/-- Declarations that open no scope. -/
theorem Entered.unopened {ds' : List Declaration} (h : t'.Entered (ds ++ ds'))
    (hs : t'.skeleton = t.skeleton) (ha : t.Around s c) : t.Enters (ds ++ ds') s c [] (s, t') :=
  ⟨h, hs.trans (List.append_nil _).symm, ha.extend (hs ▸ List.prefix_refl _)⟩

/-- A class declares its name around it; a loop and a `catch` clause open a scope and declare what
is in their heads there. -/
theorem Entered.enterOther {kind : String} {keyword : Option String}
    (h : t.Entered ds) (ha : t.Around s c) (hc : ∃ r ∈ c, r.kind ≠ .block)
    (hd : (ds.map (·.identifier) ++ (n.declaresClass c kind ++
      n.declaresHead c kind keyword).map (·.identifier)).Nodup)
    (hn : blockKinds.contains kind → n.id ∉ t.regions.map (·.node)) :
    t.Enters (ds ++ (n.declaresClass c kind ++ n.declaresHead c kind keyword)) s c
      (if blockKinds.contains kind then some ⟨n.id, .block⟩ else none : Option Region).toList
      (if blockKinds.contains kind then
        (((t.declareClass s kind n).openScope .block n.id s).1,
          ((t.declareClass s kind n).openScope .block n.id s).2.declareHead
            ((t.declareClass s kind n).openScope .block n.id s).1 kind keyword n)
        else (s, t.declareClass s kind n)) := by
  rw [List.map_append, ← List.append_assoc] at hd
  obtain ⟨h1, hs1⟩ := h.declareClass ha (List.nodup_append.1 hd).1
  rw [← List.map_append] at hd
  have ha1 : (t.declareClass s kind n).Around s c := ha.extend (hs1 ▸ List.prefix_refl _)
  have hr : (t.declareClass s kind n).regions = t.regions := congrArg (List.map _) hs1
  rw [← List.append_assoc]
  split_ifs with hk
  · have h2 : ((t.declareClass s kind n).openScope .block n.id s).2.Entered _ :=
      h1.openScope (hr ▸ hn hk)
    have ha2 := around_openScope .block n.id ha1
    obtain ⟨h3, hs3⟩ := h2.declareHead ha2 hc hd
    refine ⟨h3, ?_, ha2.extend (hs3 ▸ List.prefix_refl _)⟩
    rw [hs3, openScope_skeleton, hs1]
    rfl
  · rw [declaresHead_of_not_block hk, List.append_nil]
    exact h1.unopened hs1 ha

/-- The first walk enters the scope and the declarations of a node. -/
theorem Entered.enter (h : t.Entered ds) (ha : t.Around s c) (hc : ∃ r ∈ c, r.kind ≠ .block)
    (hd : (ds.map (·.identifier) ++ (n.declares c).map (·.identifier)).Nodup)
    (hn : (n.region? f).isSome → n.id ∉ t.regions.map (·.node)) :
    t.Enters (ds ++ n.declares c) s c (n.region? f).toList (t.enter f s n) := by
  have hnone : t.Enters (ds ++ []) s c [] (s, t) :=
    Entered.unopened ((List.append_nil ds).symm ▸ h) rfl ha
  rw [Node.declares.eq_def] at hd ⊢
  rw [Node.region?.eq_def] at hn ⊢
  rw [ScopeTable.enter.eq_def]
  cases hl : n.label with
  | functionDeclaration hasName =>
    rw [hl] at hd hn
    exact h.enterDeclaration ha hd (hn rfl)
  | functionExpression hasName =>
    rw [hl] at hd hn
    exact h.enterFunction _ ha hd (hn rfl)
  | arrowFunction =>
    rw [hl] at hd hn
    exact h.enterFunction none ha hd (hn rfl)
  | block =>
    rw [hl] at hn
    cases f with
    | true => exact hnone
    | false =>
      dsimp only
      rw [List.append_nil]
      exact ⟨h.openScope (hn rfl), openScope_skeleton .., around_openScope _ _ ha⟩
  | variableDeclaration keyword =>
    rw [hl] at hd
    obtain ⟨h1, hs1⟩ := h.declareAll (ha.owner hc keyword) hd
    exact h1.unopened hs1 ha
  | importDeclaration =>
    rw [hl] at hd
    obtain ⟨h1, hs1⟩ := h.declareAll ha.nodeOf? hd
    exact h1.unopened hs1 ha
  | other kind fields keyword =>
    rw [hl] at hd hn
    exact h.enterOther ha hc hd fun hk => hn (congrArg Option.isSome (if_pos hk))
  | _ => exact hnone

/-! ### The first walk -/

theorem declareTree_eq (t : ScopeTable) (f : Bool) (s : ScopeId) (n : Node) :
    t.declareTree f s n = (t.enter f s n).2.declareTrees n.label.isFunction (t.enter f s n).1
      n.children := by
  cases n
  rfl

/-- Whether trees can be entered: nothing in them is there yet. -/
structure Ready (t : ScopeTable) (ds : List Declaration) (s : ScopeId) (f : Bool) (c : List Region)
    (ns : List Node) : Prop where
  entered : t.Entered ds
  around : t.Around s c
  outer : ∃ r ∈ c, r.kind ≠ .block
  declaring : (ds.map (·.identifier) ++
    (ns.flatMap (declarations f c)).map (·.identifier)).Nodup
  regions : (t.regions.map (·.node) ++ (ns.flatMap (Node.regions f c)).map (·.node)).Nodup

/-- A table with the scopes and declarations of trees in it. -/
structure Walks (t t' : ScopeTable) (ds : List Declaration) (f : Bool) (c : List Region)
    (ns : List Node) : Prop where
  entered : t'.Entered (ds ++ ns.flatMap (declarations f c))
  skeleton : t.skeleton <+: t'.skeleton
  regions : t'.regions = t.regions ++ ns.flatMap (Node.regions f c)
  around : ∀ n ∈ ns, ∀ p ∈ n.spots f c, ∃ s, t'.Around s (p.node.inner p.inFunction p.around)

section Ready

variable {ns : List Node}

theorem Ready.first (h : Ready t ds s f c (n :: ns)) : Ready t ds s f c [n] := by
  obtain ⟨hent, ha, hc, hd, hr⟩ := h
  rw [List.flatMap_cons, List.map_append, ← List.append_assoc] at hd hr
  exact ⟨hent, ha, hc, by simpa using (List.nodup_append.1 hd).1,
    by simpa using (List.nodup_append.1 hr).1⟩

/-- The other trees can be entered when the first one is in the table. -/
theorem Ready.rest (h : Ready t ds s f c (n :: ns)) (hw : Walks t t' ds f c [n]) :
    Ready t' (ds ++ n.declarations f c) s f c ns := by
  obtain ⟨-, ha, hc, hd, hr⟩ := h
  obtain ⟨hent, hs, hregions, -⟩ := hw
  rw [List.flatMap_cons, List.map_append, ← List.append_assoc, ← List.map_append] at hd hr
  rw [List.flatMap_singleton] at hent hregions
  rw [← hregions] at hr
  exact ⟨hent, ha.extend hs, hc, hd, hr⟩

/-- A tree that can be entered opens no scope that is there. -/
theorem Ready.not_mem_regions (h : Ready t ds s f c [n]) (hs : (n.region? f).isSome) :
    n.id ∉ t.regions.map (·.node) := by
  intro hm
  obtain ⟨-, -, -, -, hr⟩ := h
  rw [List.flatMap_singleton, regions_eq, List.map_append, ← List.append_assoc] at hr
  obtain ⟨r, hrn⟩ := Option.isSome_iff_exists.1 hs
  have hnode := region?_node hrn
  rw [hrn] at hr
  exact (List.nodup_append.1 (List.nodup_append.1 hr).1).2.2 n.id hm n.id
    (by rw [← hnode]; exact List.mem_cons_self) rfl

theorem Ready.declares_nodup (h : Ready t ds s f c [n]) :
    (ds.map (·.identifier) ++ (n.declares c).map (·.identifier)).Nodup := by
  have hd := h.declaring
  rw [List.flatMap_singleton, declarations_eq, List.map_append, ← List.append_assoc] at hd
  exact (List.nodup_append.1 hd).1

theorem Ready.enter (h : Ready t ds s f c [n]) :
    t.Enters (ds ++ n.declares c) s c (n.region? f).toList (t.enter f s n) :=
  h.entered.enter h.around h.outer h.declares_nodup h.not_mem_regions

/-- The children of a node can be entered when the node itself is in the table. -/
theorem Ready.children (h : Ready t ds s f c [n]) : Ready (t.enter f s n).2 (ds ++ n.declares c)
    (t.enter f s n).1 n.label.isFunction (n.inner f c) n.children := by
  have h1 := h.enter
  obtain ⟨-, -, ⟨r, hrc, hk⟩, hd, hr⟩ := h
  rw [List.flatMap_singleton, declarations_eq, List.map_append, ← List.append_assoc,
    ← List.map_append] at hd
  rw [List.flatMap_singleton, regions_eq, List.map_append, ← List.append_assoc,
    ← List.map_append] at hr
  rw [← h1.regions] at hr
  exact ⟨h1.entered, h1.around, ⟨r, List.mem_append_right _ hrc, hk⟩, hd, hr⟩

end Ready

theorem declareTrees_walks {ns : List Node} (hns : ∀ n ∈ ns, ∀ t ds s f c,
    Ready t ds s f c [n] → Walks t (t.declareTree f s n) ds f c [n])
    (h : Ready t ds s f c ns) : Walks t (t.declareTrees f s ns) ds f c ns := by
  induction ns generalizing t ds with
  | nil =>
    refine ⟨?_, List.prefix_refl _, (List.append_nil _).symm, fun n hn => by cases hn⟩
    rw [List.flatMap_nil, List.append_nil]
    exact h.entered
  | cons n ns ih =>
    have h1 := hns n List.mem_cons_self t ds s f c h.first
    obtain ⟨hent2, hs2, hr2, ha2⟩ := ih (fun m hm => hns m (List.mem_cons_of_mem _ hm)) (h.rest h1)
    obtain ⟨-, hs1, hr1, ha1⟩ := h1
    rw [List.flatMap_singleton] at hr1
    refine ⟨?_, hs1.trans hs2, ?_, fun m hm p hp => ?_⟩
    · rw [List.flatMap_cons, ← List.append_assoc]
      exact hent2
    · rw [declareTrees, hr2, hr1, List.flatMap_cons, List.append_assoc]
    · rcases List.mem_cons.1 hm with rfl | hm
      · obtain ⟨s', h'⟩ := ha1 m List.mem_cons_self p hp
        exact ⟨s', h'.extend hs2⟩
      · exact ha2 m hm p hp

/-- The first walk enters the scopes and declarations of a tree. -/
theorem declareTree_walks (n : Node) (t : ScopeTable) (ds : List Declaration) (s : ScopeId)
    (f : Bool) (c : List Region) (h : Ready t ds s f c [n]) :
    Walks t (t.declareTree f s n) ds f c [n] := by
  induction n using Node.induct generalizing t ds s f c with
  | step n ih =>
    obtain ⟨-, hs1, ha1⟩ := h.enter
    obtain ⟨h2, hs2, hr2, ha2⟩ := declareTrees_walks ih h.children
    have hs : t.skeleton <+: (t.enter f s n).2.skeleton := ⟨_, hs1.symm⟩
    rw [declareTree_eq]
    refine ⟨?_, hs.trans hs2, ?_, fun m hm p hp => ?_⟩
    · rw [List.flatMap_singleton, declarations_eq, ← List.append_assoc]
      exact h2
    · rw [hr2, h.enter.regions, List.flatMap_singleton, regions_eq, List.append_assoc]
    · cases List.mem_singleton.1 hm
      rcases mem_spots.1 hp with rfl | ⟨k, hk, hp⟩
      · exact ⟨_, ha1.extend hs2⟩
      · exact ha2 k hk p hp

/-! ### References -/

/-- Whether a table has the binding of a name, used in a scope by an identifier that declares
nothing: it belongs to the binding that the scope sees, or is unresolved. -/
structure Refers (t : ScopeTable) (u : Use) (s : ScopeId) : Prop where
  around : t.Around s u.around
  binding : t.bindingOf? u.identifier = t.lookup? s u.name
  usedIn : (t.bindingOf? u.identifier).isSome → t.usedIn.lookup u.identifier = some s
  unresolved : t.bindingOf? u.identifier = none →
    t.usedIn.lookup u.identifier = none ∧ u.identifier ∈ t.unresolved

/-- Whether a table knows what a use of a name refers to that declares nothing. -/
def Knows (t : ScopeTable) (u : Use) : Prop :=
  ∃ s, t.Refers u s

/-- Whether a table lists declarations and knows some uses, and none but these. -/
structure Resolved (t : ScopeTable) (ds : List Declaration) (us : List Use) : Prop where
  lists : t.Lists ds
  knows : ∀ u ∈ us, t.declared.lookup u.identifier = none → t.Knows u
  unused : ∀ i, t.declared.lookup i = none → (∀ u ∈ us, u.identifier ≠ i) →
    t.bindingOf? i = none ∧ t.usedIn.lookup i = none ∧ i ∉ t.unresolved

theorem Entered.resolved (h : t.Entered ds) : t.Resolved ds [] where
  lists := h.lists
  knows u hu := by cases hu
  unused i hi _ := by
    refine ⟨?_, h.usedIn i hi, by rw [h.unresolved]; exact List.not_mem_nil⟩
    rw [bindingOf?, hi, h.referring]
    rfl

theorem lookup?_congr (hs : t'.scopes = t.scopes) (s : ScopeId) (x : String) :
    t'.lookup? s x = t.lookup? s x := by
  have hchain := chain_congr (congrArg (List.map _) hs : t'.skeleton = t.skeleton) s
  rw [lookup?, lookup?, hchain]
  simp only [bound?, hs]

/-- What a table knows of a use it still knows when others are noted. -/
theorem Refers.keep {u : Use} (h : t.Refers u s) (hs : t'.scopes = t.scopes)
    (hb : t'.bindingOf? u.identifier = t.bindingOf? u.identifier)
    (hu : t'.usedIn.lookup u.identifier = t.usedIn.lookup u.identifier)
    (hl : ∀ i ∈ t.unresolved, i ∈ t'.unresolved) : t'.Refers u s where
  around := h.around.keep hs
  binding := by rw [hb, h.binding, lookup?_congr hs]
  usedIn hi := hu.trans (h.usedIn (hb ▸ hi))
  unresolved hi :=
    let ⟨h1, h2⟩ := h.unresolved (hb ▸ hi)
    ⟨hu.trans h1, hl _ h2⟩

/-- The second walk notes what a use refers to. -/
theorem Resolved.step {us : List Use} {u : Use} (h : t.Resolved ds us) (ha : t.Around s u.around)
    (hu : ∀ v ∈ us, v.identifier ≠ u.identifier) (hd : t.declared.lookup u.identifier = none) :
    (match t.lookup? s u.name with
      | some b => t.refer b u.identifier s
      | none => t.addUnresolved u.identifier).Resolved ds (us ++ [u]) := by
  obtain ⟨hnone, hused, hnew⟩ := h.unused u.identifier hd hu
  have hne : ∀ i, (∀ v ∈ us ++ [u], v.identifier ≠ i) →
      (∀ v ∈ us, v.identifier ≠ i) ∧ i ≠ u.identifier := fun i hi =>
    ⟨fun v hv => hi v (List.mem_append_left _ hv),
      Ne.symm (hi u (List.mem_append_right _ List.mem_cons_self))⟩
  cases hl : t.lookup? s u.name with
  | some b =>
    obtain ⟨r, hr, hb⟩ := List.exists_of_findSome?_eq_some hl
    obtain ⟨B, hB, -⟩ := (h.lists.bound_iff _ _ _).1 hb
    have hof := refer_bindingOf? (b := b) (s := s) hnone
    have husedIn : ∀ j, (t.refer b u.identifier s).usedIn.lookup j =
        if j = u.identifier then some s else t.usedIn.lookup j := fun j => lookup_cons_if ..
    refine ⟨h.lists.refer hB hnone hnew, fun v hv hvd => ?_, fun i hi hn => ?_⟩
    · rcases List.mem_append.1 hv with hv | hv
      · obtain ⟨r, hr⟩ := h.knows v hv hvd
        refine ⟨r, hr.keep rfl ?_ ?_ fun i hi => hi⟩
        · rw [hof, if_neg (hu v hv)]
        · rw [husedIn, if_neg (hu v hv)]
      · cases List.mem_singleton.1 hv
        have hself : (t.refer b u.identifier s).bindingOf? u.identifier = some b := by
          rw [hof, if_pos rfl]
        have hscopes : (t.refer b u.identifier s).scopes = t.scopes := rfl
        have hlook := lookup?_congr hscopes s u.name
        refine ⟨s, ha.extend (List.prefix_refl _), ?_, fun _ => ?_, fun hn => ?_⟩
        · exact hself.trans (hl.symm.trans hlook.symm)
        · rw [husedIn, if_pos rfl]
        · rw [hself] at hn
          cases hn
    · obtain ⟨hn, hni⟩ := hne i hn
      rw [hof, husedIn, if_neg hni, if_neg hni]
      exact h.unused i hi hn
  | none =>
    refine ⟨h.lists.addUnresolved hnone, fun v hv hvd => ?_, fun i hi hn => ?_⟩
    · rcases List.mem_append.1 hv with hv | hv
      · obtain ⟨r, hr⟩ := h.knows v hv hvd
        exact ⟨r, hr.keep rfl rfl rfl fun i hi => List.mem_append_left _ hi⟩
      · cases List.mem_singleton.1 hv
        have hscopes : (t.addUnresolved u.identifier).scopes = t.scopes := rfl
        have hlook := lookup?_congr hscopes s u.name
        refine ⟨s, ha.extend (List.prefix_refl _), ?_, fun hs => ?_, fun _ => ?_⟩
        · exact hnone.trans (hl.symm.trans hlook.symm)
        · rw [show (t.addUnresolved u.identifier).bindingOf? u.identifier = none from hnone] at hs
          cases hs
        · exact ⟨hused, List.mem_append_right _ List.mem_cons_self⟩
    · obtain ⟨hn, hni⟩ := hne i hn
      obtain ⟨h1, h2, h3⟩ := h.unused i hi hn
      refine ⟨h1, h2, fun hm => ?_⟩
      rcases List.mem_append.1 hm with hm | hm
      · exact h3 hm
      · exact hni (List.mem_singleton.1 hm)

/-- A declared identifier refers to nothing. -/
theorem Resolved.skip {us : List Use} {u : Use} (h : t.Resolved ds us)
    (hd : (t.declared.lookup u.identifier).isSome) : t.Resolved ds (us ++ [u]) where
  lists := h.lists
  knows v hv hvd := by
    rcases List.mem_append.1 hv with hv | hv
    · exact h.knows v hv hvd
    · cases List.mem_singleton.1 hv
      rw [hvd] at hd
      cases hd
  unused i hi hn := h.unused i hi fun v hv => hn v (List.mem_append_left _ hv)

theorem referNode_scopes (t : ScopeTable) (s : ScopeId) (id : NodeId) (label : Label) :
    (t.referNode s id label).scopes = t.scopes ∧
      (t.referNode s id label).declared = t.declared := by
  rw [referNode.eq_def]
  split
  · split_ifs
    · exact ⟨rfl, rfl⟩
    · split <;> exact ⟨rfl, rfl⟩
  · exact ⟨rfl, rfl⟩

/-- The second walk notes what a node refers to when it is an identifier. -/
theorem Resolved.referNode {us : List Use} (h : t.Resolved ds us) (ha : t.Around s c)
    (hd : (us.map (·.identifier) ++ (n.use? c).toList.map (·.identifier)).Nodup) :
    (t.referNode s n.id n.label).Resolved ds (us ++ (n.use? c).toList) := by
  rw [referNode.eq_def]
  cases hl : n.label with
  | identifier name written shorthand =>
    have hu : n.use? c = some ⟨n.id, name, c⟩ := by
      rw [use?, if_pos (by rw [hl]; rfl), Node.text, hl]
      rfl
    rw [hu] at hd ⊢
    dsimp only [Option.toList_some]
    rw [isDeclaration]
    split_ifs with hdecl
    · exact h.skip hdecl
    · refine h.step (u := ⟨n.id, name, c⟩) ha (fun v hv he => ?_) ?_
      · exact (List.nodup_append.1 hd).2.2 _ (List.mem_map_of_mem hv) _ List.mem_cons_self he
      · exact Option.not_isSome_iff_eq_none.1 hdecl
  | _ =>
    have hu : n.use? c = none := by
      rw [use?, if_neg]
      rw [hl]
      exact Bool.false_ne_true
    rw [hu, Option.toList_none, List.append_nil]
    exact h

/-! ### The second walk -/

/-- Whether a table has the scope that a node opens. -/
def OpensAt (t : ScopeTable) (p : Spot) : Prop :=
  ∀ s, t.Around s p.around →
    t.Around ((t.scopeOpenedBy? p.node.id).getD s) (p.node.inner p.inFunction p.around)

theorem OpensAt.keep {p : Spot} (h : t.OpensAt p) (hs : t'.scopes = t.scopes) : t'.OpensAt p := by
  intro s ha
  rw [scopeOpenedBy?, hs, ← scopeOpenedBy?]
  exact (h s (ha.keep hs.symm)).keep hs

theorem referTree_eq (t : ScopeTable) (s : ScopeId) (n : Node) : t.referTree s n =
    (t.referNode ((t.scopeOpenedBy? n.id).getD s) n.id n.label).referTrees
      ((t.scopeOpenedBy? n.id).getD s) n.children := by
  cases n
  rfl

/-- An identifier opens no scope. -/
theorem use?_inner (f : Bool) (c : List Region) (n : Node) : n.use? (n.inner f c) = n.use? c := by
  rw [use?, use?]
  split_ifs with hi
  · rw [Node.inner, region?_of_identifier hi]
    rfl
  · rfl

theorem referTrees_scopes {ns : List Node} (hns : ∀ n ∈ ns, ∀ t s,
    (referTree t s n).scopes = t.scopes ∧ (referTree t s n).declared = t.declared) (t : ScopeTable)
    (s : ScopeId) :
    (t.referTrees s ns).scopes = t.scopes ∧ (t.referTrees s ns).declared = t.declared := by
  induction ns generalizing t with
  | nil => exact ⟨rfl, rfl⟩
  | cons n ns ih =>
    obtain ⟨hs1, hd1⟩ := hns n List.mem_cons_self t s
    obtain ⟨hs2, hd2⟩ := ih (fun m hm => hns m (List.mem_cons_of_mem _ hm)) (t.referTree s n)
    exact ⟨hs2.trans hs1, hd2.trans hd1⟩

/-- The second walk opens no scope and declares nothing. -/
theorem referTree_scopes (n : Node) (t : ScopeTable) (s : ScopeId) :
    (t.referTree s n).scopes = t.scopes ∧ (t.referTree s n).declared = t.declared := by
  induction n using Node.induct generalizing t s with
  | step n ih =>
    rw [referTree_eq]
    obtain ⟨hs1, hd1⟩ := referNode_scopes t ((t.scopeOpenedBy? n.id).getD s) n.id n.label
    obtain ⟨hs2, hd2⟩ := referTrees_scopes ih
      (t.referNode ((t.scopeOpenedBy? n.id).getD s) n.id n.label) ((t.scopeOpenedBy? n.id).getD s)
    exact ⟨hs2.trans hs1, hd2.trans hd1⟩

/-- A table in which the uses in trees are resolved as well. -/
structure Refs (t t' : ScopeTable) (ds : List Declaration) (us new : List Use) : Prop where
  resolved : t'.Resolved ds (us ++ new)
  scopes : t'.scopes = t.scopes
  declared : t'.declared = t.declared

theorem referTrees_refs {us : List Use} {ns : List Node} (hns : ∀ n ∈ ns, ∀ t us s f c,
    t.Resolved ds us → t.Around s c → (∀ p ∈ n.spots f c, t.OpensAt p) →
    (us.map (·.identifier) ++ (n.uses f c).map (·.identifier)).Nodup →
    Refs t (t.referTree s n) ds us (n.uses f c))
    (h : t.Resolved ds us) (ha : t.Around s c) (ho : ∀ n ∈ ns, ∀ p ∈ n.spots f c, t.OpensAt p)
    (hd : (us.map (·.identifier) ++ (ns.flatMap (uses f c)).map (·.identifier)).Nodup) :
    Refs t (t.referTrees s ns) ds us (ns.flatMap (uses f c)) := by
  induction ns generalizing t us with
  | nil =>
    refine ⟨?_, rfl, rfl⟩
    rw [List.flatMap_nil, List.append_nil]
    exact h
  | cons n ns ih =>
    rw [List.flatMap_cons, List.map_append, ← List.append_assoc] at hd
    obtain ⟨h1, hs1, hd1⟩ := hns n List.mem_cons_self t us s f c h ha (ho n List.mem_cons_self)
      (List.nodup_append.1 hd).1
    rw [← List.map_append] at hd
    have ha1 : (t.referTree s n).Around s c :=
      ha.keep hs1
    obtain ⟨h2, hs2, hd2⟩ := ih (fun m hm => hns m (List.mem_cons_of_mem _ hm)) h1 ha1
      (fun m hm p hp => (ho m (List.mem_cons_of_mem _ hm) p hp).keep hs1) hd
    refine ⟨?_, hs2.trans hs1, hd2.trans hd1⟩
    rw [List.flatMap_cons, ← List.append_assoc]
    exact h2

/-- The second walk resolves the uses in a tree. -/
theorem referTree_refs (n : Node) (t : ScopeTable) (us : List Use) (s : ScopeId) (f : Bool)
    (c : List Region) (h : t.Resolved ds us) (ha : t.Around s c)
    (ho : ∀ p ∈ n.spots f c, t.OpensAt p)
    (hd : (us.map (·.identifier) ++ (n.uses f c).map (·.identifier)).Nodup) :
    Refs t (t.referTree s n) ds us (n.uses f c) := by
  induction n using Node.induct generalizing t us s f c with
  | step n ih =>
    have ha1 := ho ⟨n, f, c⟩ (mem_spots.2 (.inl rfl)) s ha
    rw [uses_eq, ← use?_inner f c n] at hd ⊢
    rw [List.map_append, ← List.append_assoc] at hd
    obtain ⟨hs1, hd1⟩ := referNode_scopes t ((t.scopeOpenedBy? n.id).getD s) n.id n.label
    have h1 := h.referNode ha1 (List.nodup_append.1 hd).1
    rw [← List.map_append] at hd
    obtain ⟨h2, hs2, hd2⟩ := referTrees_refs ih h1
      (ha1.keep hs1)
      (fun k hk p hp => (ho p (mem_spots.2 (.inr ⟨k, hk, hp⟩))).keep hs1) hd
    rw [referTree_eq]
    refine ⟨?_, hs2.trans hs1, hd2.trans hd1⟩
    rw [← List.append_assoc]
    exact h2

/-! ### The table of a tree -/

theorem Lists.scopeOpenedBy?_eq (h : t.Lists ds) {id : NodeId} (hs : t.nodeOf? s = some id) :
    t.scopeOpenedBy? id = some s := by
  have hlt := lt_of_nodeOf? hs
  cases ho : t.scopeOpenedBy? id with
  | none =>
    rw [nodeOf?_eq] at hs
    obtain ⟨scope, hscope, rfl⟩ := Option.map_eq_some_iff.1 hs
    have := List.findIdx?_eq_none_iff.1 ho scope (List.mem_of_getElem? hscope)
    simp at this
  | some r =>
    obtain ⟨hr, hp, -⟩ := List.findIdx?_eq_some_iff_getElem.1 ho
    have hnode : t.nodeOf? r = some id := by
      rw [nodeOf?_eq, List.getElem?_eq_getElem hr]
      exact congrArg some (beq_iff_eq.1 hp)
    rw [h.scope_eq hs hnode]

theorem scopeOpenedBy?_eq_none {id : NodeId} (h : id ∉ t.regions.map (·.node)) :
    t.scopeOpenedBy? id = none := by
  refine List.findIdx?_eq_none_iff.2 fun scope hs => beq_false_of_ne fun he => h ?_
  rw [regions, skeleton, List.map_map, List.map_map]
  exact List.mem_map.2 ⟨scope, hs, he⟩

/-- What holds before the first walk. -/
theorem ofProgram_ready (hd : root.ids.Nodup) (hs : ∀ n ∈ root.walk, n.ListsParameters)
    (hl : root.label = .program) :
    Ready (ofProgram root.id) [] 0 false root.program [root] where
  entered := by
    refine ⟨⟨List.nodup_singleton _, fun s x b => ?_, fun b B hB => ?_, fun d hd => ?_,
      fun i hi => ?_, fun i b => ?_, fun i hi => ?_⟩, fun _ _ => rfl, rfl, rfl⟩
    · have hnone : (ofProgram root.id).bound? s x = none := by
        rw [bound?]
        cases s with
        | zero => rfl
        | succ s => rfl
      rw [hnone]
      constructor
      · intro h
        cases h
      · rintro ⟨B, hB, -⟩
        cases hB
    · cases hB
    · cases hd
    · cases hi
    · constructor
      · intro h
        cases h
      · rintro ⟨B, hB, -⟩
        cases hB
    · cases hi
  around := .top rfl
  outer := ⟨_, List.mem_cons_self, fun h => by cases h⟩
  declaring := by
    rw [List.flatMap_singleton]
    exact declaring_nodup hd hs
  regions := by
    rw [List.flatMap_singleton, ← List.map_append]
    exact regions_nodup hd hl

/-- The table of a tree lists its declarations, knows its uses, and has its scopes one inside the
other. -/
theorem resolve_resolved (hd : root.ids.Nodup) (hs : ∀ n ∈ root.walk, n.ListsParameters)
    (hl : root.label = .program) :
    (resolve root).Resolved (root.declarations false root.program)
        (root.uses false root.program) ∧
      (resolve root).regions = root.program ++ root.regions false root.program ∧
      (resolve root).Around 0 root.program ∧
      ∀ p ∈ root.spots false root.program, (resolve root).OpensAt p := by
  obtain ⟨hent, hskeleton, hregions, haround⟩ :=
    declareTree_walks root _ _ _ _ _ (ofProgram_ready hd hs hl)
  rw [List.nil_append, List.flatMap_singleton] at hent
  rw [List.flatMap_singleton] at hregions
  generalize ht : (ofProgram root.id).declareTree false 0 root = t at *
  have htop : t.Around 0 root.program := (Around.top rfl).extend hskeleton
  have hself : (⟨root, false, root.program⟩ : Spot) ∈ root.spots false root.program :=
    mem_spots.2 (.inl rfl)
  have hopens : ∀ p ∈ root.spots false root.program, t.OpensAt p := by
    intro p hp s ha
    cases hr : p.node.region? p.inFunction with
    | some r =>
      obtain ⟨s', ha'⟩ := haround root List.mem_cons_self p hp
      have hnode := ha'.nodeOf?
      rw [Node.inner, hr] at hnode
      have hid : t.nodeOf? s' = some p.node.id := hnode.trans (congrArg some (region?_node hr))
      rw [hent.lists.scopeOpenedBy?_eq hid]
      exact ha'
    | none =>
      rw [Node.inner, hr]
      by_cases hroot : p.node.id = root.id
      · -- the program itself has its scope from the start
        cases spot_eq hd hp hself hroot
        have hopened : t.scopeOpenedBy? root.id = some 0 :=
          hent.lists.scopeOpenedBy?_eq htop.nodeOf?
        rw [hopened]
        exact htop
      · rw [scopeOpenedBy?_eq_none (hregions ▸ not_mem_regions hd hp hroot hr)]
        exact ha
  obtain ⟨hres, hscopes, -⟩ := referTree_refs root t [] 0 false root.program hent.resolved htop hopens
    ((uses_sublist root _ _).nodup hd)
  rw [resolve, ht]
  refine ⟨hres, ?_, htop.keep hscopes, fun p hp => (hopens p hp).keep hscopes⟩
  rw [ScopeTable.regions, skeleton, hscopes]
  exact hregions

end ScopeTable
end JsxLint
