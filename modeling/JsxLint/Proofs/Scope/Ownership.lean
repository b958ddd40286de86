import JsxLint.Proofs.Scope.Books
import JsxLint.Proofs.Scope.Reordering

/-!
# Where names belong

Name resolution gives every identifier of a tree one place: it declares a binding, refers to the
nearest binding of its name, or is unresolved because no scope around it has the name. Which scope
a declaration enters is a matter of the syntax that makes it.

* `Reach`, `Node.Declares`: what a node declares, and how far the names reach;
* `ScopeTable.scopesAbove`, `ScopeTable.reached?`: the scopes that the nodes above a node open;
* `ScopeTable.Accounts`: a table accounts for every identifier of a tree;
* `ScopeTable.resolve_accounts`: name resolution makes such a table.
-/

namespace JsxLint

/-! ### Declarations by syntax -/

/-- The scope that owns a name, seen from the node that declares it. -/
inductive Reach
  /-- The scope that the node opens. -/
  | within
  /-- The innermost scope around the node. -/
  | around
  /-- The nearest function or program around the node. -/
  | function
  deriving DecidableEq, Repr

/-- The node that opens the scope of a name. -/
def Reach.owner (around : List Region) (n : Node) : Reach → NodeId
  | .within => n.id
  | .around => Region.nearest around
  | .function => Region.nearestFunction around

/-- How far names reach that a keyword declares; all but `var` stay in the given scope. -/
def Reach.ofKeyword (keyword : String) (reach : Reach) : Reach :=
  if keyword = "var" then .function else reach

namespace Node

/-- Whether a node declares a name, given by its identifier. -/
inductive Declares (n : Node) : Reach → Node → Prop
  /-- The name of a function declaration. -/
  | functionName {hasName : Bool} {parts : FunctionParts} {m : Node}
    (hl : n.label = .functionDeclaration hasName) (hf : n.function? = some parts)
    (hm : parts.name = some m) : n.Declares .around m
  /-- The own name of a function expression. -/
  | ownName {hasName : Bool} {parts : FunctionParts} {m : Node}
    (hl : n.label = .functionExpression hasName) (hf : n.function? = some parts)
    (hm : parts.name = some m) : n.Declares .within m
  | parameter {parts : FunctionParts} {pattern m : Node} (hf : n.function? = some parts)
    (hp : pattern ∈ parts.parameters.children) (hm : m ∈ pattern.patternNames) :
    n.Declares .within m
  | declarator {keyword : String} {part pattern m : Node} {value : Option Node}
    (hl : n.label = .variableDeclaration keyword) (hd : part ∈ n.children)
    (hp : part.declarator? = some (pattern, value)) (hm : m ∈ pattern.patternNames) :
    n.Declares (.ofKeyword keyword .around) m
  | imported {m : Node} (hl : n.label = .importDeclaration) (hm : m ∈ n.children) :
    n.Declares .around m
  | className {kind : String} {fields : List (Option String)} {keyword : Option String} {m : Node}
    (hl : n.label = .other kind fields keyword)
    (hk : kind = "class_declaration" ∨ kind = "abstract_class_declaration")
    (hp : n.part? "name" = some m) (hi : m.label.isIdentifier) : n.Declares .around m
  /-- The parameter of a `catch` clause. -/
  | caught {fields : List (Option String)} {keyword : Option String} {pattern m : Node}
    (hl : n.label = .other "catch_clause" fields keyword) (hp : n.part? "parameter" = some pattern)
    (hm : m ∈ pattern.patternNames) : n.Declares .within m
  /-- The variables of a `for` loop over a value. -/
  | loop {fields : List (Option String)} {keyword : String} {pattern m : Node}
    (hl : n.label = .other "for_in_statement" fields (some keyword)) (hk : keyword ≠ "")
    (hp : n.part? "left" = some pattern) (hm : m ∈ pattern.patternNames) :
    n.Declares (.ofKeyword keyword .within) m

variable {n m : Node} {c : List Region} {d : Declaration}

theorem mem_declareIn_iff {scope : NodeId} {ns : List Node} :
    d ∈ declareIn scope (ns.map entry) ↔ ∃ m ∈ ns, d = ⟨scope, m.id, m.text⟩ := by
  rw [declareIn, List.map_map, List.mem_map]
  exact exists_congr fun m => and_congr_right fun _ => eq_comm

theorem owner_keyword (n : Node) (c : List Region) (keyword : String) :
    Region.owner c keyword = (Reach.ofKeyword keyword .around).owner c n := by
  rw [Region.owner, Reach.ofKeyword]
  split_ifs <;> rfl

/-- A `var` of a loop reaches past the block of the loop. -/
theorem owner_loop (n : Node) (c : List Region) (keyword : String) :
    Region.owner (⟨n.id, .block⟩ :: c) keyword = (Reach.ofKeyword keyword .within).owner c n := by
  rw [Region.owner, Reach.ofKeyword]
  split_ifs <;> rfl

theorem mem_parameterNames :
    m ∈ n.parameterNames ↔ ∃ parts, n.function? = some parts ∧
      ∃ pattern ∈ parts.parameters.children, m ∈ pattern.patternNames := by
  rw [parameterNames, List.mem_flatMap]
  cases n.function? with
  | none => simp
  | some parts => simp

theorem mem_functionName : m ∈ (n.function?.bind (·.name)).toList ↔
    ∃ parts, n.function? = some parts ∧ parts.name = some m := by
  rw [Option.mem_toList, Option.bind_eq_some_iff]

theorem mem_partNames {field : String} : m ∈ n.partNames field ↔
    ∃ pattern, n.part? field = some pattern ∧ m ∈ pattern.patternNames := by
  rw [partNames, List.mem_flatMap]
  simp only [Option.mem_toList]

/-- Names that a node declares are declared in the scope that they reach. -/
theorem declares_of_names {scope : NodeId} {ns : List Node} {r : Reach} (hr : scope = r.owner c n)
    (hns : ∀ m ∈ ns, n.Declares r m) (hd : d ∈ declareIn scope (ns.map entry)) :
    ∃ reach m, n.Declares reach m ∧ d = ⟨reach.owner c n, m.id, m.text⟩ := by
  obtain ⟨m, hm, rfl⟩ := mem_declareIn_iff.1 hd
  exact ⟨r, m, hns m hm, hr ▸ rfl⟩

theorem declares_of_mem (h : d ∈ n.declares c) :
    ∃ reach m, n.Declares reach m ∧ d = ⟨reach.owner c n, m.id, m.text⟩ := by
  have hparameters : ∀ m ∈ n.parameterNames, n.Declares .within m := by
    intro m hm
    obtain ⟨parts, hf, pattern, hp, hm⟩ := mem_parameterNames.1 hm
    exact .parameter hf hp hm
  rw [declares.eq_def] at h
  split at h
  · next hl =>
    rcases List.mem_append.1 h with h | h
    · refine declares_of_names (r := .around) rfl (fun m hm => ?_) h
      obtain ⟨parts, hf, hm⟩ := mem_functionName.1 hm
      exact .functionName hl hf hm
    · exact declares_of_names rfl hparameters h
  · next hl =>
    rcases List.mem_append.1 h with h | h
    · refine declares_of_names (r := .within) rfl (fun m hm => ?_) h
      obtain ⟨parts, hf, hm⟩ := mem_functionName.1 hm
      exact .ownName hl hf hm
    · exact declares_of_names rfl hparameters h
  · exact declares_of_names rfl hparameters h
  · next keyword hl =>
    refine declares_of_names (owner_keyword n c keyword) (fun m hm => ?_) h
    obtain ⟨pattern, hp, hm⟩ := List.mem_flatMap.1 hm
    obtain ⟨part, hd, hp⟩ := List.mem_filterMap.1 hp
    obtain ⟨⟨_, value⟩, hd', rfl⟩ := Option.map_eq_some_iff.1 hp
    exact .declarator hl hd hd' hm
  · next hl => exact declares_of_names (r := .around) rfl (fun m hm => .imported hl hm) h
  · next kind fields keyword hl =>
    rcases List.mem_append.1 h with hclass | hhead
    · rw [declaresClass] at hclass
      split_ifs at hclass with hk
      · refine declares_of_names (r := .around) rfl (fun m hm => ?_) hclass
        obtain ⟨hm, hi⟩ := List.mem_filter.1 hm
        exact .className hl (by simpa using hk) (Option.mem_toList.1 hm) hi
      · cases hclass
    · rw [declaresHead.eq_def] at hhead
      split_ifs at hhead with hcatch hloop
      · subst hcatch
        refine declares_of_names (r := .within) rfl (fun m hm => ?_) hhead
        obtain ⟨pattern, hp, hm⟩ := mem_partNames.1 hm
        exact .caught hl hp hm
      · subst hloop
        cases keyword with
        | none => cases hhead
        | some word =>
          dsimp only at hhead
          split_ifs at hhead with hw
          · cases hhead
          · refine declares_of_names (owner_loop n c word) (fun m hm => ?_) hhead
            obtain ⟨pattern, hp, hm⟩ := mem_partNames.1 hm
            exact .loop hl hw hp hm
      · cases hhead
  · cases h

theorem mem_declares {reach : Reach} (h : n.Declares reach m) :
    ⟨reach.owner c n, m.id, m.text⟩ ∈ n.declares c := by
  cases h with
  | @functionName hasName parts m hl hf hm =>
    rw [declares.eq_def, hl]
    exact List.mem_append_left _
      (mem_declareIn_iff.2 ⟨m, mem_functionName.2 ⟨parts, hf, hm⟩, rfl⟩)
  | @ownName hasName parts m hl hf hm =>
    rw [declares.eq_def, hl]
    exact List.mem_append_left _
      (mem_declareIn_iff.2 ⟨m, mem_functionName.2 ⟨parts, hf, hm⟩, rfl⟩)
  | @parameter parts pattern m hf hp hm =>
    have hd : (⟨n.id, m.id, m.text⟩ : Declaration) ∈ declareIn n.id (n.parameterNames.map entry) :=
      mem_declareIn_iff.2 ⟨m, mem_parameterNames.2 ⟨parts, hf, pattern, hp, hm⟩, rfl⟩
    rw [declares.eq_def]
    cases hl : n.label with
    | functionDeclaration _ => exact List.mem_append_right _ hd
    | functionExpression _ => exact List.mem_append_right _ hd
    | arrowFunction => exact hd
    | _ =>
      rw [function?.eq_def, hl] at hf
      cases hf
  | @declarator keyword part pattern m value hl hd hp hm =>
    rw [declares.eq_def, hl, ← owner_keyword]
    refine mem_declareIn_iff.2 ⟨m, List.mem_flatMap.2 ⟨pattern, ?_, hm⟩, rfl⟩
    exact List.mem_filterMap.2 ⟨part, hd, by rw [hp]; rfl⟩
  | @imported m hl hm =>
    rw [declares.eq_def, hl]
    exact mem_declareIn_iff.2 ⟨m, hm, rfl⟩
  | @className kind fields keyword m hl hk hp hi =>
    rw [declares.eq_def, hl]
    refine List.mem_append_left _ ?_
    rw [declaresClass, if_pos (by simpa using hk)]
    exact mem_declareIn_iff.2 ⟨m, List.mem_filter.2 ⟨Option.mem_toList.2 hp, hi⟩, rfl⟩
  | @caught fields keyword pattern m hl hp hm =>
    rw [declares.eq_def, hl]
    refine List.mem_append_right _ ?_
    rw [declaresHead.eq_def, if_pos rfl]
    exact mem_declareIn_iff.2 ⟨m, mem_partNames.2 ⟨pattern, hp, hm⟩, rfl⟩
  | @loop fields keyword pattern m hl hk hp hm =>
    rw [declares.eq_def, hl]
    refine List.mem_append_right _ ?_
    rw [declaresHead.eq_def, if_neg (by decide), if_pos rfl]
    dsimp only
    rw [if_neg hk, owner_loop]
    exact mem_declareIn_iff.2 ⟨m, mem_partNames.2 ⟨pattern, hp, hm⟩, rfl⟩

/-- The declarations of a tree are those of its nodes, each in the scope that it reaches. -/
theorem mem_declarations_of_path {root : Node} {above : List Node} {reach : Reach}
    (hp : root.Path above n) (h : n.Declares reach m) :
    ⟨reach.owner (regionsAbove above ++ root.program) n, m.id, m.text⟩ ∈
      root.declarations false root.program :=
  List.mem_flatMap.2 ⟨_, mem_spots_of_path root.program hp, mem_declares h⟩

theorem exists_declares {root : Node} (h : d ∈ root.declarations false root.program) :
    ∃ n ∈ root.walk, ∃ reach m, n.Declares reach m ∧ m.id = d.identifier := by
  obtain ⟨p, hp, hd⟩ := List.mem_flatMap.1 h
  obtain ⟨reach, m, hm, rfl⟩ := declares_of_mem hd
  obtain ⟨above, hpath, -⟩ := exists_path_of_spots root.program .root hp
  exact ⟨p.node, hpath.mem_walk, reach, m, hm, rfl⟩

/-- A program declares nothing. -/
theorem label_ne_program_of_declares {reach : Reach} (h : n.Declares reach m) : n.label ≠ .program := by
  intro hl
  have hm := mem_declares (c := []) h
  rw [declares.eq_def, hl] at hm
  cases hm

end Node

/-! ### Scopes around a node -/

namespace ScopeTable

open Node

/-- The scopes that nodes open, in order. -/
def scopesAbove (t : ScopeTable) (above : List Node) : List ScopeId :=
  above.filterMap fun a => t.scopeOpenedBy? a.id

/-- The scope that a name reaches which a node declares, given the nodes above it. -/
def reached? (t : ScopeTable) (above : List Node) (n : Node) : Reach → Option ScopeId
  | .within => t.scopeOpenedBy? n.id
  | .around => (t.scopesAbove above).head?
  | .function => (t.scopesAbove above).find? fun s => (t.scopes[s]?.map (·.kind)) != some .block

variable {t : ScopeTable} {root n m : Node} {above : List Node} {s : ScopeId} {ss : List ScopeId}
  {c : List Region} {ds : List Declaration} {us : List Use} {i : NodeId}

/-- Whether scopes of a table are those given by their nodes. -/
def Stand (t : ScopeTable) (ss : List ScopeId) (c : List Region) : Prop :=
  List.Forall₂ (fun s r => t.regions[s]? = some r) ss c

theorem nodeOf?_of_region {r : Region} (h : t.regions[s]? = some r) : t.nodeOf? s = some r.node := by
  rw [nodeOf?, h]
  rfl

theorem kind_of_region {r : Region} (h : t.regions[s]? = some r) :
    t.scopes[s]?.map (·.kind) = some r.kind := by
  rw [regions, skeleton, List.map_map, List.getElem?_map] at h
  obtain ⟨scope, hs, rfl⟩ := Option.map_eq_some_iff.1 h
  rw [hs]
  rfl

namespace Lists

variable (h : t.Lists ds)

include h

/-- The chain of a scope goes through the scopes around it and no other. -/
theorem chain_eq (hs : t.Stand ss c) (ha : t.Around s c) : t.chain s = ss := by
  refine List.left_unique_forall₂' (fun a b r hb hr => ?_) ha.chain hs
  exact h.scope_eq (nodeOf?_of_region hb) (nodeOf?_of_region hr)

theorem head?_eq (hs : t.Stand ss c) (ha : t.Around s c) : ss.head? = some s := by
  obtain ⟨r, rest, rfl, hr⟩ := ha.nearest
  cases hs with
  | cons hr' _ => exact congrArg some (h.scope_eq (nodeOf?_of_region hr') (nodeOf?_of_region hr))

end Lists

theorem Stand.find? (hs : t.Stand ss c) (hc : ∃ r ∈ c, r.kind ≠ .block) :
    ∃ s, (ss.find? fun s => (t.scopes[s]?.map (·.kind)) != some .block) = some s ∧
      t.nodeOf? s = some (Region.nearestFunction c) := by
  induction hs with
  | nil =>
    obtain ⟨r, hr, -⟩ := hc
    cases hr
  | @cons s r ss c hr _ ih =>
    have hkind := kind_of_region hr
    rw [List.find?_cons, hkind, Region.nearestFunction, List.find?_cons]
    by_cases hb : r.kind = .block
    · obtain ⟨q, hq, hk⟩ := hc
      rcases List.mem_cons.1 hq with rfl | hq
      · exact absurd hb hk
      · rw [hb]
        exact ih ⟨q, hq, hk⟩
    · have hne : (some r.kind != some ScopeKind.block) = true := by simpa using hb
      have hne' : (r.kind != ScopeKind.block) = true := by simpa using hb
      rw [hne, hne']
      exact ⟨s, rfl, nodeOf?_of_region hr⟩

/-- A table of the scopes and names of a tree. -/
structure Covers (t : ScopeTable) (root : Node) : Prop where
  resolved : t.Resolved (root.declarations false root.program) (root.uses false root.program)
  regions : t.regions = root.program ++ root.regions false root.program
  top : t.Around 0 root.program
  opens : ∀ p ∈ root.spots false root.program, t.OpensAt p

theorem resolve_covers (hd : root.ids.Nodup) (hs : ∀ n ∈ root.walk, n.ListsParameters)
    (hl : root.label = .program) : (resolve root).Covers root :=
  let ⟨h1, h2, h3, h4⟩ := resolve_resolved hd hs hl
  ⟨h1, h2, h3, h4⟩

namespace Covers

variable (h : t.Covers root)

include h

/-- Every node stands in a scope. -/
theorem exists_around (hp : root.Path above n) :
    ∃ s, t.Around s (regionsAbove above ++ root.program) := by
  induction hp with
  | root => exact ⟨0, h.top⟩
  | child hp _ ih =>
    obtain ⟨s, ha⟩ := ih
    have hinner := h.opens _ (mem_spots_of_path root.program hp) s ha
    rw [regionsAbove, List.append_assoc]
    exact ⟨_, hinner⟩

/-- The scopes that the nodes above a node open are the scopes around it. -/
theorem stand (hd : root.ids.Nodup) (hl : root.label = .program) (hp : root.Path above n)
    (hne : above ≠ []) : t.Stand (t.scopesAbove above) (regionsAbove above ++ root.program) := by
  induction hp with
  | root => exact absurd rfl hne
  | @child above m c hp hc ih =>
    have hspot := mem_spots_of_path root.program hp
    cases hp with
    | root =>
      have hr : root.region? (isInFunction []) = none := by rw [region?.eq_def, hl]
      have hopened : t.scopeOpenedBy? root.id = some 0 :=
        h.resolved.lists.scopeOpenedBy?_eq h.top.nodeOf?
      have hzero : t.regions[0]? = some ⟨root.id, .program⟩ := by rw [h.regions]; rfl
      rw [scopesAbove, List.filterMap_cons, hopened, regionsAbove, hr]
      exact .cons hzero .nil
    | @child above k _ hp hm =>
      obtain ⟨s, ha⟩ := h.exists_around (.child hp hm)
      have hrest := ih (List.cons_ne_nil _ _)
      rw [regionsAbove, List.append_assoc]
      cases hr : m.region? (isInFunction (k :: above)) with
      | some r =>
        have hinner := h.opens _ hspot s ha
        rw [Node.inner, hr] at hinner
        have hnode : t.nodeOf? _ = some m.id :=
          hinner.nodeOf?.trans (congrArg some (region?_node hr))
        have hopened := h.resolved.lists.scopeOpenedBy?_eq hnode
        obtain ⟨_, _, he, hregion⟩ := hinner.nearest
        cases he
        rw [scopesAbove, List.filterMap_cons, hopened]
        rw [hopened] at hregion
        exact .cons hregion hrest
      | none =>
        have hroot : m.id ≠ root.id :=
          ((Node.Path.child hp hm).id_ne hd hp.root_mem).symm
        have hopened : t.scopeOpenedBy? m.id = none :=
          scopeOpenedBy?_eq_none (h.regions ▸ not_mem_regions hd hspot hroot hr)
        rw [scopesAbove, List.filterMap_cons, hopened]
        exact hrest

/-- A declared name is bound in the scope that it reaches. -/
theorem owned (hd : root.ids.Nodup) (hl : root.label = .program) (hp : root.Path above n)
    {reach : Reach} (hm : n.Declares reach m) : ∃ s b, t.reached? above n reach = some s ∧
      t.bound? s m.text = some b ∧ t.declared.lookup m.id = some b := by
  have hlists := h.resolved.lists
  obtain ⟨b, B, hb, hB, hnode, hx⟩ := hlists.complete _ (mem_declarations_of_path hp hm)
  refine ⟨B.scope, b, ?_, (hlists.bound_iff _ _ b).2 ⟨B, hB, rfl, hx⟩, hb⟩
  have hne : above ≠ [] := by
    rintro rfl
    cases hp
    exact label_ne_program_of_declares hm hl
  have hstand := h.stand hd hl hp hne
  cases reach with
  | within => exact hlists.scopeOpenedBy?_eq hnode
  | around =>
    obtain ⟨s, ha⟩ := h.exists_around hp
    rw [hlists.scope_eq hnode ha.nodeOf?]
    exact hlists.head?_eq hstand ha
  | function =>
    have hprogram : ∃ r ∈ regionsAbove above ++ root.program, r.kind ≠ .block :=
      ⟨_, List.mem_append_right _ List.mem_cons_self, fun hk => by cases hk⟩
    obtain ⟨s, hs, hnode'⟩ := hstand.find? hprogram
    rw [hlists.scope_eq hnode hnode']
    exact hs

/-- An identifier that declares nothing refers to what the scopes around it see under its name. -/
theorem nearest (hd : root.ids.Nodup) (hl : root.label = .program) (hp : root.Path above n)
    (hi : n.label.isIdentifier) (hdecl : t.isDeclaration n.id = false) :
    ∃ s, (t.scopesAbove above).head? = some s ∧ t.chain s = t.scopesAbove above ∧
      (∀ (b : BindingId) (B : Binding), t.bindings[b]? = some B →
        (n.id ∈ B.references ↔ t.lookup? s n.text = some b)) ∧
      (n.id ∈ t.unresolved ↔ ∀ r ∈ t.chain s, t.bound? r n.text = none) := by
  have hlists := h.resolved.lists
  have hne : above ≠ [] := by
    rintro rfl
    cases hp
    rw [hl] at hi
    cases hi
  have hstand := h.stand hd hl hp hne
  have huse : (⟨n.id, n.text, regionsAbove above ++ root.program⟩ : Use) ∈
      root.uses false root.program :=
    List.mem_filterMap.2 ⟨_, mem_spots_of_path root.program hp, by rw [use?, if_pos hi]⟩
  have hnone : t.declared.lookup n.id = none := by
    rwa [isDeclaration, Option.isSome_eq_false_iff, Option.isNone_iff_eq_none] at hdecl
  obtain ⟨s, around, binding, -, unresolved⟩ := h.resolved.knows _ huse hnone
  refine ⟨s, hlists.head?_eq hstand around, hlists.chain_eq hstand around, fun b B hB => ?_, ?_⟩
  · rw [← binding]
    constructor
    · exact fun hm => (hlists.member n.id b).2 ⟨B, hB, .inr hm⟩
    · intro hb
      obtain ⟨C, hC, hm⟩ := (hlists.member n.id b).1 hb
      rw [hB] at hC
      cases hC
      refine hm.resolve_left fun he => ?_
      -- the first declaration of a binding declares it
      obtain ⟨scope, -, hf⟩ := hlists.first b B hB
      obtain ⟨d, hdm, -, -, hid⟩ := exists_of_firstDeclaration hf
      have hsome := (hlists.declared_iff n.id).2 ⟨d, hdm, hid.trans he.symm⟩
      rw [hnone] at hsome
      cases hsome
  · rw [← List.findSome?_eq_none_iff, ← lookup?, ← binding]
    exact ⟨hlists.unresolved n.id, fun hb => (unresolved hb).2⟩

/-- The identifiers of a binding have its name. -/
theorem named {b : BindingId} {B : Binding} (hB : t.bindings[b]? = some B)
    (hi : i ∈ B.declaration :: B.references) : ∃ n ∈ root.walk, n.id = i ∧ n.text = B.name := by
  have hlists := h.resolved.lists
  have hb : t.bindingOf? i = some b := (hlists.member i b).2 ⟨B, hB, List.mem_cons.1 hi⟩
  cases hd : t.declared.lookup i with
  | some b' =>
    obtain ⟨d, hdm, rfl⟩ := hlists.declared i (by rw [hd]; rfl)
    obtain ⟨b', C, hb', hC, -, hx⟩ := hlists.complete d hdm
    rw [bindingOf?_of_declared hb'] at hb
    cases hb
    rw [hB] at hC
    cases hC
    obtain ⟨k, hk, m, hm, he⟩ := exists_of_mem_declarations hdm
    obtain ⟨hid, hname⟩ := Prod.mk.inj he
    exact ⟨m, mem_walk_trans hm.1 hk, hid, hname.trans hx.symm⟩
  | none =>
    obtain ⟨u, hu, rfl⟩ : ∃ u ∈ root.uses false root.program, u.identifier = i := by
      by_contra hno
      rw [(h.resolved.unused i hd fun u hu he => hno ⟨u, hu, he⟩).1] at hb
      cases hb
    obtain ⟨s, hr⟩ := h.resolved.knows u hu hd
    have hname := hlists.name_of_lookup? (hr.binding ▸ hb) hB
    obtain ⟨above, n, hp, -, rfl⟩ := exists_path_of_uses hu
    exact ⟨n, hp.mem_walk, rfl, hname.symm⟩

end Covers

/-! ### The whole account -/

/-- Whether a table accounts for every identifier of a tree. -/
structure Accounts (t : ScopeTable) (root : Node) : Prop where
  /-- Every identifier is in the books once: as the declaration of a binding, among the references
  of a binding, or unresolved. -/
  once : ∀ n ∈ root.walk, n.label.isIdentifier → t.account.count n.id = 1
  /-- An identifier that declares nothing refers to the binding of its name in the nearest of the
  scopes that the nodes above it open, and is unresolved when none of them has the name. -/
  nearest : ∀ above n, root.Path above n → n.label.isIdentifier → t.isDeclaration n.id = false →
    ∃ s, (t.scopesAbove above).head? = some s ∧ t.chain s = t.scopesAbove above ∧
      (∀ (b : BindingId) (B : Binding), t.bindings[b]? = some B →
        (n.id ∈ B.references ↔ t.lookup? s n.text = some b)) ∧
      (n.id ∈ t.unresolved ↔ ∀ r ∈ t.chain s, t.bound? r n.text = none)
  /-- A declared name is bound in the scope that it reaches. -/
  owned : ∀ above n, root.Path above n → ∀ reach m, n.Declares reach m →
    ∃ s b, t.reached? above n reach = some s ∧ t.bound? s m.text = some b ∧
      t.declared.lookup m.id = some b
  /-- Nothing is a declaration but what the syntax declares. -/
  declared : ∀ i, t.isDeclaration i → ∃ n ∈ root.walk, ∃ reach m, n.Declares reach m ∧ m.id = i
  /-- A scope has each name once, under the name of its binding and of all identifiers of it. -/
  keys : ∀ (s : ScopeId) (scope : Scope), t.scopes[s]? = some scope →
    (scope.names.map (·.1)).Nodup ∧ ∀ x b, (x, b) ∈ scope.names →
      ∃ B : Binding, t.bindings[b]? = some B ∧ B.scope = s ∧ B.name = x ∧
        ∀ i ∈ B.declaration :: B.references, ∃ n ∈ root.walk, n.id = i ∧ n.text = x
  /-- Every binding is listed in its scope. -/
  listed : ∀ (b : BindingId) (B : Binding), t.bindings[b]? = some B →
    ∃ scope, t.scopes[B.scope]? = some scope ∧ (B.name, b) ∈ scope.names

/-- Name resolution accounts for every identifier of a tree, whatever the order of its statements. -/
theorem resolve_accounts (hd : root.ids.Nodup) (hs : ∀ n ∈ root.walk, n.ListsParameters)
    (hl : root.label = .program) :
    (resolve root).Accounts root ∧ ∀ (a : Arrangement) (i : NodeId),
      (resolve (root.arranged a)).target? i = (resolve root).target? i ∧
        (i ∈ (resolve (root.arranged a)).unresolved ↔ i ∈ (resolve root).unresolved) := by
  have hcovers := resolve_covers hd hs hl
  have hlists := hcovers.resolved.lists
  have hkept := (resolve_filled root).kept
  refine ⟨?_, fun a i => resolve_arranged hd hs hl a i⟩
  refine ⟨fun n hn hi => resolve_once hd hs hl hn hi, fun above n hp hi hdecl =>
    hcovers.nearest hd hl hp hi hdecl, fun above n hp reach m hm => hcovers.owned hd hl hp hm,
    fun i hi => ?_, fun s scope hscope => ?_, fun b B hB => ?_⟩
  · obtain ⟨d, hdm, rfl⟩ := hlists.declared i hi
    exact exists_declares hdm
  · have hkeys := hkept.keys scope (List.mem_of_getElem? hscope)
    refine ⟨hkeys, fun x b hx => ?_⟩
    have hbound : (resolve root).bound? s x = some b := by
      rw [bound?, hscope]
      exact lookup_of_mem hkeys hx
    obtain ⟨B, hB, rfl, rfl⟩ := (hlists.bound_iff s x b).1 hbound
    exact ⟨B, hB, rfl, rfl, fun i hi => hcovers.named hB hi⟩
  · have hbound := (hlists.bound_iff B.scope B.name b).2 ⟨B, hB, rfl, rfl⟩
    obtain ⟨scope, hscope, hx⟩ := Option.bind_eq_some_iff.1 hbound
    exact ⟨scope, hscope, mem_of_lookup hx⟩

/-- The program `a; { var a }`. -/
def hoisted : Node :=
  ⟨0, none, default, .program, [
    ⟨1, some 0, default, .identifier "a" "a" none, []⟩,
    ⟨2, some 0, default, .block, [
      ⟨3, some 2, default, .variableDeclaration "var", [
        ⟨4, some 3, default, .variableDeclarator, [
          ⟨5, some 4, default, .identifier "a" "a" none, []⟩]⟩]⟩]⟩]⟩

theorem hoisted_lists : ∀ n ∈ hoisted.walk, n.ListsParameters := by
  have hnone : ∀ n ∈ hoisted.walk, n.function?.isNone := List.all_eq_true.1 (by decide +kernel)
  intro n hn parts hf
  have := hnone n hn
  rw [hf] at this
  cases this

/-- A use above a `var` in a block refers to it: it is declared in the scope of the program. -/
theorem hoisted_accounts : hoisted.ids.Nodup ∧ (∀ n ∈ hoisted.walk, n.ListsParameters) ∧
    hoisted.label = .program ∧ (resolve hoisted).Accounts hoisted ∧
    (resolve (hoisted.arranged ⟨fun _ ns => ns.reverse, fun _ ns => ns.reverse_perm⟩)).target? 1 =
      some (0, "a") := by
  have hd : hoisted.ids.Nodup := by decide +kernel
  obtain ⟨haccounts, horder⟩ := resolve_accounts hd hoisted_lists rfl
  exact ⟨hd, hoisted_lists, rfl, haccounts, (horder _ 1).1.trans (by decide +kernel)⟩

end ScopeTable
end JsxLint
