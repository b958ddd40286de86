import JsxLint.Proofs.Syntax.Upkeep
import JsxLint.Scope.Resolution

/-!
# Declarations and uses in a tree

The scopes of a tree, what is declared in them and where names are used, without a table: scopes go
by the nodes that open them.

* `Region`, `Declaration`, `Use`: a scope, a declaration and the use of a name;
* `Node.spots`: the nodes of a tree with the scopes around them;
* `Node.declarations`, `Node.uses`, `Node.regions`: what the nodes declare, use and open;
* `Node.View`: what the nodes above a node see of it;
* `Node.declarations_modify`, `Node.uses_modify`: edits of one node.
-/

namespace JsxLint

/-- A scope: the node that opens it, and how far it reaches. -/
structure Region where
  node : NodeId
  kind : ScopeKind
  deriving DecidableEq, Repr

/-- An identifier that declares a name in the scope of a node. -/
structure Declaration where
  scope : NodeId
  identifier : NodeId
  name : String
  deriving DecidableEq, Repr

/-- An identifier, its name and the scopes around it, the nearest first. -/
structure Use where
  identifier : NodeId
  name : String
  around : List Region
  deriving DecidableEq, Repr

/-- A declaration under another name. -/
def Declaration.map (g : NodeId → String → String) (d : Declaration) : Declaration :=
  { d with name := g d.identifier d.name }

/-- A use under another name. -/
def Use.map (g : NodeId → String → String) (u : Use) : Use :=
  { u with name := g u.identifier u.name }

/-- Declare names in a scope, given by their identifiers. -/
def declareIn (scope : NodeId) (names : List (NodeId × String)) : List Declaration :=
  names.map fun name => ⟨scope, name.1, name.2⟩

namespace Region

/-- The nearest scope. -/
def nearest (around : List Region) : NodeId :=
  (around.head?.map (·.node)).getD 0

/-- The nearest scope that is no block. -/
def nearestFunction (around : List Region) : NodeId :=
  ((around.find? (·.kind != .block)).map (·.node)).getD 0

/-- The scope that owns names declared by a keyword. -/
def owner (around : List Region) (keyword : String) : NodeId :=
  if keyword = "var" then nearestFunction around else nearest around

end Region

namespace Node

/-- The identifier and the name of a node. -/
def entry (n : Node) : NodeId × String :=
  (n.id, n.text)

/-- The scope that a node opens; a block that is the body of a function opens none. -/
def region? (inFunction : Bool) (n : Node) : Option Region :=
  match n.label with
  | .functionDeclaration _ | .functionExpression _ | .arrowFunction => some ⟨n.id, .function⟩
  | .block => if inFunction then none else some ⟨n.id, .block⟩
  | .other kind _ _ => if ScopeTable.blockKinds.contains kind then some ⟨n.id, .block⟩ else none
  | _ => none

/-- The scopes around what is below a node. -/
def inner (inFunction : Bool) (around : List Region) (n : Node) : List Region :=
  (n.region? inFunction).toList ++ around

/-- The names of the parameters of a function. -/
def parameterNames (n : Node) : List Node :=
  ((n.function?.map (·.parameters.children)).getD []).flatMap patternNames

/-- The names of a part of other syntax that is a pattern. -/
def partNames (n : Node) (field : String) : List Node :=
  (n.part? field).toList.flatMap patternNames

/-- What other syntax declares in the scope around it: the name of a class. -/
def declaresClass (around : List Region) (kind : String) (n : Node) : List Declaration :=
  if kind = "class_declaration" || kind = "abstract_class_declaration" then
    declareIn (Region.nearest around) (((n.part? "name").toList.filter (·.label.isIdentifier)).map entry)
  else []

/-- What other syntax declares at the head of its own scope. -/
def declaresHead (around : List Region) (kind : String) (keyword : Option String) (n : Node) :
    List Declaration :=
  if kind = "catch_clause" then declareIn n.id ((n.partNames "parameter").map entry)
  else if kind = "for_in_statement" then
    match keyword with
    | some word =>
      if word = "" then []
      else declareIn (Region.owner (⟨n.id, .block⟩ :: around) word) ((n.partNames "left").map entry)
    | none => []
  else []

/-- What a node itself declares. -/
def declares (around : List Region) (n : Node) : List Declaration :=
  match n.label with
  | .functionDeclaration _ =>
    declareIn (Region.nearest around) ((n.function?.bind (·.name)).toList.map entry) ++
      declareIn n.id (n.parameterNames.map entry)
  | .functionExpression _ =>
    declareIn n.id ((n.function?.bind (·.name)).toList.map entry) ++
      declareIn n.id (n.parameterNames.map entry)
  | .arrowFunction => declareIn n.id (n.parameterNames.map entry)
  | .variableDeclaration keyword =>
    declareIn (Region.owner around keyword)
      (((n.children.filterMap fun d => d.declarator?.map (·.1)).flatMap patternNames).map entry)
  | .importDeclaration => declareIn (Region.nearest around) (n.children.map entry)
  | .other kind _ keyword => n.declaresClass around kind ++ n.declaresHead around kind keyword
  | _ => []

end Node

/-- A node of a tree, whether it is a child of a function, and the scopes around it. -/
structure Spot where
  node : Node
  inFunction : Bool
  around : List Region

namespace Node

mutual

/-- The nodes of a tree with what is around them, parents first. -/
def spots (inFunction : Bool) (around : List Region) : Node → List Spot
  | ⟨id, parent, place, label, children⟩ =>
    ⟨⟨id, parent, place, label, children⟩, inFunction, around⟩ ::
      spotsAll label.isFunction (inner inFunction around ⟨id, parent, place, label, children⟩) children

/-- `spots` of several trees. -/
def spotsAll (inFunction : Bool) (around : List Region) : List Node → List Spot
  | [] => []
  | n :: ns => n.spots inFunction around ++ spotsAll inFunction around ns

end

/-- What is declared at or below a node, in order. -/
def declarations (inFunction : Bool) (around : List Region) (n : Node) : List Declaration :=
  (n.spots inFunction around).flatMap fun spot => spot.node.declares spot.around

/-- The use of a name that an identifier is. -/
def use? (around : List Region) (n : Node) : Option Use :=
  if n.label.isIdentifier then some ⟨n.id, n.text, around⟩ else none

/-- The uses of names at or below a node. -/
def uses (inFunction : Bool) (around : List Region) (n : Node) : List Use :=
  (n.spots inFunction around).filterMap fun spot => spot.node.use? spot.around

/-- The scopes that are opened at or below a node. -/
def regions (inFunction : Bool) (around : List Region) (n : Node) : List Region :=
  (n.spots inFunction around).filterMap fun spot => spot.node.region? spot.inFunction

variable {f : Bool} {c : List Region} {m n : Node} {id : NodeId} {edit : Node → Node}

theorem spotsAll_eq (ns : List Node) : spotsAll f c ns = ns.flatMap (spots f c) := by
  induction ns with
  | nil => rfl
  | cons n ns ih => rw [spotsAll, ih, List.flatMap_cons]

theorem spots_eq (n : Node) : n.spots f c =
    ⟨n, f, c⟩ :: n.children.flatMap (spots n.label.isFunction (n.inner f c)) := by
  rw [← spotsAll_eq]
  cases n
  rw [spots]

theorem declarations_eq (n : Node) : n.declarations f c =
    n.declares c ++ n.children.flatMap (declarations n.label.isFunction (n.inner f c)) := by
  rw [declarations, spots_eq, List.flatMap_cons, List.flatMap_assoc]
  rfl

theorem uses_eq (n : Node) : n.uses f c =
    (n.use? c).toList ++ n.children.flatMap (uses n.label.isFunction (n.inner f c)) := by
  rw [uses, spots_eq, List.filterMap_cons, List.filterMap_flatMap]
  cases n.use? c <;> rfl

theorem regions_eq (n : Node) : n.regions f c =
    (n.region? f).toList ++ n.children.flatMap (regions n.label.isFunction (n.inner f c)) := by
  rw [regions, spots_eq, List.filterMap_cons, List.filterMap_flatMap]
  cases n.region? f <;> rfl

theorem mem_spots {p : Spot} : p ∈ n.spots f c ↔ p = ⟨n, f, c⟩ ∨
    ∃ k ∈ n.children, p ∈ k.spots n.label.isFunction (n.inner f c) := by
  rw [spots_eq, List.mem_cons, List.mem_flatMap]

/-- A scope goes by the node that opens it. -/
theorem region?_node {r : Region} (h : n.region? f = some r) : r.node = n.id := by
  rw [region?.eq_def] at h
  split at h
  all_goals first | (cases h <;> rfl) | (split_ifs at h; cases h; rfl)

theorem region?_of_isFunction (h : n.label.isFunction) :
    n.region? f = some ⟨n.id, .function⟩ := by
  rw [region?.eq_def]
  cases hl : n.label <;> rw [hl] at h <;> first | rfl | cases h

theorem region?_of_identifier (h : n.label.isIdentifier) : n.region? f = none := by
  rw [region?.eq_def]
  cases hl : n.label <;> rw [hl] at h <;> first | rfl | cases h

/-! ### What is seen from above -/

/-- What the nodes above a node see of it. -/
structure View where
  entry : NodeId × String
  isName : Bool
  /-- The names that it binds as a pattern. -/
  bound : List (NodeId × String)
  /-- The names that it binds as a list of parameters. -/
  listed : List (NodeId × String)
  /-- The names that it binds as a declarator. -/
  declared : List (NodeId × String)

/-- What the nodes above a node see of it. -/
def view (n : Node) : View where
  entry := n.entry
  isName := n.label.isIdentifier
  bound := n.patternNames.map entry
  listed := (n.children.flatMap patternNames).map entry
  declared := ((n.declarator?.map (·.1)).toList.flatMap patternNames).map entry

/-- An entry under another name. -/
def renamed (g : NodeId → String → String) (e : NodeId × String) : NodeId × String :=
  (e.1, g e.1 e.2)

/-- What is seen of a node when the names are changed. -/
def View.map (g : NodeId → String → String) (v : View) : View where
  entry := renamed g v.entry
  isName := v.isName
  bound := v.bound.map (renamed g)
  listed := v.listed.map (renamed g)
  declared := v.declared.map (renamed g)

theorem names_map_self (names : List (NodeId × String)) : names.map (renamed fun _ x => x) = names :=
  List.map_id' names

theorem view_map_self (v : View) : v.map (fun _ x => x) = v := by
  rw [View.map, names_map_self, names_map_self, names_map_self]
  rfl

theorem declarations_map_self (ds : List Declaration) :
    ds.map (Declaration.map fun _ x => x) = ds :=
  List.map_id' ds

variable {g : NodeId → String → String} {h : Node → Node}

theorem patternNamesAll_eq (ns : List Node) : patternNamesAll ns = ns.map patternNames := by
  induction ns with
  | nil => rfl
  | cons n ns ih => rw [patternNamesAll, ih, List.map_cons]

theorem patternNames_eq (n : Node) : n.patternNames =
    match n.label with
    | .identifier .. => [n]
    | .other kind fields _ => Pattern.combine kind fields (n.children.map patternNames)
    | _ => [] := by
  rw [← patternNamesAll_eq]
  obtain ⟨id, parent, place, label, children⟩ := n
  cases label <;> rfl

theorem entries_flatMap {ns : List Node} {names : Node → List Node}
    (hv : ∀ n ∈ ns, (names (h n)).map entry = ((names n).map entry).map (renamed g)) :
    ((ns.map h).flatMap names).map entry = ((ns.flatMap names).map entry).map (renamed g) := by
  induction ns with
  | nil => rfl
  | cons n ns ih =>
    simp only [List.map_cons, List.flatMap_cons, List.map_append]
    rw [hv n List.mem_cons_self, ih fun m hm => hv m (List.mem_cons_of_mem _ hm)]

theorem lookup_zip_map {α β γ : Type} [BEq α] (fields : List α) (l : List β) (f : β → γ) (a : α) :
    (fields.zip (l.map f)).lookup a = ((fields.zip l).lookup a).map f := by
  induction fields generalizing l with
  | nil => rfl
  | cons b fields ih =>
    cases l with
    | nil => rfl
    | cons c l =>
      simp only [List.map_cons, List.zip_cons_cons, List.lookup_cons]
      cases a == b
      · exact ih l
      · rfl

theorem mem_of_lookup_zip {α β : Type} [BEq α] {fields : List α} {l : List β} {a : α} {b : β}
    (h : (fields.zip l).lookup a = some b) : b ∈ l := by
  induction fields generalizing l with
  | nil => cases h
  | cons c fields ih =>
    cases l with
    | nil => cases h
    | cons d l =>
      rw [List.zip_cons_cons, List.lookup_cons] at h
      cases hc : a == c with
      | true =>
        rw [hc] at h
        cases h
        exact List.mem_cons_self
      | false =>
        rw [hc] at h
        exact List.mem_cons_of_mem _ (ih h)

/-- What other syntax binds depends on the entries of its parts only. -/
theorem combine_entries {kind : String} {fields : List (Option String)} {ns : List Node}
    (hv : ∀ n ∈ ns, (h n).patternNames.map entry = (n.patternNames.map entry).map (renamed g)) :
    (Pattern.combine kind fields ((ns.map h).map patternNames)).map entry =
      ((Pattern.combine kind fields (ns.map patternNames)).map entry).map (renamed g) := by
  rw [Pattern.combine, Pattern.combine]
  split_ifs
  · rw [← List.flatMap_def, ← List.flatMap_def]
    exact entries_flatMap hv
  · split
    · rfl
    · next field orFirst _ =>
      rw [lookup_zip_map, lookup_zip_map, lookup_zip_map]
      cases hl : (fields.zip ns).lookup (some field) with
      | some n => exact hv n (mem_of_lookup_zip hl)
      | none =>
        cases orFirst with
        | false => rfl
        | true =>
          cases ns with
          | nil => rfl
          | cons n ns => exact hv n List.mem_cons_self

theorem part?_mapChildren (field : String) :
    (n.mapChildren h).part? field = (n.part? field).map h := by
  obtain ⟨id, parent, place, label, children⟩ := n
  cases label <;> first
    | rfl
    | exact lookup_zip_map ..

theorem part?_mem {field : String} (hp : n.part? field = some m) : m ∈ n.children := by
  rw [part?.eq_def] at hp
  split at hp
  · exact mem_of_lookup_zip hp
  · cases hp

theorem patternNames_mapChildren
    (hb : ∀ c ∈ n.children, (h c).patternNames.map entry = (c.patternNames.map entry).map (renamed g))
    (ht : g n.id n.text = n.text) :
    (n.mapChildren h).patternNames.map entry = (n.patternNames.map entry).map (renamed g) := by
  obtain ⟨id, parent, place, label, children⟩ := n
  rw [patternNames_eq, patternNames_eq]
  cases label <;> first
    | rfl
    | exact combine_entries hb
    | exact congrArg (fun name => [(id, name)]) ht.symm

/-- What is seen of a node whose children were renamed. -/
theorem view_mapChildren (hv : ∀ c ∈ n.children, (h c).view = c.view.map g)
    (ht : g n.id n.text = n.text) : (n.mapChildren h).view = n.view.map g := by
  have hb : ∀ c ∈ n.children,
      (h c).patternNames.map entry = (c.patternNames.map entry).map (renamed g) :=
    fun c hc => congrArg View.bound (hv c hc)
  have he : (n.mapChildren h).entry = renamed g n.entry := congrArg (Prod.mk n.id) ht.symm
  have hl : (((n.mapChildren h).children).flatMap patternNames).map entry =
      ((n.children.flatMap patternNames).map entry).map (renamed g) := entries_flatMap hb
  have hd : (((n.mapChildren h).declarator?.map (·.1)).toList.flatMap patternNames).map entry =
      (((n.declarator?.map (·.1)).toList.flatMap patternNames).map entry).map (renamed g) := by
    rw [declarator?_mapChildren]
    cases hd : n.declarator? with
    | none => rfl
    | some d =>
      obtain ⟨rest, hc⟩ := children_eq_of_declarator? hd
      have hm := hb d.1 (hc ▸ List.mem_cons_self)
      simpa using hm
  rw [view, he, patternNames_mapChildren hb ht, hl, hd]
  rfl

/-- Whether a node shows the names of another one, renamed, to the nodes above that it is no list of
parameters of. -/
structure Shows (g : NodeId → String → String) (n m : Node) : Prop where
  entry : m.entry = renamed g n.entry
  isName : m.label.isIdentifier = n.label.isIdentifier
  bound : m.patternNames.map Node.entry = (n.patternNames.map Node.entry).map (renamed g)
  declared : ((m.declarator?.map (·.1)).toList.flatMap patternNames).map Node.entry =
    (((n.declarator?.map (·.1)).toList.flatMap patternNames).map Node.entry).map (renamed g)

theorem shows_of_view (hv : m.view = n.view.map g) : Shows g n m where
  entry := congrArg View.entry hv
  isName := congrArg View.isName hv
  bound := congrArg View.bound hv
  declared := congrArg View.declared hv

/-! ### What a node declares when its children are renamed -/

theorem declareIn_renamed (scope : NodeId) (names : List (NodeId × String)) :
    declareIn scope (names.map (renamed g)) = (declareIn scope names).map (·.map g) := by
  rw [declareIn, declareIn, List.map_map, List.map_map]
  rfl

theorem parameterNames_mapChildren (hp : ∀ parts, n.function? = some parts →
    ((h parts.parameters).children.flatMap patternNames).map entry =
      ((parts.parameters.children.flatMap patternNames).map entry).map (renamed g)) :
    (n.mapChildren h).parameterNames.map entry =
    (n.parameterNames.map entry).map (renamed g) := by
  rw [parameterNames, parameterNames, function?_mapChildren]
  cases hf : n.function? with
  | none => rfl
  | some parts => exact hp parts hf

section Declares

variable (hv : ∀ c ∈ n.children, Shows g c (h c))

include hv

theorem functionName_mapChildren : ((n.mapChildren h).function?.bind (·.name)).toList.map entry =
    ((n.function?.bind (·.name)).toList.map entry).map (renamed g) := by
  rw [function?_mapChildren]
  cases hf : n.function? with
  | none => rfl
  | some parts =>
    have hc := children_eq_of_function? hf
    obtain ⟨name, parameters, body⟩ := parts
    cases name with
    | none => rfl
    | some name =>
      have hm : name ∈ n.children := hc ▸ List.mem_cons_self
      exact congrArg (fun e => [e]) (hv name hm).entry

theorem partNames_mapChildren (field : String) : ((n.mapChildren h).partNames field).map entry =
    ((n.partNames field).map entry).map (renamed g) := by
  rw [partNames, partNames, part?_mapChildren]
  cases hp : n.part? field with
  | none => rfl
  | some m =>
    simpa using (hv m (part?_mem hp)).bound

theorem className_mapChildren :
    (((n.mapChildren h).part? "name").toList.filter (·.label.isIdentifier)).map entry =
      (((n.part? "name").toList.filter (·.label.isIdentifier)).map entry).map (renamed g) := by
  rw [part?_mapChildren]
  cases hp : n.part? "name" with
  | none => rfl
  | some m =>
    obtain ⟨he, hi, -⟩ := hv m (part?_mem hp)
    simp only [Option.map_some, Option.toList_some, List.filter_cons, List.filter_nil, hi]
    split
    · exact congrArg (fun e => [e]) he
    · rfl

theorem declarators_mapChildren : (((n.mapChildren h).children.filterMap fun d =>
    d.declarator?.map (·.1)).flatMap patternNames).map entry =
      (((n.children.filterMap fun d => d.declarator?.map (·.1)).flatMap patternNames).map
        entry).map (renamed g) := by
  rw [List.filterMap_eq_flatMap_toList, List.filterMap_eq_flatMap_toList, List.flatMap_assoc,
    List.flatMap_assoc]
  exact entries_flatMap fun c hc => (hv c hc).declared

theorem entries_mapChildren : (n.mapChildren h).children.map entry =
    (n.children.map entry).map (renamed g) := by
  rw [mapChildren, List.map_map, List.map_map]
  exact List.map_congr_left fun c hc => (hv c hc).entry

/-- A node whose children are renamed declares the same names, renamed. -/
theorem declares_of_shows (hp : ∀ parts, n.function? = some parts →
    ((h parts.parameters).children.flatMap patternNames).map entry =
      ((parts.parameters.children.flatMap patternNames).map entry).map (renamed g)) :
    (n.mapChildren h).declares c = (n.declares c).map (·.map g) := by
  have hname := functionName_mapChildren hv
  have hparameters := parameterNames_mapChildren hp
  unfold declares
  rw [show (n.mapChildren h).label = n.label from rfl]
  cases n.label with
  | functionDeclaration hasName =>
    simp only [List.map_append, ← declareIn_renamed, ← hname, ← hparameters]
    rfl
  | functionExpression hasName =>
    simp only [List.map_append, ← declareIn_renamed, ← hname, ← hparameters]
    rfl
  | arrowFunction =>
    simp only [← declareIn_renamed, ← hparameters]
    rfl
  | variableDeclaration keyword =>
    simp only [← declareIn_renamed, ← declarators_mapChildren hv]
  | importDeclaration => simp only [← declareIn_renamed, ← entries_mapChildren hv]
  | other kind fields keyword =>
    have hpart := partNames_mapChildren hv
    simp only [List.map_append, declaresClass, declaresHead]
    congr 1
    · split_ifs
      · rw [← declareIn_renamed, ← className_mapChildren hv]
      · rfl
    · split_ifs
      · rw [← declareIn_renamed, ← hpart]
        rfl
      · cases keyword with
        | none => rfl
        | some word =>
          dsimp only
          split_ifs
          · rfl
          · rw [← declareIn_renamed, ← hpart]
            rfl
      · rfl
  | _ => rfl

end Declares

theorem declares_mapChildren (hv : ∀ c ∈ n.children, (h c).view = c.view.map g) :
    (n.mapChildren h).declares c = (n.declares c).map (·.map g) := by
  refine declares_of_shows (fun c hc => shows_of_view (hv c hc)) fun parts hf => ?_
  exact congrArg View.listed (hv _ (parameters_mem_children hf))

/-! ### Edits of one node -/

theorem region?_mapChildren : (n.mapChildren h).region? f = n.region? f := by
  obtain ⟨id, parent, place, label, children⟩ := n
  cases label <;> rfl

theorem inner_mapChildren : (n.mapChildren h).inner f c = n.inner f c := by
  rw [inner, inner, region?_mapChildren]

/-- A tree in which one node is edited declares the same, renamed, when that node does and is seen
alike. -/
theorem declarations_modify (hg : ∀ i x, i ≠ id → g i x = x)
    (he : ∀ m ∈ n.walk, m.id = id → (edit m).view = m.view.map g ∧
      ∀ f c, (edit m).declarations f c = (m.declarations f c).map (·.map g)) :
    (n.modify id edit).view = n.view.map g ∧
      ∀ f c, (n.modify id edit).declarations f c = (n.declarations f c).map (·.map g) := by
  induction n using induct with
  | step n ih =>
    by_cases hid : n.id = id
    · rw [modify_eq, if_pos hid]
      exact he n n.self_mem_walk hid
    · have hc : ∀ c ∈ n.children, (c.modify id edit).view = c.view.map g ∧
          ∀ f d, (c.modify id edit).declarations f d = (c.declarations f d).map (·.map g) :=
        fun c hc => ih c hc fun m hm => he m (mem_walk_of_child hc hm)
      have hv := fun c hcn => (hc c hcn).1
      rw [modify_of_ne hid]
      refine ⟨view_mapChildren hv (hg _ _ hid), fun f c => ?_⟩
      rw [declarations_eq, declarations_eq, declares_mapChildren hv, inner_mapChildren,
        List.map_append, List.map_flatMap, mapChildren, List.flatMap_map]
      congr 1
      exact List.flatMap_congr fun k hk => (hc k hk).2 _ _

/-- A tree in which one node is edited opens the same scopes when that node does. -/
theorem regions_modify (he : ∀ m ∈ n.walk, m.id = id → ∀ f c, (edit m).regions f c = m.regions f c)
    (f : Bool) (c : List Region) : (n.modify id edit).regions f c = n.regions f c := by
  induction n using induct generalizing f c with
  | step n ih =>
    by_cases hid : n.id = id
    · rw [modify_eq, if_pos hid]
      exact he n n.self_mem_walk hid f c
    · rw [modify_of_ne hid, regions_eq, regions_eq, region?_mapChildren, inner_mapChildren,
        mapChildren, List.flatMap_map]
      congr 1
      exact List.flatMap_congr fun k hk => ih k hk (fun m hm => he m (mem_walk_of_child hk hm)) _ _

/-- The uses in a tree in which one node is edited are uses in the tree, renamed, as far as those
below the node are. -/
theorem uses_modify {P : Use → Prop} (hg : ∀ i x, i ≠ id → g i x = x)
    (he : ∀ m ∈ n.walk, m.id = id → ∀ f c, ∀ u ∈ (edit m).uses f c,
      P u ∨ ∃ v ∈ m.uses f c, u = v.map g) :
    ∀ f c, ∀ u ∈ (n.modify id edit).uses f c, P u ∨ ∃ v ∈ n.uses f c, u = v.map g := by
  induction n using induct with
  | step n ih =>
    intro f c u hu
    by_cases hid : n.id = id
    · rw [modify_eq, if_pos hid] at hu
      exact he n n.self_mem_walk hid f c u hu
    · rw [modify_of_ne hid, uses_eq, inner_mapChildren] at hu
      rw [uses_eq]
      rcases List.mem_append.1 hu with hu | hu
      · rw [Option.mem_toList, use?] at hu
        split_ifs at hu with hi
        cases hu
        have hi : n.label.isIdentifier := hi
        refine .inr ⟨⟨n.id, n.text, c⟩, List.mem_append_left _ ?_, ?_⟩
        · rw [use?, if_pos hi]
          exact List.mem_singleton.2 rfl
        · exact congrArg (Use.mk n.id · c) (hg _ _ hid).symm
      · obtain ⟨k, hk, hu⟩ := List.mem_flatMap.1 hu
        obtain ⟨b, hb, rfl⟩ := List.mem_map.1 hk
        rcases ih b hb (fun m hm => he m (mem_walk_of_child hb hm)) _ _ u hu with hp | ⟨v, hv, rfl⟩
        · exact .inl hp
        · exact .inr ⟨v, List.mem_append_right _ (List.mem_flatMap.2 ⟨b, hb, hv⟩), rfl⟩

end Node

end JsxLint
