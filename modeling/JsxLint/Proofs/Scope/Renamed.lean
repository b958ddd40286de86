import JsxLint.Proofs.Scope.Resolution

/-!
# The table of a renamed tree

Name resolution does not look at what names are, only at which of them are equal. So the table of a
tree in which identifiers have other names is the table of the tree with these names, as long as the
names that are declared in one scope stay apart and every use still finds what it found.

* `Node.mapNames`, `Node.Suits`: a tree with other names;
* `ScopeTable.mapNames`, `Renaming`: a table with other names;
* `ScopeTable.declareTree_mapNames`, `ScopeTable.referTree_mapNames`: the two walks;
* `ScopeTable.resolve_mapNames`: the table of the tree.
-/

namespace JsxLint

/-- A label with another name, where it holds one. -/
def Label.mapName (f : String → String) : Label → Label
  | .identifier name written shorthand => .identifier (f name) written shorthand
  | .markupName name => .markupName (f name)
  | label => label

/-! ### Trees with other names -/

namespace Node

variable {g : NodeId → String → String} {f : Bool} {c : List Region} {k m n root : Node}

mutual

/-- A tree in which the nodes that hold names hold others. -/
def mapNames (g : NodeId → String → String) : Node → Node
  | ⟨id, parent, place, label, children⟩ =>
    ⟨id, parent, place, label.mapName (g id), mapNamesAll g children⟩

/-- `mapNames` on several trees. -/
def mapNamesAll (g : NodeId → String → String) : List Node → List Node
  | [] => []
  | n :: ns => n.mapNames g :: mapNamesAll g ns

end

theorem mapNamesAll_eq (ns : List Node) : mapNamesAll g ns = ns.map (mapNames g) := by
  induction ns with
  | nil => rfl
  | cons n ns ih => rw [mapNamesAll, ih, List.map_cons]

theorem mapNames_eq (n : Node) : n.mapNames g =
    { n with label := n.label.mapName (g n.id), children := n.children.map (mapNames g) } := by
  rw [← mapNamesAll_eq]
  cases n
  rw [mapNames]

theorem mapNames_id (n : Node) : (n.mapNames g).id = n.id := by
  rw [mapNames_eq]

theorem mapNames_label (n : Node) : (n.mapNames g).label = n.label.mapName (g n.id) := by
  rw [mapNames_eq]

theorem mapNames_children (n : Node) : (n.mapNames g).children = n.children.map (mapNames g) := by
  rw [mapNames_eq]

theorem mapNames_self (n : Node) : n.mapNames (fun _ x => x) = n := by
  induction n using induct with
  | step n ih =>
    have hlabel : n.label.mapName (fun x => x) = n.label := by
      cases n.label <;> rfl
    have hchildren : n.children.map (mapNames fun _ x => x) = n.children :=
      (List.map_congr_left ih).trans (List.map_id' _)
    rw [mapNames_eq, hlabel, hchildren]
    cases n
    rfl

theorem mapNames_mapNames (h g : NodeId → String → String) (n : Node) :
    (n.mapNames g).mapNames h = n.mapNames fun i x => h i (g i x) := by
  induction n using induct with
  | step n ih =>
    have hlabel : (n.label.mapName (g n.id)).mapName (h n.id) =
        n.label.mapName fun x => h n.id (g n.id x) := by
      cases n.label <;> rfl
    rw [mapNames_eq (n.mapNames g), mapNames_eq n]
    dsimp only
    rw [hlabel, List.map_map, mapNames_eq n]
    exact congrArg (Node.mk n.id n.parent n.place _) (List.map_congr_left ih)

/-- The nodes of a tree with other names. -/
theorem walk_mapNames (n : Node) : (n.mapNames g).walk = n.walk.map (mapNames g) := by
  induction n using induct with
  | step n ih =>
    rw [walk_eq, walk_eq n, mapNames_children, List.flatMap_map, List.map_cons, List.map_flatMap]
    congr 1
    exact List.flatMap_congr ih

theorem ids_mapNames (n : Node) : (n.mapNames g).ids = n.ids := by
  rw [ids, ids, walk_mapNames, List.map_map]
  exact List.map_congr_left fun m _ => mapNames_id m

theorem mapName_isIdentifier (h : String → String) (label : Label) :
    (label.mapName h).isIdentifier = label.isIdentifier := by
  cases label <;> rfl

/-- Whether other names are given to the names in a tree only. -/
structure Suits (g : NodeId → String → String) (n : Node) : Prop where
  leaf : ∀ m ∈ n.walk, m.label.name?.isSome → m.children = []
  unnamed : ∀ m ∈ n.walk, m.label.name? = none → g m.id "" = ""

theorem Suits.child (h : n.Suits g) (hk : k ∈ n.children) : k.Suits g where
  leaf m hm := h.leaf m (mem_walk_of_child hk hm)
  unnamed m hm := h.unnamed m (mem_walk_of_child hk hm)

theorem mapNames_of_unnamed (hn : n.label.name? = none) :
    n.mapNames g = n.mapChildren (mapNames g) := by
  have hlabel : n.label.mapName (g n.id) = n.label := by
    cases hl : n.label <;> first
      | rfl
      | (rw [hl] at hn; cases hn)
  rw [mapNames_eq, hlabel, mapChildren]

theorem mapNames_parts (h : n.Suits g) :
    n.label.name? = none ∧ n.mapNames g = n.mapChildren (mapNames g) ∨
      n.label.name?.isSome ∧ n.children = [] := by
  cases hn : n.label.name? with
  | none => exact .inl ⟨rfl, mapNames_of_unnamed hn⟩
  | some x => exact .inr ⟨rfl, h.leaf n n.self_mem_walk (by rw [hn]; rfl)⟩

/-- What is seen of a node when names in it are others. -/
theorem Suits.view (h : n.Suits g) : (n.mapNames g).view = n.view.map g := by
  induction n using induct with
  | step n ih =>
    rcases mapNames_parts h with ⟨hn, he⟩ | ⟨hn, hc⟩
    · have htext : n.text = "" := by rw [text, hn, Option.getD_none]
      rw [he]
      apply view_mapChildren
      · intro k hk
        exact ih k hk (h.child hk)
      · rw [htext]
        exact h.unnamed n n.self_mem_walk hn
    · obtain ⟨id, parent, place, label, children⟩ := n
      cases hc
      cases label <;> first
        | exact absurd hn Bool.false_ne_true
        | rfl

/-- A node declares the same under other names. -/
theorem Suits.declares (h : n.Suits g) :
    (n.mapNames g).declares c = (n.declares c).map (·.map g) := by
  rcases mapNames_parts h with ⟨-, he⟩ | ⟨hn, hc⟩
  · rw [he]
    apply declares_mapChildren
    intro k hk
    exact (h.child hk).view
  · obtain ⟨id, parent, place, label, children⟩ := n
    cases label <;> first
      | exact absurd hn Bool.false_ne_true
      | rfl

theorem mapNames_region? (n : Node) : (n.mapNames g).region? f = n.region? f := by
  rw [mapNames_eq]
  cases n with
  | mk id parent place label children => cases label <;> rfl

theorem mapNames_inner (n : Node) : (n.mapNames g).inner f c = n.inner f c := by
  rw [inner, inner, mapNames_region?]

theorem mapNames_isFunction (n : Node) : (n.mapNames g).label.isFunction = n.label.isFunction := by
  rw [mapNames_label]
  cases n.label <;> rfl

theorem Suits.declarations (h : n.Suits g) :
    (n.mapNames g).declarations f c = (n.declarations f c).map (·.map g) := by
  induction n using induct generalizing f c with
  | step n ih =>
    rw [declarations_eq, declarations_eq n, h.declares, mapNames_isFunction, mapNames_inner,
      mapNames_children, List.flatMap_map, List.map_append, List.map_flatMap]
    congr 1
    apply List.flatMap_congr
    intro k hk
    exact ih k hk (h.child hk)

theorem uses_mapNames (n : Node) : (n.mapNames g).uses f c = (n.uses f c).map (·.map g) := by
  induction n using induct generalizing f c with
  | step n ih =>
    have hself : (n.mapNames g).use? c = (n.use? c).map (·.map g) := by
      rw [use?, use?, mapNames_eq]
      cases n with
      | mk id parent place label children => cases label <;> rfl
    rw [uses_eq, uses_eq n, hself, mapNames_isFunction, mapNames_inner, mapNames_children,
      List.flatMap_map, List.map_append, List.map_flatMap]
    congr 1
    · cases n.use? c <;> rfl
    · apply List.flatMap_congr
      intro k hk
      exact ih k hk

end Node

/-! ### Tables with other names -/

/-- A scope with other names, which depend on the node that opens it. -/
def Scope.mapNames (h : NodeId → String → String) (scope : Scope) : Scope :=
  { scope with names := scope.names.map fun entry => (h scope.node entry.1, entry.2) }

/-- A binding with another name, which depends on the identifier that declares it. -/
def Binding.mapName (g : NodeId → String → String) (binding : Binding) : Binding :=
  { binding with name := g binding.declaration binding.name }

/-- Whether the other names of identifiers are those of their scopes, which keep them apart. -/
structure Renaming (ds : List Declaration) (g h : NodeId → String → String) : Prop where
  name : ∀ d ∈ ds, g d.identifier d.name = h d.scope d.name
  apart : ∀ d ∈ ds, ∀ e ∈ ds, d.scope = e.scope → h e.scope d.name = h e.scope e.name →
    d.name = e.name

theorem lookup_eq_none_iff {x : String} {names : List (String × BindingId)} :
    names.lookup x = none ↔ ∀ e ∈ names, e.1 ≠ x := by
  induction names with
  | nil => simp
  | cons e names ih =>
    rw [List.forall_mem_cons, ← ih, lookup_cons_if]
    split_ifs with hx
    · simp [hx]
    · simp [Ne.symm hx]

/-- A name that is not there yet is put at the end. -/
theorem putName_of_lookup {x : String} {b : BindingId} {names : List (String × BindingId)}
    (h : names.lookup x = none) : putName x b names = names ++ [(x, b)] := by
  induction names with
  | nil => rfl
  | cons e names ih =>
    rw [lookup_eq_none_iff, List.forall_mem_cons, ← lookup_eq_none_iff] at h
    rw [putName, if_neg h.1, ih h.2]
    rfl

/-- A name is found under its other name when no name before it gets the same. -/
theorem lookup_mapNames {k : String → String} {x : String} {names : List (String × BindingId)}
    (hk : ∀ e ∈ names, k e.1 = k x → e.1 = x) :
    (names.map fun e => (k e.1, e.2)).lookup (k x) = names.lookup x := by
  induction names with
  | nil => rfl
  | cons e names ih =>
    rw [List.forall_mem_cons] at hk
    rw [List.map_cons, lookup_cons_if, lookup_cons_if, ih hk.2]
    by_cases hx : x = e.1
    · rw [if_pos hx, if_pos (congrArg k hx)]
    · rw [if_neg hx, if_neg]
      exact fun he => hx (hk.1 he.symm).symm

theorem putName_mapNames {k : String → String} {x : String} {b : BindingId}
    {names : List (String × BindingId)} (h : names.lookup x = none)
    (hk : (names.map fun e => (k e.1, e.2)).lookup (k x) = none) :
    putName (k x) b (names.map fun e => (k e.1, e.2)) =
      (putName x b names).map fun e => (k e.1, e.2) := by
  rw [putName_of_lookup h, putName_of_lookup hk, List.map_append]
  rfl

theorem map_modify {α : Type} (f g : α → α) (h : ∀ a, f (g a) = g (f a)) (l : List α) (n : Nat) :
    (l.modify n g).map f = (l.map f).modify n g := by
  apply List.ext_getElem?
  intro i
  rw [List.getElem?_map, List.getElem?_modify, List.getElem?_modify, List.getElem?_map]
  cases l[i]? with
  | none => rfl
  | some a =>
    by_cases hn : n = i
    · simp [hn, h]
    · simp [hn]

namespace ScopeTable

variable {t t' : ScopeTable} {ds all : List Declaration} {g h : NodeId → String → String}
  {s : ScopeId} {b : BindingId} {i : NodeId} {x word : String} {f : Bool} {c : List Region}
  {n m root : Node}

/-- A table with other names, given by the identifiers and by the scopes that declare them. -/
def mapNames (g h : NodeId → String → String) (t : ScopeTable) : ScopeTable :=
  { t with scopes := t.scopes.map (·.mapNames h), bindings := t.bindings.map (·.mapName g) }

theorem skeleton_mapNames (t : ScopeTable) : (t.mapNames g h).skeleton = t.skeleton :=
  List.map_map

/-- The scope of a function depends on how the scopes stand one inside the other. -/
theorem functionScope_congr (hs : t'.skeleton = t.skeleton) (s : ScopeId) :
    t'.functionScope s = t.functionScope s := by
  have hkind : ∀ r : ScopeId, (t'.scopes[r]?).map (·.kind) = (t.scopes[r]?).map (·.kind) := by
    intro r
    have hget := congrArg (fun l => (l[r]?).map fun e => e.1.kind) hs
    simpa [skeleton, Function.comp_def] using hget
  rw [functionScope, functionScope, chain_congr hs]
  simp only [hkind]

theorem owner_mapNames (t : ScopeTable) (s : ScopeId) (keyword : String) :
    (t.mapNames g h).owner s keyword = t.owner s keyword := by
  rw [owner, owner, functionScope_congr (skeleton_mapNames t)]

theorem scopeOpenedBy?_mapNames (t : ScopeTable) (node : NodeId) :
    (t.mapNames g h).scopeOpenedBy? node = t.scopeOpenedBy? node := by
  unfold scopeOpenedBy?
  exact List.findIdx?_map

theorem openScope_mapNames (t : ScopeTable) (kind : ScopeKind) (node : NodeId) (p : ScopeId) :
    (t.mapNames g h).openScope kind node p =
      ((t.openScope kind node p).1, (t.openScope kind node p).2.mapNames g h) := by
  simp [openScope, mapNames, Scope.mapNames]

theorem addReference_mapNames (t : ScopeTable) (b : BindingId) (i : NodeId) (s : ScopeId) :
    (t.mapNames g h).addReference b i s = (t.addReference b i s).mapNames g h := by
  unfold addReference mapNames
  dsimp only
  rw [map_modify]
  intro B
  rfl

section Entries

variable (hr : Renaming all g h) (ht : t.Lists ds) (hds : ds ⊆ all)

include hr ht hds

/-- The names of a scope stay apart. -/
theorem Lists.apart {d : Declaration} (hs : t.nodeOf? s = some d.scope) (hd : d ∈ all) {scope : Scope}
    (hscope : t.scopes[s]? = some scope) :
    ∀ e ∈ scope.names, h scope.node e.1 = h scope.node d.name → e.1 = d.name := by
  intro e he heq
  have hnode : scope.node = d.scope := by
    rw [nodeOf?_eq, hscope] at hs
    exact Option.some.inj hs
  have hbound : (t.bound? s e.1).isSome := by
    rw [bound?, hscope, Option.bind_some]
    by_contra hn
    rw [Option.not_isSome_iff_eq_none, lookup_eq_none_iff] at hn
    exact hn e he rfl
  obtain ⟨b, hb⟩ := Option.isSome_iff_exists.1 hbound
  obtain ⟨B, hB, rfl, hname⟩ := (ht.bound_iff s e.1 b).1 hb
  obtain ⟨m, hm, hf⟩ := ht.first b B hB
  rw [hs] at hm
  cases hm
  obtain ⟨e', he', hscope', hname', -⟩ := exists_of_firstDeclaration hf
  rw [hname] at hname'
  rw [← hname'] at heq ⊢
  rw [hnode] at heq
  exact hr.apart e' (hds he') d hd hscope' heq

/-- A scope binds a name when it binds its other name. -/
theorem Lists.bound?_mapNames {d : Declaration} (hs : t.nodeOf? s = some d.scope) (hd : d ∈ all) :
    (t.mapNames g h).bound? s (h d.scope d.name) = t.bound? s d.name := by
  cases hscope : t.scopes[s]? with
  | none =>
    rw [nodeOf?_eq, hscope] at hs
    cases hs
  | some scope =>
    have hnode : scope.node = d.scope := by
      rw [nodeOf?_eq, hscope] at hs
      exact Option.some.inj hs
    have happart := Lists.apart hr ht hds hs hd hscope
    rw [bound?, bound?, mapNames, List.getElem?_map, hscope]
    rw [← hnode]
    exact lookup_mapNames happart

/-- A name is declared under its other name. -/
theorem Lists.declare_mapNames {d : Declaration} (word : String) (hs : t.nodeOf? s = some d.scope)
    (hd : d ∈ all) :
    (t.mapNames g h).declare s d.identifier (g d.identifier d.name) word =
      ((t.declare s d.identifier d.name word).1,
        (t.declare s d.identifier d.name word).2.mapNames g h) := by
  have hbound := Lists.bound?_mapNames hr ht hds hs hd
  rw [hr.name d hd, ScopeTable.declare, ScopeTable.declare, hbound]
  cases hb : t.bound? s d.name with
  | some b =>
    dsimp only
    rw [addReference_mapNames]
    rfl
  | none =>
    have hscopes : (t.mapNames g h).scopes.modify s (fun scope =>
          { scope with names := putName (h d.scope d.name) t.bindings.length scope.names }) =
        (t.scopes.modify s fun scope =>
          { scope with names := putName d.name t.bindings.length scope.names }).map
            (·.mapNames h) := by
      apply List.ext_getElem?
      intro r
      rw [List.getElem?_map, List.getElem?_modify, List.getElem?_modify, mapNames,
        List.getElem?_map]
      cases hscope : t.scopes[r]? with
      | none => rfl
      | some scope =>
        by_cases hsr : s = r
        · subst hsr
          have hnode : scope.node = d.scope := by
            rw [nodeOf?_eq, hscope] at hs
            exact Option.some.inj hs
          rw [hb, bound?, mapNames, List.getElem?_map, hscope] at hbound
          rw [bound?, hscope, Option.bind_some] at hb
          rw [← hnode] at hbound ⊢
          have hput := putName_mapNames (b := t.bindings.length) hb hbound
          simp [Scope.mapNames, hput]
        · simp [hsr]
    have hlength : (t.mapNames g h).bindings.length = t.bindings.length := List.length_map ..
    dsimp only
    rw [hlength, hscopes]
    simp [mapNames, Binding.mapName, hr.name d hd]

end Entries

/-! ### The first walk -/

theorem declareAll_eq (t : ScopeTable) (s : ScopeId) (word : String) (ns : List Node) :
    t.declareAll s word ns =
      (ns.map Node.entry).foldl (fun t e => (t.declare s e.1 e.2 word).2) t := by
  rw [declareAll, List.foldl_map]
  rfl

section Walk

variable (hr : Renaming all g h)

include hr

/-- Identifiers are declared under their other names. -/
theorem Entered.declareAll_mapNames {scope : NodeId} {ns ns' : List Node} (ht : t.Entered ds)
    (word : String) (hs : t.nodeOf? s = some scope)
    (hd : (ds.map (·.identifier) ++ (declareIn scope (ns.map Node.entry)).map (·.identifier)).Nodup)
    (hall : ds ++ declareIn scope (ns.map Node.entry) ⊆ all)
    (hns : ns'.map Node.entry = (ns.map Node.entry).map (Node.renamed g)) :
    (t.mapNames g h).declareAll s word ns' = (t.declareAll s word ns).mapNames g h := by
  rw [declareAll_eq, declareAll_eq, hns]
  clear hns
  induction ns generalizing t ds with
  | nil => rfl
  | cons n ns ih =>
    have hcons : ds ++ declareIn scope ((n :: ns).map Node.entry) =
        ds ++ [⟨scope, n.id, n.text⟩] ++ declareIn scope (ns.map Node.entry) := by
      rw [List.append_assoc]
      rfl
    have hi : n.id ∉ ds.map (·.identifier) := fun hi =>
      (List.nodup_append.1 hd).2.2 n.id hi n.id List.mem_cons_self rfl
    have hself : (⟨scope, n.id, n.text⟩ : Declaration) ∈ all := by
      apply hall
      rw [hcons]
      simp
    have hstep := Lists.declare_mapNames hr ht.lists
      (fun e he => hall (List.mem_append_left _ he)) word hs hself
    rw [← List.map_append, hcons, List.map_append] at hd
    rw [hcons] at hall
    have hdeclared : (t.declare s n.id n.text word).2.Entered _ := ht.declare hs hi
    have hrest := ih hdeclared ((nodeOf?_congr (declare_skeleton t s n.id n.text word) s).trans hs) hd hall
    rw [List.map_cons, List.map_cons, List.foldl_cons, List.foldl_cons]
    refine Eq.trans ?_ hrest
    exact congrArg (List.foldl _ · _) (congrArg Prod.snd hstep)

theorem Entered.enterFunction_mapNames {n' : Node} (ht : t.Entered ds)
    (own own' : Option Node) (ha : t.Around s c)
    (hd : (ds.map (·.identifier) ++ (declareIn n.id (own.toList.map Node.entry) ++
      declareIn n.id (n.parameterNames.map Node.entry)).map (·.identifier)).Nodup)
    (hn : n.id ∉ t.regions.map (·.node))
    (hall : ds ++ (declareIn n.id (own.toList.map Node.entry) ++
      declareIn n.id (n.parameterNames.map Node.entry)) ⊆ all)
    (hid : n'.id = n.id)
    (hown : own'.toList.map Node.entry = (own.toList.map Node.entry).map (Node.renamed g))
    (hparameters : n'.parameterNames.map Node.entry =
      (n.parameterNames.map Node.entry).map (Node.renamed g)) :
    (t.mapNames g h).enterFunction s n' own' =
      ((t.enterFunction s n own).1, (t.enterFunction s n own).2.mapNames g h) := by
  have haround := around_openScope .function n.id ha
  have hopen : (t.openScope .function n.id s).2.Entered ds := ht.openScope hn
  rw [List.map_append, ← List.append_assoc] at hd
  rw [← List.append_assoc] at hall
  have hd1 := (List.nodup_append.1 hd).1
  have hname := hopen.declareAll_mapNames hr "function" haround.nodeOf? hd1
    (fun e he => hall (List.mem_append_left _ he)) hown
  obtain ⟨h1, hs1⟩ := hopen.declareAll haround.nodeOf? hd1
  rw [← List.map_append] at hd
  have hlist := h1.declareAll_mapNames hr "param"
    ((nodeOf?_congr hs1 _).trans haround.nodeOf?) hd hall hparameters
  rw [ScopeTable.enterFunction, ScopeTable.enterFunction, hid, openScope_mapNames]
  dsimp only
  rw [hname]
  exact congrArg (Prod.mk _) hlist

theorem Entered.declareClass_mapNames {kind : String} {n' : Node} (ht : t.Entered ds)
    (ha : t.Around s c)
    (hd : (ds.map (·.identifier) ++ (n.declaresClass c kind).map (·.identifier)).Nodup)
    (hall : ds ++ n.declaresClass c kind ⊆ all)
    (hname : ((n'.part? "name").toList.filter (·.label.isIdentifier)).map Node.entry =
      (((n.part? "name").toList.filter (·.label.isIdentifier)).map Node.entry).map
        (Node.renamed g)) :
    (t.mapNames g h).declareClass s kind n' = (t.declareClass s kind n).mapNames g h := by
  rw [Node.declaresClass] at hd hall
  rw [ScopeTable.declareClass, ScopeTable.declareClass]
  split_ifs at hd hall ⊢
  · exact ht.declareAll_mapNames hr _ ha.nodeOf? hd hall hname
  · rfl

theorem Entered.declareHead_mapNames {kind : String} {keyword : Option String} {n' : Node}
    (ht : t.Entered ds) (ha : t.Around s (⟨n.id, .block⟩ :: c)) (hc : ∃ r ∈ c, r.kind ≠ .block)
    (hd : (ds.map (·.identifier) ++ (n.declaresHead c kind keyword).map (·.identifier)).Nodup)
    (hall : ds ++ n.declaresHead c kind keyword ⊆ all)
    (hpart : ∀ field, (n'.partNames field).map Node.entry =
      ((n.partNames field).map Node.entry).map (Node.renamed g)) :
    (t.mapNames g h).declareHead s kind keyword n' = (t.declareHead s kind keyword n).mapNames g h := by
  rw [Node.declaresHead.eq_def] at hd hall
  rw [ScopeTable.declareHead.eq_def, ScopeTable.declareHead.eq_def]
  split_ifs at hd hall ⊢
  · exact ht.declareAll_mapNames hr _ ha.nodeOf? hd hall (hpart _)
  · cases keyword with
    | none => rfl
    | some word =>
      dsimp only at hd hall ⊢
      split_ifs at hd hall ⊢
      · rfl
      · obtain ⟨r, hrc, hk⟩ := hc
        rw [owner_mapNames]
        exact ht.declareAll_mapNames hr _ (ha.owner ⟨r, List.mem_cons_of_mem _ hrc, hk⟩ word) hd hall
          (hpart _)
  · rfl

/-- A declaration of a function: its name goes to the scope around it. -/
theorem Entered.enterDeclaration_mapNames {hasName : Bool} (hl : n.label = .functionDeclaration hasName)
    (hlabel : m.label = n.label) (hid : m.id = n.id) (ht : t.Entered ds) (ha : t.Around s c)
    (hd : (ds.map (·.identifier) ++ (n.declares c).map (·.identifier)).Nodup)
    (hn : n.id ∉ t.regions.map (·.node)) (hall : ds ++ n.declares c ⊆ all)
    (hname : (m.function?.bind (·.name)).toList.map Node.entry =
      ((n.function?.bind (·.name)).toList.map Node.entry).map (Node.renamed g))
    (hparameters : m.parameterNames.map Node.entry =
      (n.parameterNames.map Node.entry).map (Node.renamed g)) :
    (t.mapNames g h).enter f s m = ((t.enter f s n).1, (t.enter f s n).2.mapNames g h) := by
  rw [Node.declares.eq_def, hl] at hd hall
  rw [ScopeTable.enter.eq_def, ScopeTable.enter.eq_def, hlabel, hl]
  dsimp only at hd hall ⊢
  rw [List.map_append, ← List.append_assoc] at hd
  rw [← List.append_assoc] at hall
  have hd1 := (List.nodup_append.1 hd).1
  have hdeclared := ht.declareAll_mapNames hr "function" ha.nodeOf? hd1
    (fun e he => hall (List.mem_append_left _ he)) hname
  obtain ⟨h1, hs1⟩ := ht.declareAll ha.nodeOf? hd1
  rw [← List.map_append] at hd
  have hregions : (t.declareAll s "function" (n.function?.bind (·.name)).toList).regions =
      t.regions := congrArg (List.map _) hs1
  rw [hdeclared]
  exact h1.enterFunction_mapNames hr none none (ha.extend (hs1 ▸ List.prefix_refl _)) hd
    (hregions ▸ hn) hall hid rfl hparameters

/-- Other syntax: the name of a class goes to the scope around it, what stands at its head to its
own scope. -/
theorem Entered.enterOther_mapNames {kind : String} {fields : List (Option String)}
    {keyword : Option String} (hl : n.label = .other kind fields keyword)
    (hlabel : m.label = n.label) (hid : m.id = n.id) (ht : t.Entered ds) (ha : t.Around s c)
    (hc : ∃ r ∈ c, r.kind ≠ .block)
    (hd : (ds.map (·.identifier) ++ (n.declares c).map (·.identifier)).Nodup)
    (hn : blockKinds.contains kind → n.id ∉ t.regions.map (·.node)) (hall : ds ++ n.declares c ⊆ all)
    (hclass : ((m.part? "name").toList.filter (·.label.isIdentifier)).map Node.entry =
      (((n.part? "name").toList.filter (·.label.isIdentifier)).map Node.entry).map
        (Node.renamed g))
    (hpart : ∀ field, (m.partNames field).map Node.entry =
      ((n.partNames field).map Node.entry).map (Node.renamed g)) :
    (t.mapNames g h).enter f s m = ((t.enter f s n).1, (t.enter f s n).2.mapNames g h) := by
  rw [Node.declares.eq_def, hl] at hd hall
  rw [ScopeTable.enter.eq_def, ScopeTable.enter.eq_def, hlabel, hl]
  dsimp only at hd hall ⊢
  rw [List.map_append, ← List.append_assoc] at hd
  rw [← List.append_assoc] at hall
  have hd1 := (List.nodup_append.1 hd).1
  have hdeclared := ht.declareClass_mapNames hr ha hd1
    (fun e he => hall (List.mem_append_left _ he)) hclass
  obtain ⟨h1, hs1⟩ := ht.declareClass ha hd1
  rw [← List.map_append] at hd
  have ha1 : (t.declareClass s kind n).Around s c := ha.extend (hs1 ▸ List.prefix_refl _)
  have hregions : (t.declareClass s kind n).regions = t.regions := congrArg (List.map _) hs1
  rw [hdeclared]
  by_cases hk : blockKinds.contains kind
  · rw [if_pos hk, if_pos hk, openScope_mapNames, hid]
    have h2 : ((t.declareClass s kind n).openScope .block n.id s).2.Entered _ :=
      h1.openScope (hregions ▸ hn hk)
    dsimp only
    rw [h2.declareHead_mapNames hr (around_openScope .block n.id ha1) hc hd hall hpart]
  · rw [if_neg hk, if_neg hk]

/-- The first walk enters a node under other names. -/
theorem Entered.enter_mapNames (ht : t.Entered ds) (ha : t.Around s c)
    (hc : ∃ r ∈ c, r.kind ≠ .block)
    (hd : (ds.map (·.identifier) ++ (n.declares c).map (·.identifier)).Nodup)
    (hn : (n.region? f).isSome → n.id ∉ t.regions.map (·.node))
    (hall : ds ++ n.declares c ⊆ all) (hg : n.Suits g) :
    (t.mapNames g h).enter f s (n.mapNames g) =
      ((t.enter f s n).1, (t.enter f s n).2.mapNames g h) := by
  rcases Node.mapNames_parts hg with ⟨-, he⟩ | ⟨hnamed, hleaf⟩
  · have hv : ∀ k ∈ n.children, Node.Shows g k (k.mapNames g) := fun k hk =>
      Node.shows_of_view (hg.child hk).view
    have hp : ∀ parts, n.function? = some parts →
        ((parts.parameters.mapNames g).children.flatMap Node.patternNames).map Node.entry =
          ((parts.parameters.children.flatMap Node.patternNames).map Node.entry).map
            (Node.renamed g) := by
      intro parts hf
      have hm : parts.parameters ∈ n.children := by
        rw [Node.children_eq_of_function? hf]
        exact List.mem_append_right _ List.mem_cons_self
      exact congrArg Node.View.listed (hg.child hm).view
    have hname := Node.functionName_mapChildren hv
    have hparameters := Node.parameterNames_mapChildren hp
    have hclass := Node.className_mapChildren hv
    have hpart := Node.partNames_mapChildren hv
    have hdeclarators := Node.declarators_mapChildren hv
    have hentries := Node.entries_mapChildren hv
    rw [he]
    generalize hm : n.mapChildren (Node.mapNames g) = m at *
    have hlabel : m.label = n.label := by rw [← hm]; rfl
    have hid : m.id = n.id := by rw [← hm]; rfl
    cases hl : n.label
    case functionDeclaration =>
      rw [Node.region?.eq_def, hl] at hn
      exact ht.enterDeclaration_mapNames hr hl hlabel hid ha hd (hn rfl) hall hname hparameters
    case other kind fields keyword =>
      refine ht.enterOther_mapNames hr hl hlabel hid ha hc hd (fun hk => hn ?_) hall hclass hpart
      rw [Node.region?.eq_def, hl]
      dsimp only
      rw [if_pos hk]
      rfl
    all_goals
      rw [Node.declares.eq_def, hl] at hd hall
      rw [Node.region?.eq_def, hl] at hn
      rw [ScopeTable.enter.eq_def, ScopeTable.enter.eq_def, hlabel, hl]
    case functionExpression =>
      exact ht.enterFunction_mapNames hr _ _ ha hd (hn rfl) hall hid hname hparameters
    case arrowFunction =>
      exact ht.enterFunction_mapNames hr none none ha hd (hn rfl) hall hid rfl hparameters
    case block =>
      dsimp only
      rw [openScope_mapNames, hid]
      cases f <;> rfl
    case variableDeclaration keyword =>
      dsimp only
      rw [owner_mapNames, ht.declareAll_mapNames hr _ (ha.owner hc keyword) hd hall hdeclarators]
    case importDeclaration =>
      dsimp only
      rw [ht.declareAll_mapNames hr _ ha.nodeOf? hd hall hentries]
  · rw [ScopeTable.enter.eq_def, ScopeTable.enter.eq_def, Node.mapNames_label]
    cases hl : n.label <;> first
      | rfl
      | (rw [hl] at hnamed; cases hnamed)

omit hr in
theorem declareTrees_mapNames {ns : List Node} (hns : ∀ n ∈ ns, ∀ t ds s f c,
    Ready t ds s f c [n] → ds ++ n.declarations f c ⊆ all → n.Suits g →
    (t.mapNames g h).declareTree f s (n.mapNames g) = (t.declareTree f s n).mapNames g h)
    (ht : Ready t ds s f c ns) (hall : ds ++ ns.flatMap (Node.declarations f c) ⊆ all)
    (hg : ∀ n ∈ ns, n.Suits g) :
    (t.mapNames g h).declareTrees f s (ns.map (Node.mapNames g)) =
      (t.declareTrees f s ns).mapNames g h := by
  induction ns generalizing t ds with
  | nil => rfl
  | cons n ns ih =>
    have hwalk := declareTree_walks n t ds s f c ht.first
    rw [List.flatMap_cons, ← List.append_assoc] at hall
    have h1 := hns n List.mem_cons_self t ds s f c ht.first
      (fun e he => hall (List.mem_append_left _ he)) (hg n List.mem_cons_self)
    rw [List.map_cons, declareTrees, declareTrees, h1]
    exact ih (fun m hm => hns m (List.mem_cons_of_mem _ hm)) (ht.rest hwalk) hall
      fun m hm => hg m (List.mem_cons_of_mem _ hm)

/-- The first walk makes the same table under other names. -/
theorem declareTree_mapNames (n : Node) (t : ScopeTable) (ds : List Declaration) (s : ScopeId)
    (f : Bool) (c : List Region) (ht : Ready t ds s f c [n])
    (hall : ds ++ n.declarations f c ⊆ all) (hg : n.Suits g) :
    (t.mapNames g h).declareTree f s (n.mapNames g) = (t.declareTree f s n).mapNames g h := by
  induction n using Node.induct generalizing t ds s f c with
  | step n ih =>
    rw [Node.declarations_eq, ← List.append_assoc] at hall
    have hself := ht.entered.enter_mapNames hr ht.around ht.outer ht.declares_nodup
      ht.not_mem_regions (fun e he => hall (List.mem_append_left _ he)) hg
    rw [declareTree_eq, declareTree_eq, hself, Node.mapNames_children, Node.mapNames_isFunction]
    exact declareTrees_mapNames ih ht.children hall fun k hk => hg.child hk

end Walk

/-! ### The second walk -/

theorem refer_mapNames (t : ScopeTable) (b : BindingId) (i : NodeId) (s : ScopeId) :
    (t.mapNames g h).refer b i s = (t.refer b i s).mapNames g h := by
  rw [refer, refer, addReference_mapNames]
  rfl

/-- Whether a use that declares nothing finds under its other name what it finds. -/
def Finds (t : ScopeTable) (g h : NodeId → String → String) (u : Use) : Prop :=
  t.declared.lookup u.identifier = none → ∀ s, t.Around s u.around →
    (t.mapNames g h).lookup? s (g u.identifier u.name) = t.lookup? s u.name

theorem Finds.keep {u : Use} (hf : t.Finds g h u) (hs : t'.scopes = t.scopes)
    (hd : t'.declared = t.declared) : t'.Finds g h u := by
  intro hdecl s ha
  have hmap : (t'.mapNames g h).scopes = (t.mapNames g h).scopes :=
    congrArg (List.map (Scope.mapNames h)) hs
  rw [lookup?_congr hmap, lookup?_congr hs]
  exact hf (hd ▸ hdecl) s (ha.keep hs.symm)

theorem referNode_mapNames (ha : t.Around s c) (hf : ∀ u ∈ n.use? c, t.Finds g h u) :
    (t.mapNames g h).referNode s n.id (n.label.mapName (g n.id)) =
      (t.referNode s n.id n.label).mapNames g h := by
  rw [referNode.eq_def, referNode.eq_def]
  cases hl : n.label with
  | identifier name written shorthand =>
    have hu : n.use? c = some ⟨n.id, name, c⟩ := by
      rw [Node.use?, if_pos (by rw [hl]; rfl), Node.text, hl]
      rfl
    have hfinds := hf _ (Option.mem_def.2 hu)
    dsimp only [Label.mapName]
    rw [show (t.mapNames g h).isDeclaration n.id = t.isDeclaration n.id from rfl]
    split_ifs with hd
    · rfl
    · rw [isDeclaration, Option.not_isSome_iff_eq_none] at hd
      rw [hfinds hd s ha]
      cases t.lookup? s name with
      | none => rfl
      | some b => exact refer_mapNames t b n.id s
  | _ => rfl

theorem referTrees_mapNames {ns : List Node} (hns : ∀ n ∈ ns, ∀ (t : ScopeTable) s f c,
    t.Around s c → (∀ p ∈ n.spots f c, t.OpensAt p) → (∀ u ∈ n.uses f c, t.Finds g h u) →
    (t.mapNames g h).referTree s (n.mapNames g) = (t.referTree s n).mapNames g h)
    (ha : t.Around s c) (ho : ∀ n ∈ ns, ∀ p ∈ n.spots f c, t.OpensAt p)
    (hf : ∀ n ∈ ns, ∀ u ∈ n.uses f c, t.Finds g h u) :
    (t.mapNames g h).referTrees s (ns.map (Node.mapNames g)) =
      (t.referTrees s ns).mapNames g h := by
  induction ns generalizing t with
  | nil => rfl
  | cons n ns ih =>
    obtain ⟨hs, hd⟩ := referTree_scopes n t s
    have h1 := hns n List.mem_cons_self t s f c ha (ho n List.mem_cons_self)
      (hf n List.mem_cons_self)
    rw [List.map_cons, referTrees, referTrees, h1]
    apply ih
    · exact fun m hm => hns m (List.mem_cons_of_mem _ hm)
    · exact ha.keep hs
    · exact fun m hm p hp => (ho m (List.mem_cons_of_mem _ hm) p hp).keep hs
    · exact fun m hm u hu => (hf m (List.mem_cons_of_mem _ hm) u hu).keep hs hd

/-- The second walk notes the same under other names. -/
theorem referTree_mapNames (n : Node) (t : ScopeTable) (s : ScopeId) (f : Bool) (c : List Region)
    (ha : t.Around s c) (ho : ∀ p ∈ n.spots f c, t.OpensAt p)
    (hf : ∀ u ∈ n.uses f c, t.Finds g h u) :
    (t.mapNames g h).referTree s (n.mapNames g) = (t.referTree s n).mapNames g h := by
  induction n using Node.induct generalizing t s f c with
  | step n ih =>
    have ha1 := ho ⟨n, f, c⟩ (Node.mem_spots.2 (.inl rfl)) s ha
    rw [Node.uses_eq, ← use?_inner f c n] at hf
    rw [referTree_eq, referTree_eq t, Node.mapNames_id, Node.mapNames_label,
      Node.mapNames_children, scopeOpenedBy?_mapNames]
    dsimp only at ha1
    generalize (t.scopeOpenedBy? n.id).getD s = s' at ha1
    obtain ⟨hs, hd⟩ := referNode_scopes t s' n.id n.label
    rw [referNode_mapNames ha1 fun u hu => hf u (List.mem_append_left _ (Option.mem_toList.2 hu))]
    apply referTrees_mapNames ih
    · exact ha1.keep hs
    · exact fun k hk p hp => (ho p (Node.mem_spots.2 (.inr ⟨k, hk, hp⟩))).keep hs
    · exact fun k hk u hu =>
        (hf u (List.mem_append_right _ (List.mem_flatMap.2 ⟨k, hk, hu⟩))).keep hs hd

/-! ### The table of a tree -/

/-- The table of a tree under other names. -/
theorem resolve_mapNames (hd : root.ids.Nodup) (hs : ∀ n ∈ root.walk, n.ListsParameters)
    (hl : root.label = .program) (hg : root.Suits g)
    (hr : Renaming (root.declarations false root.program) g h)
    (hf : ∀ u ∈ root.uses false root.program, (resolve root).Finds g h u) :
    resolve (root.mapNames g) = (resolve root).mapNames g h := by
  have hdeclare := declareTree_mapNames hr root _ _ _ _ _ (ofProgram_ready hd hs hl)
    (by rw [List.nil_append]; exact fun e he => he) hg
  obtain ⟨-, -, htop, hopens⟩ := resolve_resolved hd hs hl
  rw [resolve] at htop hopens hf
  rw [resolve, resolve, Node.mapNames_id]
  generalize (ofProgram root.id).declareTree false 0 root = t at *
  -- the second walk leaves the scopes as it finds them
  obtain ⟨hscopes, hdeclared⟩ := referTree_scopes root t 0
  have hprogram : (ofProgram root.id).mapNames g h = ofProgram root.id := rfl
  rw [← hprogram, hdeclare]
  apply referTree_mapNames
  · exact htop.keep hscopes.symm
  · exact fun p hp => (hopens p hp).keep hscopes.symm
  · exact fun u hu => (hf u hu).keep hscopes.symm hdeclared.symm

end ScopeTable
end JsxLint
