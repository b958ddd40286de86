import JsxLint.Proofs.Rule.Items

/-!
# Keyed elements

What the tree looks like when an element of a list was keyed: the key refers by its text to the
second parameter of the callback around the element, and the parameters that were there before are
still there, in their order.

* `Rule.ListKey.Extends`: a list of parameters with made ones behind;
* `Rule.ListKey.Keyed`: an element that is keyed on the second parameter of its callback;
* `Rule.ListKey.exists_keyed`: what a repair leaves is such an element.
-/

namespace JsxLint

open Node

namespace Node

variable {id : NodeId} {edit : Node → Node} {l n root : Node} {parts : FunctionParts}

/-- A node above an edit is still there, itself edited. -/
theorem modify_mem_walk (hd : root.ids.Nodup) (hl : l ∈ root.walk) (hi : id ∈ l.ids) :
    l.modify id edit ∈ (root.modify id edit).walk := by
  rw [modify_below hd hl hi]
  exact mem_walk_modify_of_edit hd hl (self_mem_walk _)

/-- An edit in the body of a function leaves its other parts. -/
theorem function?_modifyBody (hd : n.ids.Nodup) (hf : n.function? = some parts)
    (hi : id ∈ parts.body.ids) : (n.modify id edit).function? =
      some { parts with body := parts.body.modify id edit } := by
  have hne : n.id ≠ id := fun he => id_not_mem_child hd (body_mem_children hf) (he ▸ hi)
  rw [ids_eq, children_eq_of_function? hf, List.flatMap_append, List.flatMap_cons,
    List.flatMap_singleton] at hd
  obtain ⟨-, hrest, hname⟩ := List.nodup_append.1 (List.nodup_cons.1 hd).2
  have hparameters : id ∉ parts.parameters.ids := fun h =>
    (List.nodup_append.1 hrest).2.2 _ h _ hi rfl
  have hnames : parts.name.map (modify id edit) = parts.name := by
    cases hn : parts.name with
    | none => rfl
    | some name =>
      rw [Option.map_some, modify_of_not_mem]
      intro h
      refine hname id ?_ id (List.mem_append_right _ hi) rfl
      rw [hn]
      simpa using h
  rw [modify_of_ne hne, function?_mapChildren, hf, Option.map_some, FunctionParts.map, hnames,
    modify_of_not_mem hparameters]

end Node

namespace Rule.ListKey

variable {w w' : Workspace} {start : NodeId} {s : ScopeId} {callback element index n : Node}
  {name : String} {names : List String} {parts : FunctionParts} {b : Option BindingId}
  {finding : Finding} {change : Change}

/-! ### Parameters -/

/-- The names of the parameters that a repair adds to others. -/
def lacking (parameters : List Node) : List String :=
  if parameters.length < 2 then missingNames parameters else []

theorem missingNames_ne_nil (parameters : List Node) : missingNames parameters ≠ [] := by
  rw [missingNames]
  split_ifs <;> exact List.cons_ne_nil _ _

/-- Whether a node is a parameter that a repair made. -/
structure IsAdded (name : String) (k : Node) : Prop where
  label : k.label = .identifier name name none
  children : k.children = []
  isMade : k.isMade

/-- Whether a list of parameters is another one with made parameters behind. -/
structure Extends (names : List String) (P P' : Node) : Prop where
  id : P'.id = P.id
  place : P'.place = P.place
  children : ∃ added, P'.children = P.children ++ added ∧ List.Forall₂ IsAdded names added
  same : names = [] → P' = P

theorem Extends.refl (P : Node) : Extends [] P P :=
  ⟨rfl, rfl, ⟨[], (List.append_nil _).symm, .nil⟩, fun _ => rfl⟩

theorem IsAdded.plainIdentifier? (h : IsAdded name k) : plainIdentifier? k = some k := by
  rw [ListKey.plainIdentifier?, h.label]
  rfl

/-- The repair extends a list by two parameters, by one, or not at all. -/
theorem Extends.cases {P P' : Node} (h : Extends (lacking P.children) P P') :
    (P.children = [] ∧ ∃ a k, P'.children = [a, k] ∧ IsAdded placeholderName a ∧
      IsAdded indexName k) ∨
    (∃ p k, P.children = [p] ∧ P'.children = [p, k] ∧ IsAdded indexName k) ∨
    (∃ p q ps, P.children = p :: q :: ps ∧ P' = P) := by
  obtain ⟨-, -, ⟨added, hchildren, hadded⟩, hsame⟩ := h
  rw [hchildren]
  rcases hP : P.children with - | ⟨p, - | ⟨q, ps⟩⟩ <;> rw [hP] at hadded hsame
  · have hadded : List.Forall₂ IsAdded [placeholderName, indexName] added := hadded
    obtain ⟨a, rest, ha, hrest, rfl⟩ := List.forall₂_cons_left_iff.1 hadded
    obtain ⟨k, rest, hk, hnil, rfl⟩ := List.forall₂_cons_left_iff.1 hrest
    obtain rfl := List.forall₂_nil_left_iff.1 hnil
    exact .inl ⟨rfl, a, k, rfl, ha, hk⟩
  · have hadded : List.Forall₂ IsAdded [indexName] added := hadded
    obtain ⟨k, rest, hk, hnil, rfl⟩ := List.forall₂_cons_left_iff.1 hadded
    obtain rfl := List.forall₂_nil_left_iff.1 hnil
    exact .inr (.inl ⟨p, k, rfl, rfl, hk⟩)
  · exact .inr (.inr ⟨p, q, ps, rfl, hsame rfl⟩)

/-- A function of a document with more parameters than before. -/
def Grown (d : Document) (callback : Node) (parts : FunctionParts) (names : List String) : Prop :=
  ∃ n ∈ d.root.walk, ∃ P, n.id = callback.id ∧ n.function? = some { parts with parameters := P } ∧
    Extends names parts.parameters P

/-- An edit of the list of parameters. -/
theorem Grown.modify {d d' : Document} {names' : List String} (hg : Grown d callback parts names)
    (hd : d.root.ids.Nodup) (edit : Node → Node)
    (hroot : d'.root = d.root.modify parts.parameters.id edit)
    (he : ∀ P, Extends names parts.parameters P → Extends names' parts.parameters (edit P)) :
    Grown d' callback parts names' := by
  obtain ⟨n, hn, P, hid, hf, hP⟩ := hg
  have hdn := nodup_of_mem hd hn
  have hPn : P ∈ n.children := parameters_mem_children hf
  rw [Grown, hroot, ← hP.id]
  refine ⟨n.modify P.id edit, modify_mem_walk hd hn (mem_ids_of_child hPn
    (id_mem_ids (self_mem_walk _))), edit P, ?_, function?_modifyParameters hdn hf edit, he P hP⟩
  rw [modify_of_ne (parameters_ne hdn hf)]
  exact hid

/-- One parameter more. -/
theorem Grown.add (hg : Grown w.document callback parts names) (h : w.Sound start) (name : String) :
    Grown (addParameter parts.parameters s w name).document callback parts (names ++ [name]) := by
  refine hg.modify h.formed.root.nodup (·.withParameter (Document.placedIdentifier
    w.document.fresh parts.parameters.id parts.parameters.place.position name)) rfl ?_
  rintro P ⟨hid, hplace, ⟨added, hchildren, hadded⟩, -⟩
  refine ⟨hid, hplace, ⟨added ++ [Document.placedIdentifier w.document.fresh parts.parameters.id
    parts.parameters.place.position name], ?_, List.rel_append hadded (.cons ⟨rfl, rfl, rfl⟩ .nil)⟩,
    fun he => absurd he (List.concat_ne_nil _ _)⟩
  rw [withParameter, hchildren, List.append_assoc]

theorem Grown.addAll {more : List String} (hg : Grown w.document callback parts names)
    (h : w.Sound start) (ho : Owns w s parts.parameters) (hd : more.Nodup)
    (hfits : ∀ x ∈ more, w.Fits start s x) :
    Grown (more.foldl (addParameter parts.parameters s) w).document callback parts
      (names ++ more) := by
  induction more generalizing w names with
  | nil => rwa [List.append_nil]
  | cons name more ih =>
    rw [List.nodup_cons] at hd
    obtain ⟨h1, ho1, -, hfits1⟩ := addParameter_step h ho (hfits name List.mem_cons_self)
    have hrest := ih (hg.add h name) h1.sound ho1 hd.2 fun x hx =>
      hfits1 x (fun he => hd.1 (he ▸ hx)) (hfits x (List.mem_cons_of_mem _ hx))
    rwa [List.append_assoc] at hrest

/-- The repair adds the parameters that are lacking, and nothing else. -/
theorem withIndex_grown (h : w.Sound start) (hcallback : callback ∈ w.document.root.walk)
    (hs : w.scopes.nodeOf? s = some callback.id) (hf : callback.function? = some parts)
    (hr : withIndex w callback parts.parameters s = .ok (w', name, b)) :
    Grown w'.document callback parts (lacking parts.parameters.children) := by
  have hself : Grown w.document callback parts [] :=
    ⟨callback, hcallback, parts.parameters, rfl, hf, .refl _⟩
  rcases withIndex_cases hr with ⟨hmany, rfl, -⟩ | ⟨hfew, hnone, hw, -⟩
  · rwa [lacking, if_neg hmany]
  · have ho : Owns w s parts.parameters := ⟨callback, hcallback, parts, hf, hs, rfl, rfl⟩
    have hfits : ∀ x ∈ missingNames parts.parameters.children, w.Fits start s x := fun x hx =>
      fits_of_introductionConflict? h hcallback hs (hnone x hx)
    have hd := missingNames_nodup parts.parameters.children
    obtain ⟨h1, -⟩ := addParameters_step h ho hd hfits
    rw [lacking, if_pos hfew, hw]
    refine (hself.addAll h ho hd hfits).modify h1.sound.formed.root.nodup _ rfl ?_
    rintro P ⟨hid, hplace, hchildren, -⟩
    exact ⟨hid, hplace, hchildren, fun he => absurd he (missingNames_ne_nil _)⟩

/-! ### The index -/

theorem patternNames_of_identifier (h : n.label.isIdentifier) : n.patternNames = [n] := by
  rw [patternNames_eq]
  cases hl : n.label <;> rw [hl] at h <;> first
    | rfl
    | exact absurd h Bool.false_ne_true

/-- A parameter that is an identifier binds it. -/
theorem plainIdentifier?_mem_patternNames (h : plainIdentifier? n = some index) :
    index ∈ n.patternNames := by
  rw [plainIdentifier?] at h
  split_ifs at h with hi hp
  · cases h
    rw [patternNames_of_identifier hi]
    exact List.mem_singleton.2 rfl
  · obtain ⟨hpart, hidentifier⟩ := Option.filter_eq_some_iff.1 h
    rw [part?.eq_def] at hpart
    cases hl : n.label with
    | other kind fields detail =>
      rw [hl] at hpart
      dsimp only at hpart
      have hkind : kind = "required_parameter" ∨ kind = "optional_parameter" := by
        simpa [isOther, hl] using hp
      have hnames : (fields.zip (n.children.map patternNames)).lookup (some "pattern") =
          some [index] := by
        rw [lookup_zip_map, hpart, Option.map_some, patternNames_of_identifier hidentifier]
      rw [patternNames_eq, hl]
      rcases hkind with rfl | rfl <;>
        simp [Pattern.combine, Pattern.containers, Pattern.bindingField?, hnames]
    | _ =>
      rw [hl] at hpart
      cases hpart

/-- A parameter that is an identifier is bound in the scope of its function. -/
theorem exists_bound_parameter (h : w.Sound start) (hn : n ∈ w.document.root.walk)
    (hf : n.function? = some parts) (hs : w.scopes.nodeOf? s = some n.id)
    (hi : index? parts.parameters.children = some index) :
    ∃ c, w.scopes.bindingOf? index.id = some c ∧ w.scopes.bound? s index.text = some c := by
  obtain ⟨p, hp, hplain⟩ := Option.bind_eq_some_iff.1 hi
  obtain ⟨above, hpath⟩ := exists_path hn
  have hdeclared : (⟨n.id, index.id, index.text⟩ : Declaration) ∈ w.document.declarations := by
    refine List.mem_flatMap.2 ⟨_, mem_spots_of_path w.document.root.program hpath, ?_⟩
    rw [declares_of_function (isFunction_of_function? hf), parameterNames, hf]
    refine List.mem_append_right _ (List.mem_map.2 ⟨index.entry, List.mem_map_of_mem ?_, rfl⟩)
    exact List.mem_flatMap.2 ⟨p, List.mem_of_getElem? hp, plainIdentifier?_mem_patternNames hplain⟩
  obtain ⟨c, C, hc, hC, hscope, hname⟩ := h.lists.complete _ hdeclared
  refine ⟨c, ScopeTable.bindingOf?_of_declared hc, (h.lists.bound_iff _ _ _).2 ⟨C, hC, ?_, hname⟩⟩
  exact h.lists.scope_eq hscope hs

/-- The second parameter is one that was there, or one that the repair added. -/
theorem Extends.index? {P P' : Node} (h : Extends (lacking P.children) P P') :
    (P.children.length < 2 ∧ ∃ k, index? P'.children = some k ∧ k.text = indexName) ∨
      ¬P.children.length < 2 ∧ index? P'.children = index? P.children := by
  have hadded : ∀ {ps : List Node} {k : Node}, ps[1]? = some k → IsAdded indexName k →
      ∃ k, ListKey.index? ps = some k ∧ k.text = indexName := by
    intro ps k hps hk
    refine ⟨k, Option.bind_eq_some_iff.2 ⟨k, hps, hk.plainIdentifier?⟩, ?_⟩
    rw [Node.text, hk.label]
    rfl
  rcases h.cases with ⟨hP, a, k, hP', -, hk⟩ | ⟨p, k, hP, hP', hk⟩ | ⟨p, q, ps, hP, rfl⟩
  · exact .inl ⟨by simp [hP], hadded (by rw [hP']; rfl) hk⟩
  · exact .inl ⟨by simp [hP], hadded (by rw [hP']; rfl) hk⟩
  · exact .inr ⟨by simp [hP], rfl⟩

theorem addParameters_skeleton (P : Node) (s : ScopeId) (w : Workspace) (names : List String) :
    (names.foldl (addParameter P s) w).scopes.skeleton = w.scopes.skeleton := by
  induction names generalizing w with
  | nil => rfl
  | cons name names ih =>
    rw [List.foldl_cons, ih]
    exact ScopeTable.declare_skeleton ..

/-- The name and the binding that the repair goes on with are those of the second parameter. -/
theorem withIndex_index (h : w.Sound start) (hcallback : callback ∈ w.document.root.walk)
    (hs : w.scopes.nodeOf? s = some callback.id) (hf : callback.function? = some parts)
    (hr : withIndex w callback parts.parameters s = .ok (w', name, b))
    (hn : n ∈ w'.document.root.walk) {P : Node} (hid : n.id = callback.id)
    (hnf : n.function? = some { parts with parameters := P })
    (hP : Extends (lacking parts.parameters.children) parts.parameters P) :
    ∃ index, index? P.children = some index ∧ index.text = name ∧
      ∃ c, w'.scopes.bindingOf? index.id = some c ∧ b = some c := by
  obtain ⟨hstep, -⟩ := withIndex_step h hcallback hs hf hr
  have hbound : ∀ {index : Node}, w'.scopes.nodeOf? s = some callback.id →
      index? P.children = some index →
      ∃ c, w'.scopes.bindingOf? index.id = some c ∧ w'.scopes.bound? s index.text = some c :=
    fun hs hi => exists_bound_parameter hstep.sound hn hnf (hs.trans (congrArg some hid.symm)) hi
  rcases withIndex_cases hr with ⟨hmany, rfl, index, hi, rfl, rfl⟩ | ⟨hfew, -, rfl, rfl, rfl⟩
  · obtain ⟨hfew, -⟩ | ⟨-, hsame⟩ := hP.index?
    · exact absurd hfew hmany
    · obtain ⟨c, hc, -⟩ := hbound hs (hsame.trans hi)
      exact ⟨index, hsame.trans hi, rfl, c, hc, hc⟩
  · obtain ⟨-, index, hi, htext⟩ | ⟨hmany, -⟩ := hP.index?
    · have hskeleton := addParameters_skeleton parts.parameters s w
        (missingNames parts.parameters.children)
      obtain ⟨c, hc, hname⟩ := hbound ((ScopeTable.nodeOf?_congr hskeleton s).trans hs) hi
      exact ⟨index, hi, htext, c, hc, htext ▸ hname⟩
    · exact absurd hfew hmany

/-! ### The key -/

/-- What an element is keyed on. -/
def key? (element : Node) : Option Node :=
  (element.element?.bind fun parts => parts.opening.findAttribute? "key").bind fun a =>
    (a.attribute?.bind (·.2)).bind (·.children.head?)

/-- The first attribute that an opening tag got is its key. -/
theorem findAttribute?_withAttribute {opening : Node} {id parent : NodeId} {position : Position}
    (hform : opening.label.form = "JSXOpeningElement") (hc : opening.children ≠ []) :
    (withAttribute opening (placedKey id parent position name)).findAttribute? "key" =
      some (placedKey id parent position name) := by
  obtain ⟨selfClosing, hl⟩ := openingTag_of_form hform
  obtain ⟨tag, attributes, hc⟩ := List.exists_cons_of_ne_nil hc
  have hopening : (withAttribute opening (placedKey id parent position name)).opening? =
      some (tag, placedKey id parent position name :: attributes) := by
    rw [withAttribute, hc, opening?.eq_def]
    dsimp only
    rw [hl]
  rw [findAttribute?, hopening, Option.bind_some]
  exact List.find?_cons_of_pos rfl

/-- An element in the body of a function that got a key. -/
theorem exists_key (element₀ : Node) (name : String) (b : Option BindingId) {eparts : ElementParts}
    (h : w.Sound start) (hn : n ∈ w.document.root.walk) (hf : n.function? = some parts)
    (helement : element ∈ parts.body.walk) (hp : element.element? = some eparts)
    (hc : eparts.opening.children ≠ []) :
    ∃ n' ∈ (insertKey w element₀ eparts.opening name b).document.root.walk, ∃ body,
      ∃ element' ∈ body.walk, n'.id = n.id ∧ n'.function? = some { parts with body } ∧
        element'.id = element.id ∧ element'.element?.isSome ∧
          ∃ parent position, key? element' =
            some (Document.placedIdentifier (w.document.fresh + 3) parent position name) := by
  have hd := nodup_of_mem h.formed.root.nodup hn
  have hbody := body_mem_children hf
  have hdb := nodup_of_child hd hbody
  have hopening : eparts.opening ∈ element.children := by
    rw [children_eq_of_element? hp]
    exact List.mem_cons_self
  have hid := mem_ids_of_child hopening (id_mem_ids (self_mem_walk _))
  have hidb := ids_subset helement _ hid
  have hne : element.id ≠ eparts.opening.id := fun he =>
    id_not_mem_child (nodup_of_mem hdb helement) hopening (he ▸ id_mem_ids (self_mem_walk _))
  have hform := (h.formed.root.shaped element (mem_walk_trans helement
    (mem_walk_trans (child_mem_walk hbody) hn))).opening eparts hp
  rw [insertKey_document, insertAttribute_eq]
  generalize hk : placedKey w.document.fresh eparts.opening.id eparts.opening.place.position name = k
  have helement' : (element.modify eparts.opening.id (withAttribute · k)).element? =
      some (eparts.map (Node.modify eparts.opening.id (withAttribute · k))) := by
    rw [modify_of_ne hne, element?_mapChildren, hp]
    rfl
  refine ⟨n.modify eparts.opening.id (withAttribute · k),
    modify_mem_walk h.formed.root.nodup hn (mem_ids_of_child hbody hidb), _,
    element.modify eparts.opening.id (withAttribute · k), modify_mem_walk hdb helement hid, ?_,
    function?_modifyBody hd hf hidb, ?_, by rw [helement']; rfl, w.document.fresh + 2,
    eparts.opening.place.position, ?_⟩
  · rw [modify_of_ne fun he => id_not_mem_child hd hbody (he ▸ hidb)]
    rfl
  · rw [modify_of_ne hne]
    rfl
  · rw [key?, helement', Option.bind_some, ElementParts.map, modify_self, ← hk,
      findAttribute?_withAttribute hform hc]
    rfl

/-- A new key belongs to the binding that it is noted under; all else keeps its own. -/
theorem insertKey_bindingOf? (h : w.Sound start) (element opening : Node) (name : String)
    (c : BindingId) :
    (insertKey w element opening name (some c)).scopes.declared.lookup (w.document.fresh + 3) =
        none ∧
      (insertKey w element opening name (some c)).scopes.bindingOf? (w.document.fresh + 3) = some c ∧
      ∀ i b, w.scopes.bindingOf? i = some b →
        (insertKey w element opening name (some c)).scopes.bindingOf? i = some b := by
  have hfresh : w.scopes.bindingOf? (w.document.fresh + 3) = none :=
    Option.not_isSome_iff_eq_none.1 fun hs =>
      Nat.not_lt.2 (Nat.le_add_right _ 3) (h.lt_fresh _ (.inl hs))
  have hscopes : (insertKey w element opening name (some c)).scopes =
      w.scopes.refer c (w.document.fresh + 3) (w.scopeOf element.id) := rfl
  rw [hscopes]
  refine ⟨(Option.or_eq_none_iff.1 hfresh).1, ?_, fun i b hb => ?_⟩
  · rw [ScopeTable.refer_bindingOf? hfresh, if_pos rfl]
  · rw [ScopeTable.refer_bindingOf? hfresh, if_neg]
    · exact hb
    · intro hi
      rw [hi, hfresh] at hb
      cases hb

/-! ### Keyed elements -/

/-- An element of a list that is keyed on the second parameter of its callback. -/
structure Keyed (root : Node) extends Item root where
  parts : FunctionParts
  key : Node
  index : Node
  function? : callback.function? = some parts
  key? : ListKey.key? element = some key
  index? : ListKey.index? parts.parameters.children = some index
  isIdentifier : key.label.isIdentifier
  text : key.text = index.text

theorem mem_children_of_findAttribute? {a : Node} (h : n.findAttribute? name = some a) :
    a ∈ n.children := by
  obtain ⟨⟨tag, attributes⟩, ho, ha⟩ := Option.bind_eq_some_iff.1 h
  rw [opening?.eq_def] at ho
  split at ho
  · next hc =>
    cases ho
    exact hc ▸ List.mem_cons_of_mem _ (List.mem_of_find?_eq_some ha)
  · cases ho

theorem mem_children_of_attribute? {value : Node} (h : n.attribute?.bind (·.2) = some value) :
    value ∈ n.children := by
  obtain ⟨⟨name, value?⟩, ha, hv⟩ := Option.bind_eq_some_iff.1 h
  rw [attribute?.eq_def] at ha
  split at ha
  · next hc =>
    cases ha
    exact hc ▸ List.mem_cons_of_mem _ (List.mem_of_mem_head? hv)
  · cases ha

/-- The key is part of the element. -/
theorem key?_mem_walk {k : Node} (h : key? element = some k) : k ∈ element.walk := by
  obtain ⟨a, ha, hk⟩ := Option.bind_eq_some_iff.1 h
  obtain ⟨parts, hparts, ha⟩ := Option.bind_eq_some_iff.1 ha
  obtain ⟨value, hvalue, hk⟩ := Option.bind_eq_some_iff.1 hk
  have hopening : parts.opening ∈ element.children := by
    rw [children_eq_of_element? hparts]
    exact List.mem_cons_self
  apply mem_walk_of_child hopening
  apply mem_walk_of_child (mem_children_of_findAttribute? ha)
  apply mem_walk_of_child (mem_children_of_attribute? hvalue)
  exact child_mem_walk (List.mem_of_mem_head? hk)

/-- What is planned for an element of a list is about the element and its callback. -/
theorem Plan.eq_item (p : Plan w finding) (h : w.Sound start) (i : Item w.document.root)
    (hi : i.element.id = finding.node) : p.element = i.element ∧ p.callback = i.callback := by
  have helement : p.element = i.element := by
    have hnode := p.node
    rw [← hi, h.formed.node?_eq i.element_mem] at hnode
    exact (Option.some.inj hnode).symm
  have hfound := p.enclosing
  rw [helement, i.enclosing h.formed] at hfound
  exact ⟨helement, (Option.some.inj hfound).symm⟩

/-- What the repair of an element of a list leaves: the element is keyed on the second parameter of
its callback, which has the parameters that it had, and the key belongs to the binding of that
parameter. -/
theorem exists_keyed (h : w.Sound start) (hnames : w.document.root.TagsHaveNames)
    (i : Item w.document.root) (hi : i.element.id = finding.node)
    (hr : repair w finding = .ok (change, w')) : ∃ k : Keyed w'.document.root,
      k.element.id = finding.node ∧ k.callback.id = i.callback.id ∧
      (∃ parts, i.callback.function? = some parts ∧
        Extends (lacking parts.parameters.children) parts.parameters k.parts.parameters) ∧
      w'.scopes.declared.lookup k.key.id = none ∧
      ∃ c, w'.scopes.bindingOf? k.key.id = some c ∧ w'.scopes.bindingOf? k.index.id = some c := by
  have hstep := repair_step h hr
  have halters : Alters True w.document.root w'.document.root := repair_alters h hr
  obtain ⟨p, -, rfl⟩ := repair_eq_ok hr
  obtain ⟨-, hcallback, hs, hopening, htag⟩ := p.in_tree h
  obtain ⟨helement, henclosing⟩ := p.eq_item h i hi
  have hbody : p.element ∈ p.functionParts.body.walk := by
    have hreturned := i.mem_returned
    rw [← helement, ← henclosing] at hreturned
    obtain ⟨_, hpath, -⟩ := exists_path_of_returned p.function? hreturned
    exact hpath.mem_walk
  obtain ⟨hbetween, -⟩ := withIndex_step h hcallback hs p.function? p.index
  obtain ⟨n, hn, P, hid, hf, hP⟩ := withIndex_grown h hcallback hs p.function? p.index
  obtain ⟨index, hindex, htext, c, hc, hb⟩ :=
    withIndex_index h hcallback hs p.function? p.index hn hid hf hP
  obtain ⟨n', hn', body, element', helement', hid', hf', heid, he, parent, position, hkey⟩ :=
    exists_key p.element p.name p.binding hbetween.sound hn hf hbody p.element?
      (hnames p.parts.opening hopening htag)
  have hformed := hstep.sound.formed
  obtain ⟨i', rfl, hcc⟩ := i.alters h.formed hformed halters
    (mem_walk_trans helement' (mem_walk_trans (child_mem_walk (body_mem_children hf')) hn'))
    (heid.trans (congrArg Node.id helement)) he
  obtain rfl : i'.callback = n' := eq_of_id_eq hformed.root.nodup i'.callback_mem hn' <|
    (hcc.id_eq.trans (congrArg Node.id henclosing).symm).trans (hid.symm.trans hid'.symm)
  obtain ⟨hundeclared, hreference, hkept⟩ :=
    insertKey_bindingOf? hbetween.sound p.element p.parts.opening p.name c
  rw [← hb] at hundeclared hreference hkept
  refine ⟨{ i' with
    parts := { p.functionParts with parameters := P, body }
    key := Document.placedIdentifier (p.between.document.fresh + 3) parent position p.name
    index
    function? := hf'
    key? := hkey
    index? := hindex
    isIdentifier := rfl
    text := htext.symm }, heid.trans ((congrArg Node.id helement).trans hi), hcc.id_eq,
    ⟨p.functionParts, henclosing ▸ p.function?, hP⟩, hundeclared, c,
    hreference.trans hb, hkept _ _ hc⟩

end Rule.ListKey
end JsxLint
