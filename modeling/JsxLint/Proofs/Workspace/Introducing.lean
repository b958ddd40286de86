import JsxLint.Proofs.Workspace.Renaming

/-!
# New parameters

A function that gets one more parameter has one more declaration, and every use finds what it found
before unless it has the parameter's name and looks for it further out.

* `Inserted`, `Node.declarations_insert`: one declaration more in a tree;
* `Node.Edited.insert`: one child more;
* `Workspace.Fits`: a name can be declared in a scope without harm;
* `Workspace.Sound.declare`: a parameter that fits keeps what names refer to.
-/

namespace JsxLint

open Node

/-- Whether declarations come from others by one more. -/
def Inserted (new : Declaration) (ds ds' : List Declaration) : Prop :=
  ∃ before after, ds = before ++ after ∧ ds' = before ++ new :: after

theorem Inserted.append {new : Declaration} {ds ds' : List Declaration} (h : Inserted new ds ds')
    (before after : List Declaration) :
    Inserted new (before ++ (ds ++ after)) (before ++ (ds' ++ after)) := by
  obtain ⟨l, r, rfl, rfl⟩ := h
  exact ⟨before ++ l, r ++ after, by simp, by simp⟩

theorem Inserted.append_left {new : Declaration} {ds ds' : List Declaration} (h : Inserted new ds ds')
    (before : List Declaration) : Inserted new (before ++ ds) (before ++ ds') := by
  obtain ⟨l, r, rfl, rfl⟩ := h
  exact ⟨before ++ l, r, by simp, by simp⟩

namespace Node

variable {id fresh fresh' : NodeId} {edit : Node → Node} {new : Declaration} {k m n root : Node}

/-- A tree declares one name more when one of its nodes does and is seen alike. -/
theorem declarations_insert (hd : n.ids.Nodup) (hm : m ∈ n.walk) (hv : (edit m).view = m.view)
    (hi : ∀ f c, Inserted new (m.declarations f c) ((edit m).declarations f c)) :
    (n.modify m.id edit).view = n.view ∧
      ∀ f c, Inserted new (n.declarations f c) ((n.modify m.id edit).declarations f c) := by
  induction n using induct with
  | step n ih =>
    by_cases hid : n.id = m.id
    · obtain rfl := eq_of_id_eq hd n.self_mem_walk hm hid
      rw [modify_self]
      exact ⟨hv, hi⟩
    · rcases mem_walk.1 hm with rfl | ⟨c, hc, hmc⟩
      · exact absurd rfl hid
      · obtain ⟨hvc, hic⟩ := ih c hc (nodup_of_child hd hc) hmc
        have hviews : ∀ b ∈ n.children, (b.modify m.id edit).view =
            b.view.map fun _ x => x := by
          intro b hb
          rw [view_map_self]
          by_cases hmb : m.id ∈ b.ids
          · obtain rfl := child_eq_of_mem_ids hd hb hc hmb (id_mem_ids hmc)
            exact hvc
          · rw [modify_of_not_mem hmb]
        obtain ⟨before, after, hs, hmodify⟩ := map_modify_of_child hd hc (id_mem_ids hmc)
        rw [modify_of_ne hid]
        refine ⟨(view_mapChildren hviews rfl).trans (view_map_self _), fun f c => ?_⟩
        rw [declarations_eq n, declarations_eq (n.mapChildren _), declares_mapChildren hviews,
          declarations_map_self, inner_mapChildren, mapChildren]
        dsimp only
        rw [hmodify, hs, List.flatMap_append, List.flatMap_append, List.flatMap_cons,
          List.flatMap_cons]
        exact ((hic _ _).append _ _).append_left _

/-- An edit that puts a new child in. -/
theorem Edited.insert {before after : List Node} (h : root.Formed fresh) (hn : n ∈ root.walk)
    (hc : n.children = before ++ after) (hf : fresh ≤ fresh') (hids : k.ids.Nodup)
    (hlt : ∀ i ∈ k.ids, fresh ≤ i ∧ i < fresh') (hparent : k.parent = some n.id)
    (hlinked : k.Linked) (hshaped : ∀ m ∈ k.walk, m.Shaped)
    (hself : { n with children := before ++ k :: after : Node }.Shaped) (hidle : ¬n.label.isIdle) :
    n.Edited fresh fresh' { n with children := before ++ k :: after } := by
  have hcases : ∀ b ∈ before ++ k :: after, b = k ∨ b ∈ n.children := by
    intro b hb
    rw [hc]
    rcases List.mem_append.1 hb with hb | hb
    · exact .inr (List.mem_append_left _ hb)
    · rcases List.mem_cons.1 hb with rfl | hb
      · exact .inl rfl
      · exact .inr (List.mem_append_right _ hb)
  refine ⟨⟨rfl, rfl, rfl⟩, fun hl => hl, ⟨k.ids, List.Perm.subperm ?_, hids, hlt⟩, hf, fun m hm => ?_,
    fun m hm => ?_, fun hi => absurd (hi n n.self_mem_walk) hidle⟩
  · rw [ids_eq, ids_eq n, hc, List.flatMap_append, List.flatMap_append, List.flatMap_cons]
    refine List.perm_iff_count.2 fun a => ?_
    simp only [List.count_append, List.count_cons, List.cons_append]
    omega
  · rcases mem_walk.1 hm with rfl | ⟨b, hb, hmb⟩
    · intro b hb
      rcases hcases b hb with rfl | hb
      · exact hparent
      · exact h.linked n hn b hb
    · rcases hcases b hb with rfl | hb
      · exact hlinked m hmb
      · exact h.linked m (mem_walk_trans (mem_walk_of_child hb hmb) hn)
  · rcases mem_walk.1 hm with rfl | ⟨b, hb, hmb⟩
    · exact hself
    · rcases hcases b hb with rfl | hb
      · exact hshaped m hmb
      · exact h.shaped m (mem_walk_trans (mem_walk_of_child hb hmb) hn)

/-! ### One parameter more -/

/-- A list of parameters with one more. -/
def withParameter (n k : Node) : Node :=
  { n with children := n.children ++ [k] }

/-- What a function declares as its own name. -/
def declaresName (around : List Region) (n : Node) : List Declaration :=
  match n.label with
  | .functionDeclaration _ =>
    declareIn (Region.nearest around) ((n.function?.bind (·.name)).toList.map entry)
  | .functionExpression _ => declareIn n.id ((n.function?.bind (·.name)).toList.map entry)
  | _ => []

variable {parts : FunctionParts} {f : Bool} {c : List Region}

/-- A function declares its name and its parameters. -/
theorem declares_of_function (h : n.label.isFunction) :
    n.declares c = n.declaresName c ++ declareIn n.id (n.parameterNames.map entry) := by
  rw [declares.eq_def, declaresName.eq_def]
  cases hl : n.label <;> rw [hl] at h <;> first
    | rfl
    | exact absurd h Bool.false_ne_true

theorem view_of_function (h : n.label.isFunction) : n.view =
    ⟨(n.id, ""), false, [], (n.children.flatMap patternNames).map entry, []⟩ := by
  obtain ⟨id, parent, place, label, children⟩ := n
  cases label <;> first
    | exact absurd h Bool.false_ne_true
    | rfl

theorem parameters_of_form (h : n.label.form = "Parameters") :
    ∃ parenthesized, n.label = .parameters parenthesized := by
  cases hl : n.label <;> rw [hl] at h <;> first
    | exact ⟨_, rfl⟩
    | (simp only [Label.form] at h; exact absurd h (by decide))

theorem parameters_names (h : n.label.form = "Parameters") : n.patternNames = [] := by
  obtain ⟨parenthesized, hl⟩ := parameters_of_form h
  rw [patternNames_eq, hl]

theorem withParameter_declarations (hp : n.label.form = "Parameters") (hk : k.label.isIdentifier)
    (hleaf : k.children = []) : (n.withParameter k).declarations f c = n.declarations f c := by
  obtain ⟨parenthesized, hl⟩ := parameters_of_form hp
  have hname : k.label.name?.isSome := by
    rw [Label.name?_isSome_iff, ← Label.isIdentifier_iff]
    exact .inl hk
  have hq : n.label.isQuiet := by
    rw [hl]
    rfl
  rw [quiet_declarations hq, quiet_declarations (n := n.withParameter k) hq,
    withParameter, List.flatMap_append, List.flatMap_singleton, declarations_of_name hname hleaf,
    List.append_nil]

section Parameter

variable (hd : n.ids.Nodup) (hf : n.function? = some parts)

include hd hf

theorem parameters_ne : n.id ≠ parts.parameters.id := fun he =>
  id_not_mem_child hd (parameters_mem_children hf) (he ▸ id_mem_ids (self_mem_walk _))

/-- An edit of the parameters leaves the other parts of a function. -/
theorem map_modify_of_parameters (edit : Node → Node) : n.children.map (modify parts.parameters.id edit) =
    parts.name.toList ++ [edit parts.parameters, parts.body] := by
  have hc := children_eq_of_function? hf
  rw [ids_eq, hc, List.flatMap_append, List.flatMap_cons, List.flatMap_singleton] at hd
  have hself : parts.parameters.id ∈ parts.parameters.ids := id_mem_ids (self_mem_walk _)
  obtain ⟨-, hrest, hname⟩ := List.nodup_append.1 (List.nodup_cons.1 hd).2
  have hbody : parts.parameters.id ∉ parts.body.ids := fun hi =>
    (List.nodup_append.1 hrest).2.2 _ hself _ hi rfl
  rw [hc, List.map_append, List.map_cons, List.map_singleton, modify_self, modify_of_not_mem hbody]
  congr 1
  refine (List.map_congr_left fun m hm => modify_of_not_mem fun hi => ?_).trans (List.map_id' _)
  exact hname _ (List.mem_flatMap.2 ⟨m, hm, hi⟩) _ (List.mem_append_left _ hself) rfl

theorem function?_modifyParameters (edit : Node → Node) : (n.modify parts.parameters.id edit).function? =
    some ⟨parts.name, edit parts.parameters, parts.body⟩ := by
  have hmap := map_modify_of_parameters hd hf edit
  rw [modify_of_ne (parameters_ne hd hf), function?_mapChildren, hf, Option.map_some,
    FunctionParts.map]
  rw [children_eq_of_function? hf, List.map_append, List.map_cons, List.map_singleton] at hmap
  obtain ⟨hname, hrest⟩ := List.append_inj' hmap rfl
  simp only [List.cons.injEq, and_true] at hrest
  rw [hrest.1, hrest.2]
  cases hn : parts.name with
  | none => rfl
  | some name =>
    rw [hn] at hname
    exact congrArg (fun m => some (FunctionParts.mk m _ _)) (congrArg List.head? hname)

variable (hp : parts.parameters.label.form = "Parameters") (hk : k.label.isIdentifier)
  (hleaf : k.children = [])

include hp hk hleaf

/-- A function with one more parameter declares one name more. -/
theorem declarations_insertParameter : (n.modify parts.parameters.id (·.withParameter k)).view = n.view ∧
    ∀ f c, Inserted ⟨n.id, k.id, k.text⟩ (n.declarations f c)
      ((n.modify parts.parameters.id (·.withParameter k)).declarations f c) := by
  have hfunction := isFunction_of_function? hf
  have hc := children_eq_of_function? hf
  have hparts := function?_modifyParameters hd hf (·.withParameter k)
  have hmap := map_modify_of_parameters hd hf (·.withParameter k)
  have hne := parameters_ne hd hf
  rw [modify_of_ne hne] at hparts ⊢
  refine ⟨?_, fun f c => ?_⟩
  · rw [view_of_function hfunction, view_of_function (n := n.mapChildren _) hfunction, mapChildren]
    dsimp only
    rw [hmap, hc]
    simp only [List.flatMap_append, List.flatMap_cons, parameters_names hp,
      parameters_names (n := parts.parameters.withParameter k) hp]
  · have hname : (n.mapChildren (modify parts.parameters.id (·.withParameter k))).declaresName c =
        n.declaresName c := by
      rw [declaresName.eq_def, declaresName.eq_def, hparts, hf]
      rfl
    have hnames : (n.mapChildren (modify parts.parameters.id (·.withParameter k))).parameterNames =
        n.parameterNames ++ [k] := by
      rw [parameterNames, parameterNames, hparts, hf]
      simp only [Option.map_some, Option.getD_some, withParameter, List.flatMap_append,
        List.flatMap_singleton]
      rw [patternNames_eq k]
      cases hl : k.label <;> rw [hl] at hk <;> first
        | rfl
        | exact absurd hk Bool.false_ne_true
    refine ⟨n.declares c, n.children.flatMap (declarations n.label.isFunction (n.inner f c)),
      declarations_eq n, ?_⟩
    rw [declarations_eq, inner_mapChildren, declares_of_function (n := n.mapChildren _) hfunction,
      declares_of_function hfunction, hname, hnames, mapChildren]
    dsimp only
    rw [hmap, hc, List.map_append, declareIn, List.map_append, ← List.append_assoc, List.append_assoc]
    congr 1
    refine congrArg (List.cons _) ?_
    show List.flatMap _ _ = _
    simp only [List.flatMap_append, List.flatMap_cons,
      withParameter_declarations hp hk hleaf]

end Parameter
end Node

/-! ### Names that fit -/

theorem findSome?_eq_of_takeWhile {α β : Type} {f g : α → Option β} {l : List α} {a : α}
    (hfg : ∀ b, b ≠ a → g b = f b) (hf : f a = none)
    (ha : a ∉ l.takeWhile fun b => (f b).isNone) : l.findSome? g = l.findSome? f := by
  induction l with
  | nil => rfl
  | cons b l ih =>
    rw [List.takeWhile_cons] at ha
    rw [List.findSome?_cons, List.findSome?_cons]
    by_cases hb : b = a
    · subst hb
      rw [hf, if_pos Option.isNone_none] at ha
      exact absurd List.mem_cons_self ha
    · rw [hfg b hb]
      cases hfb : f b with
      | some c => rfl
      | none =>
        rw [hfb, if_pos Option.isNone_none] at ha
        exact ih fun hm => ha (List.mem_cons_of_mem _ hm)

/-- What a table knows of a use it still knows when a name is declared, unless the use has that name
and looks for it as far as there. -/
theorem ScopeTable.Refers.declare {t : ScopeTable} {u : Use} {r s : ScopeId} {i : NodeId}
    {name word : String} (h : t.Refers u r) (hfree : t.bound? s name = none)
    (hs : s < t.scopes.length) (hi : u.identifier ≠ i)
    (hfar : u.name = name → s ∉ (t.chain r).takeWhile fun c => (t.bound? c name).isNone) :
    (t.declare s i name word).2.Refers u r := by
  have hskeleton := declare_skeleton t s i name word
  have hbound : ∀ c y, (t.declare s i name word).2.bound? c y =
      if c = s ∧ y = name then some t.bindings.length else t.bound? c y := declare_bound? hfree hs
  have hof := declare_bindingOf? t s i u.identifier name word
  rw [if_neg hi] at hof
  have hused : (t.declare s i name word).2.usedIn.lookup u.identifier =
      t.usedIn.lookup u.identifier := declare_usedIn hi
  refine ⟨h.around.extend (hskeleton ▸ List.prefix_refl _), ?_, fun hb => ?_, fun hb => ?_⟩
  · rw [hof, h.binding, lookup?, lookup?, chain_congr hskeleton]
    by_cases hname : u.name = name
    · rw [hname]
      refine (findSome?_eq_of_takeWhile (a := s) (fun c hc => ?_) hfree (hfar hname)).symm
      rw [hbound, if_neg fun he => hc he.1]
    · congr 1
      funext c
      rw [hbound, if_neg fun he => hname he.2]
  · rw [hused]
    exact h.usedIn (hof ▸ hb)
  · rw [hused, declare_unresolved]
    exact h.unresolved (hof ▸ hb)

namespace Workspace

variable {w : Workspace} {d : Document} {start i : NodeId} {s : ScopeId} {name other word : String}
  {k n : Node} {parts : FunctionParts} {u : Use}

/-- Whether a name can be declared in a scope without harm: the scope does not have it, and what has
that name already finds a binding before it looks there. -/
structure Fits (w : Workspace) (start : NodeId) (s : ScopeId) (name : String) : Prop where
  free : w.scopes.bound? s name = none
  found : ∀ u ∈ w.document.uses, u.identifier < start → u.name = name →
    w.scopes.declared.lookup u.identifier = none → ∃ r, w.scopes.Refers u r ∧
      s ∉ (w.scopes.chain r).takeWhile fun c => (w.scopes.bound? c name).isNone

theorem lookup_declare_eq_none (hd : (w.scopes.declare s i name word).2.declared.lookup u.identifier =
    none) : w.scopes.declared.lookup u.identifier = none := by
  rw [ScopeTable.declare_declared, lookup_cons_if] at hd
  split_ifs at hd
  exact hd

/-- A name that fits still fits when another one is declared. -/
theorem Fits.declare (h : w.Fits start s name) (hs : s < w.scopes.scopes.length)
    (hfree : w.scopes.bound? s other = none) (hne : name ≠ other) (hi : start ≤ i)
    (huses : ∀ u ∈ d.uses, u.identifier < start → u ∈ w.document.uses) :
    Fits ⟨d, (w.scopes.declare s i other word).2⟩ start s name where
  free := by
    rw [ScopeTable.declare_bound? hfree hs, if_neg fun he => hne he.2]
    exact h.free
  found u hu hlt hname hd := by
    obtain ⟨r, hr, hfar⟩ := h.found u (huses u hu hlt) hlt hname (lookup_declare_eq_none hd)
    refine ⟨r, hr.declare hfree hs (Nat.ne_of_lt (Nat.lt_of_lt_of_le hlt hi)) fun he =>
      absurd (hname.symm.trans he) hne, ?_⟩
    rw [ScopeTable.chain_congr (ScopeTable.declare_skeleton ..)]
    simp only [ScopeTable.declare_bound? hfree hs, hne, and_false, if_false]
    exact hfar

end Workspace

/-! ### Documents with one name more -/

namespace Document

variable {d d' : Document} {n : Node} {parts : FunctionParts} {name : String}

/-- Whether a document comes from another one by an identifier that declares a name. -/
structure Declares (d d' : Document) (new : Declaration) : Prop where
  formed : d'.WellFormed
  follows : d.Follows d'
  declarations : Inserted new d.declarations d'.declarations
  regions : d'.regions = d.regions
  uses : ∀ u ∈ d'.uses, d.fresh ≤ u.identifier ∨ u ∈ d.uses
  fresh : d.fresh = new.identifier ∧ d.fresh < d'.fresh

/-- An identifier that was made and placed. -/
def placedIdentifier (id : NodeId) (parent : NodeId) (position : Position) (name : String) : Node :=
  ⟨id, some parent, ⟨none, position⟩, .identifier name name none, []⟩

theorem addParameter_eq (d : Document) (parameters : Node) (name : String) :
    d.addParameter parameters (Node.made (.identifier name name none) []) =
      (placedIdentifier d.fresh parameters.id parameters.place.position name,
        { d with fresh := d.fresh + 1 }.modify parameters.id
          (·.withParameter (placedIdentifier d.fresh parameters.id parameters.place.position name))) :=
  rfl

theorem placedIdentifier_walk {id parent : NodeId} {position : Position} {m : Node}
    (hm : m ∈ (placedIdentifier id parent position name).walk) :
    m = placedIdentifier id parent position name := by
  rw [walk_eq] at hm
  exact List.mem_singleton.1 hm

/-- A list of parameters gets one that was made for it. -/
theorem edited_withParameter (h : d.root.Formed d.fresh) (hn : n ∈ d.root.walk)
    (hp : n.label.form = "Parameters") (name : String) : n.Edited d.fresh (d.fresh + 1)
      (n.withParameter (placedIdentifier d.fresh n.id n.place.position name)) := by
  obtain ⟨parenthesized, hl⟩ := parameters_of_form hp
  have hids : (placedIdentifier d.fresh n.id n.place.position name).ids = [d.fresh] := by
    rw [ids_eq]
    rfl
  refine .insert h hn (List.append_nil _).symm (Nat.le_succ _) ?_ ?_ rfl ?_ ?_ ?_ ?_
  · rw [hids]
    exact List.nodup_singleton _
  · intro i hi
    rw [hids] at hi
    cases List.mem_singleton.1 hi
    exact ⟨Nat.le_refl _, Nat.lt_succ_self _⟩
  · intro m hm b hb
    rw [placedIdentifier_walk hm] at hb
    cases hb
  · intro m hm
    rw [placedIdentifier_walk hm]
    exact ⟨fun _ => rfl, fun _ h => (by cases h), fun _ h => (by cases h),
      fun _ _ h => (by cases h), fun _ h => (by cases h), fun _ h => (by cases h)⟩
  · exact shaped_of_loose (by rw [hl]; rfl)
  · rw [hl]
    exact Bool.false_ne_true

/-- A list of parameters with one that was made opens and uses what it did before. -/
theorem withParameter_seen {fresh parent : NodeId} {position : Position}
    (hp : n.label.form = "Parameters") :
    (∀ f c, (n.withParameter (placedIdentifier fresh parent position name)).regions f c =
      n.regions f c) ∧
    (∀ f c, ∀ u ∈ (n.withParameter (placedIdentifier fresh parent position name)).uses f c,
      fresh ≤ u.identifier ∨ u ∈ n.uses f c) ∧
    Succeeds fresh n (n.withParameter (placedIdentifier fresh parent position name)) := by
  obtain ⟨parenthesized, hl⟩ := parameters_of_form hp
  have hq : n.label.isQuiet := by
    rw [hl]
    rfl
  have hq' : (n.withParameter (placedIdentifier fresh parent position name)).label.isQuiet := hq
  refine ⟨fun f c => ?_, fun f c u hu => ?_, fun b hb hlt => ?_⟩
  · rw [quiet_regions hq, quiet_regions hq', withParameter, List.flatMap_append,
      List.flatMap_singleton]
    exact List.append_nil _
  · rw [quiet_uses hq', withParameter, List.flatMap_append, List.flatMap_singleton] at hu
    rw [quiet_uses hq]
    refine (List.mem_append.1 hu).symm.imp_left fun hu => ?_
    cases List.mem_singleton.1 hu
    exact Nat.le_refl fresh
  · rcases mem_walk.1 hb with rfl | ⟨c, hc, hb⟩
    · refine ⟨n, self_mem_walk n, rfl, rfl, fun he => ?_⟩
      rw [isEmptyContainer.eq_def, hl] at he
      exact absurd he Bool.false_ne_true
    · rcases List.mem_append.1 hc with hc | hc
      · exact ⟨b, mem_walk_of_child hc hb, rfl, rfl, fun he => he⟩
      · cases List.mem_singleton.1 hc
        rw [placedIdentifier_walk hb] at hlt
        exact absurd hlt (Nat.lt_irrefl _)

/-- A function that gets one more parameter declares its name. -/
theorem addParameter_declares (h : d.WellFormed) (hn : n ∈ d.root.walk)
    (hf : n.function? = some parts) (name : String) : Declares d
      (d.addParameter parts.parameters (Node.made (.identifier name name none) [])).2
      ⟨n.id, d.fresh, name⟩ := by
  have hp := (h.root.shaped n hn).parameters parts hf
  have hd := nodup_of_mem h.root.nodup hn
  have hpn := parameters_mem_children hf
  have hpr := mem_walk_trans (child_mem_walk hpn) hn
  have hself : ∀ m ∈ d.root.walk, m.id = parts.parameters.id → m = parts.parameters :=
    fun m hm he => eq_of_id_eq h.root.nodup hm hpr he
  rw [addParameter_eq]
  have hedited := edited_withParameter h.root hpr hp name
  obtain ⟨hregions, huses, hsucceeds⟩ := withParameter_seen hp
  obtain ⟨hview, hdeclarations⟩ := declarations_insertParameter (n := n)
    (k := placedIdentifier d.fresh parts.parameters.id parts.parameters.place.position name)
    hd hf hp rfl rfl
  generalize hk : placedIdentifier d.fresh parts.parameters.id parts.parameters.place.position name
    = k at hedited hregions huses hsucceeds hview hdeclarations
  have hnew : (⟨n.id, k.id, k.text⟩ : Declaration) = ⟨n.id, d.fresh, name⟩ := hk ▸ rfl
  rw [hnew] at hdeclarations
  dsimp only
  have hprogram : (d.root.modify parts.parameters.id (·.withParameter k)).program =
      d.root.program := by
    have hkeeps : d.root.Keeps (d.root.modify parts.parameters.id (·.withParameter k)) :=
      Keeps.modify fun he => hself _ (self_mem_walk _) he ▸ hedited.keeps
    rw [program, program, hkeeps.id]
  have hbelow : d.root.modify parts.parameters.id (·.withParameter k) = _ :=
    modify_below h.root.nodup hn (mem_ids_of_child hpn (id_mem_ids (self_mem_walk _)))
  have hdetached : (d.modify parts.parameters.id (·.withParameter k)).detached = d.detached :=
    h.detached_modify (id_mem_ids hpr)
  refine ⟨h.modify hpr rfl hedited fun t ht => .inl (hdetached ▸ ht), ⟨Nat.le_succ _, ?_⟩, ?_, ?_,
    fun u hu => ?_, rfl, Nat.lt_succ_self _⟩
  · refine Succeeds.modify (n := d.root) fun m hm he => ?_
    obtain rfl := hself m hm he
    exact hsucceeds
  · show Inserted _ _ ((d.root.modify parts.parameters.id (·.withParameter k)).declarations false
      (d.root.modify parts.parameters.id (·.withParameter k)).program)
    rw [hprogram, hbelow]
    exact (declarations_insert h.root.nodup hn hview hdeclarations).2 _ _
  · show (d.root.modify parts.parameters.id (·.withParameter k)).program ++
      (d.root.modify parts.parameters.id (·.withParameter k)).regions false
        (d.root.modify parts.parameters.id (·.withParameter k)).program = _
    rw [hprogram, regions_modify fun m hm he => hself m hm he ▸ hregions]
    rfl
  · have hu : u ∈ (d.root.modify parts.parameters.id (·.withParameter k)).uses false
        (d.root.modify parts.parameters.id (·.withParameter k)).program := hu
    rw [hprogram] at hu
    have hnode : ∀ m ∈ d.root.walk, m.id = parts.parameters.id → ∀ f c,
        ∀ v ∈ (m.withParameter k).uses f c, d.fresh ≤ v.identifier ∨
          ∃ v' ∈ m.uses f c, v = v'.map fun _ x => x := by
      intro m hm he f c v hv
      obtain rfl := hself m hm he
      exact (huses f c v hv).imp_right fun hv => ⟨v, hv, rfl⟩
    rcases uses_modify (P := fun u => d.fresh ≤ u.identifier) (fun _ _ _ => rfl) hnode _ _ u hu
      with hnew | ⟨v, hv, rfl⟩
    · exact .inl hnew
    · exact .inr hv

end Document

namespace Workspace

variable {w : Workspace} {d : Document} {start : NodeId} {s : ScopeId} {name word : String}
  {new : Declaration}

/-- A binding that is there stays the same when a free name is declared. -/
theorem declare_getElem? {t : ScopeTable} {x : String} {i : NodeId} {b : BindingId} {B : Binding}
    (hfree : t.bound? s x = none) (hb : t.bindings[b]? = some B) :
    (t.declare s i x word).2.bindings[b]? = some B := by
  rw [ScopeTable.declare, hfree]
  exact (List.getElem?_append_left (List.getElem?_eq_some_iff.1 hb).1).trans hb

section Declare

variable (h : w.Sound start) (hd : w.document.Declares d new)

include h hd

/-- What is declared was neither resolved nor left unresolved before. -/
theorem Sound.unresolved_new : w.scopes.bindingOf? new.identifier = none ∧
    new.identifier ∉ w.scopes.unresolved := by
  have hnew : ¬new.identifier < w.document.fresh := by
    rw [hd.fresh.1]
    exact Nat.lt_irrefl _
  refine ⟨Option.not_isSome_iff_eq_none.1 fun hb => hnew (h.lt_fresh _ (.inl hb)), fun hu => ?_⟩
  exact hnew (h.lt_fresh _ (.inr hu))

theorem Sound.ne_new {i : NodeId} (hi : i < start) : i ≠ new.identifier :=
  Nat.ne_of_lt (Nat.lt_of_lt_of_le hi (hd.fresh.1 ▸ h.fresh))

theorem Sound.adds (hs : w.scopes.nodeOf? s = some new.scope)
    (hfree : w.scopes.bound? s new.name = none) :
    Adds w.document.declarations d.declarations new := by
  obtain ⟨before, after, hb, ha⟩ := hd.declarations
  rw [hb, ha]
  refine adds_insert ?_
  rw [← hb, ← h.lists.bound?_bind hs, hfree]
  rfl

/-- Uses find what they found before when a name is declared that fits. -/
theorem Sound.knows_declare (hs : w.scopes.nodeOf? s = some new.scope)
    (hfits : w.Fits start s new.name) {u : Use} (hu : u ∈ d.uses) (hlt : u.identifier < start)
    (hnone : w.scopes.declared.lookup u.identifier = none) :
    (w.scopes.declare s new.identifier new.name word).2.Knows u := by
  have hlength := ScopeTable.lt_of_nodeOf? hs
  have hne := h.ne_new hd hlt
  have hu := (hd.uses u hu).resolve_left (Nat.not_le.2 (Nat.lt_of_lt_of_le hlt h.fresh))
  by_cases hname : u.name = new.name
  · obtain ⟨r, hr, hfar⟩ := hfits.found u hu hlt hname hnone
    exact ⟨r, hr.declare hfits.free hlength hne fun _ => hfar⟩
  · obtain ⟨r, hr⟩ := h.knows u hu hlt hnone
    exact ⟨r, hr.declare hfits.free hlength hne fun he => absurd he hname⟩

/-- What belongs to a binding still declares it or is an identifier. -/
theorem Sound.named_declare {m : Node} (hm : m ∈ d.root.walk)
    (hi : ((w.scopes.declare s new.identifier new.name word).2.bindingOf? m.id).isSome) :
    ((w.scopes.declare s new.identifier new.name word).2.declared.lookup m.id).isSome ∨
      m.label.isIdentifier := by
  rw [ScopeTable.declare_bindingOf?] at hi
  rw [ScopeTable.declare_declared, lookup_cons_if]
  split_ifs at hi ⊢ with he
  · exact .inl rfl
  · obtain ⟨l, hl, hlid, hform, -⟩ := hd.follows.node m hm (h.lt_fresh m.id (.inl hi))
    rw [← hlid] at hi ⊢
    refine (h.named l hl hi).imp_right fun hl => ?_
    rw [Label.isIdentifier_iff] at hl ⊢
    exact hform.trans hl

/-- References are still spelled like their bindings. -/
theorem Sound.spelled_declare (hfree : w.scopes.bound? s new.name = none) {u : Use}
    (hu : u ∈ d.uses) (hnone : (w.scopes.declare s new.identifier new.name
      word).2.declared.lookup u.identifier = none) {b : BindingId} {B : Binding}
    (hb : (w.scopes.declare s new.identifier new.name word).2.bindingOf? u.identifier = some b)
    (hB : (w.scopes.declare s new.identifier new.name word).2.bindings[b]? = some B) :
    u.name = B.name := by
  rw [ScopeTable.declare_declared, lookup_cons_if] at hnone
  split_ifs at hnone with he
  rw [ScopeTable.declare_bindingOf?, if_neg he] at hb
  have hu := (hd.uses u hu).resolve_left (Nat.not_le.2 (h.lt_fresh _ (.inl (by rw [hb]; rfl))))
  obtain ⟨C, hC⟩ := h.lists.exists_binding hb
  rw [declare_getElem? hfree hC] at hB
  cases hB
  exact h.spelled u hu hnone b B hb hC

/-- What was there before has the declaration that it had. -/
theorem Sound.declaration?_declare (hfree : w.scopes.bound? s new.name = none) {i : NodeId}
    (hi : i < start) : (w.scopes.declare s new.identifier new.name word).2.declaration? i =
      w.scopes.declaration? i := by
  rw [ScopeTable.declaration?, ScopeTable.declaration?, ScopeTable.declare_bindingOf?,
    if_neg (h.ne_new hd hi)]
  cases hb : w.scopes.bindingOf? i with
  | none => rfl
  | some b =>
    obtain ⟨B, hB⟩ := h.lists.exists_binding hb
    rw [Option.bind_some, Option.bind_some, ScopeTable.declarationAt?, ScopeTable.declarationAt?,
      hB, declare_getElem? hfree hB]

/-- A parameter that fits keeps what names refer to. -/
theorem Sound.declare (hs : w.scopes.nodeOf? s = some new.scope) (hfits : w.Fits start s new.name) :
    Step start w ⟨d, (w.scopes.declare s new.identifier new.name word).2⟩ := by
  obtain ⟨hnew, hunresolved⟩ := h.unresolved_new hd
  refine ⟨⟨hd.formed, Nat.le_trans h.fresh hd.follows.fresh,
    h.lists.declare hs hnew hunresolved (h.adds hd hs hfits.free), ?_,
    fun u hu hlt hnone => h.knows_declare hd hs hfits hu hlt (lookup_declare_eq_none hnone),
    fun i hi => ?_, fun m hm hi => h.named_declare hd hm hi,
    fun u hu hnone b B hb hB => h.spelled_declare hd hfits.free hu hnone hb hB⟩, hd.follows,
    fun i hi => h.declaration?_declare hd hfits.free hi⟩
  · rw [hd.regions, ← h.regions, ScopeTable.regions, ScopeTable.regions]
    exact congrArg (List.map _) (ScopeTable.declare_skeleton ..)
  · rw [ScopeTable.declare_bindingOf?, ScopeTable.declare_unresolved] at hi
    split_ifs at hi with he
    · rw [he, ← hd.fresh.1]
      exact hd.fresh.2
    · exact Nat.lt_of_lt_of_le (h.lt_fresh i hi) hd.follows.fresh

end Declare

end Workspace
end JsxLint
