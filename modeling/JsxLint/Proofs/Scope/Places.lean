import Mathlib.Data.List.Flatten
import JsxLint.Proofs.Scope.Declarations

/-!
# Where names are declared and used

The places of declarations and uses in a tree whose nodes have names of their own: nothing is
declared twice, and the scopes around a use are those that the nodes above it open.

* `Node.regionsAbove`, `Node.exists_path_of_uses`: the scopes around a use, from the nodes above it;
* `Node.Share`: the part of a child in what its parent declares;
* `Node.declaring_nodup`: no identifier declares twice.
-/

namespace JsxLint.Node

variable {f : Bool} {c : List Region} {m n root : Node} {above : List Node}

/-! ### The scopes around a use -/

/-- Whether the nearest of the nodes above a node is a function. -/
def isInFunction (above : List Node) : Bool :=
  (above.head?.map (·.label.isFunction)).getD false

/-- The scopes that the nodes above a node open. -/
def regionsAbove : List Node → List Region
  | [] => []
  | n :: above => (n.region? (isInFunction above)).toList ++ regionsAbove above

/-- The scopes that every node of a program is in. -/
def program (root : Node) : List Region :=
  [⟨root.id, .program⟩]

theorem exists_path_of_spots {p : Spot} (outer : List Region) (hp : root.Path above n)
    (h : p ∈ n.spots (isInFunction above) (regionsAbove above ++ outer)) :
    ∃ above, root.Path above p.node ∧ p.inFunction = isInFunction above ∧
      p.around = regionsAbove above ++ outer := by
  induction n using induct generalizing above with
  | step n ih =>
    rcases mem_spots.1 h with rfl | ⟨k, hk, h⟩
    · exact ⟨above, hp, rfl, rfl⟩
    · refine ih k hk (.child hp hk) ?_
      rw [regionsAbove, List.append_assoc]
      exact h

theorem child_mem_spots {p : Spot} {k : Node} (h : p ∈ n.spots f c) (hk : k ∈ p.node.children) :
    ⟨k, p.node.label.isFunction, p.node.inner p.inFunction p.around⟩ ∈ n.spots f c := by
  induction n using induct generalizing f c with
  | step n ih =>
    rcases mem_spots.1 h with rfl | ⟨b, hb, h⟩
    · exact mem_spots.2 (.inr ⟨k, hk, mem_spots.2 (.inl rfl)⟩)
    · exact mem_spots.2 (.inr ⟨b, hb, ih b hb h⟩)

theorem mem_spots_of_path (outer : List Region) (hp : root.Path above n) :
    ⟨n, isInFunction above, regionsAbove above ++ outer⟩ ∈ root.spots false outer := by
  induction hp with
  | root => exact mem_spots.2 (.inl rfl)
  | child hp hk ih =>
    rw [regionsAbove, List.append_assoc]
    exact child_mem_spots ih hk

/-- The spots of a tree are its nodes, in order. -/
theorem spots_nodes (n : Node) (f : Bool) (c : List Region) : (n.spots f c).map (·.node) = n.walk := by
  induction n using induct generalizing f c with
  | step n ih =>
    rw [spots_eq, walk_eq, List.map_cons, List.map_flatMap]
    congr 1
    exact List.flatMap_congr fun k hk => ih k hk _ _

theorem spot_eq {p q : Spot} (hd : n.ids.Nodup) (hp : p ∈ n.spots f c) (hq : q ∈ n.spots f c)
    (h : p.node.id = q.node.id) : p = q := by
  rw [ids, ← spots_nodes n f c, List.map_map] at hd
  exact List.inj_on_of_nodup_map hd hp hq h

theorem map_filterMap_sublist {α β γ : Type} {g : α → Option β} {k : β → γ} {h : α → γ} {l : List α}
    (hg : ∀ a ∈ l, ∀ b, g a = some b → k b = h a) :
    ((l.filterMap g).map k).Sublist (l.map h) := by
  induction l with
  | nil => exact .refl _
  | cons a l ih =>
    have hrest := ih fun b hb => hg b (List.mem_cons_of_mem _ hb)
    rw [List.filterMap_cons]
    cases ha : g a with
    | none => exact hrest.cons _
    | some b =>
      rw [List.map_cons, List.map_cons, hg a List.mem_cons_self b ha]
      exact hrest.cons_cons _

/-- Every use is of an identifier of its own. -/
theorem uses_sublist (n : Node) (f : Bool) (c : List Region) :
    ((n.uses f c).map (·.identifier)).Sublist n.ids := by
  rw [ids, ← spots_nodes n f c, List.map_map]
  refine map_filterMap_sublist fun p _ u hu => ?_
  rw [use?] at hu
  split_ifs at hu
  cases hu
  rfl

/-- Every scope is opened by a node of its own. -/
theorem regions_sublist (n : Node) (f : Bool) (c : List Region) :
    ((n.regions f c).map (·.node)).Sublist n.ids := by
  rw [ids, ← spots_nodes n f c, List.map_map]
  exact map_filterMap_sublist fun p _ r hr => region?_node hr

/-- The scopes of a program. -/
theorem regions_nodup (hd : root.ids.Nodup) (hl : root.label = .program) :
    ((root.program ++ root.regions false root.program).map (·.node)).Nodup := by
  have hr : root.region? false = none := by
    rw [region?.eq_def, hl]
  rw [regions_eq, hr, Option.toList_none, List.nil_append, List.map_append, List.map_flatMap]
  rw [ids_eq, List.nodup_cons] at hd
  have hs : (root.children.flatMap fun k =>
      (k.regions root.label.isFunction (root.inner false root.program)).map (·.node)).Sublist
      (root.children.flatMap ids) :=
    List.Sublist.flatMap_right _ fun k _ => regions_sublist k _ _
  exact List.nodup_cons.2 ⟨fun hi => hd.1 (hs.subset hi), hs.nodup hd.2⟩

/-- A node that opens no scope is not among those that do. -/
theorem not_mem_regions {p : Spot} (hd : root.ids.Nodup) (hp : p ∈ root.spots false root.program)
    (hroot : p.node.id ≠ root.id) (hr : p.node.region? p.inFunction = none) :
    p.node.id ∉ (root.program ++ root.regions false root.program).map (·.node) := by
  rw [List.map_append, List.mem_append]
  rintro (hm | hm)
  · exact hroot (List.mem_singleton.1 hm)
  · obtain ⟨r, hrm, he⟩ := List.mem_map.1 hm
    obtain ⟨q, hq, hqr⟩ := List.mem_filterMap.1 hrm
    cases spot_eq hd hq hp ((region?_node hqr).symm.trans he)
    rw [hr] at hqr
    cases hqr

/-- An identifier stands below the nodes that open the scopes around its use. -/
theorem exists_path_of_uses {u : Use} (h : u ∈ root.uses false root.program) :
    ∃ above n, root.Path above n ∧ n.label.isIdentifier ∧
      u = ⟨n.id, n.text, regionsAbove above ++ root.program⟩ := by
  obtain ⟨p, hp, hu⟩ := List.mem_filterMap.1 h
  obtain ⟨above, hpath, -, ha⟩ := exists_path_of_spots root.program .root hp
  rw [use?] at hu
  split_ifs at hu with hi
  cases hu
  exact ⟨above, p.node, hpath, hi, by rw [ha]⟩

/-! ### Declaring identifiers -/

/-- The identifiers that declare something at or below a node, in order. -/
def declaring (f : Bool) (c : List Region) (n : Node) : List NodeId :=
  (n.declarations f c).map (·.identifier)

theorem declaring_eq (n : Node) : n.declaring f c = (n.declares c).map (·.identifier) ++
    n.children.flatMap (declaring n.label.isFunction (n.inner f c)) := by
  rw [declaring, declarations_eq, List.map_append, List.map_flatMap]
  rfl

/-- The part of a child in what its parent declares: identifiers in the child that declare nothing
there. -/
def Share (n : Node) (ids : List NodeId) : Prop :=
  ids.Sublist n.ids ∧ (n.ids.Nodup → ∀ i ∈ ids, ∀ f c, i ∉ n.declaring f c)

/-- What is declared at a node, as the shares of its children. -/
def Shares (ns : List Node) (ids : List NodeId) : Prop :=
  ∃ shares : List (List NodeId), List.Forall₂ Share ns shares ∧ shares.flatten = ids

theorem share_nil (n : Node) : n.Share [] :=
  ⟨List.nil_sublist _, fun _ _ hi => by cases hi⟩

theorem shares_nil (ns : List Node) : Shares ns [] := by
  refine ⟨ns.map fun _ => [], ?_, ?_⟩
  · rw [List.forall₂_map_right_iff]
    exact List.forall₂_same.2 fun n _ => share_nil n
  · simp

theorem Shares.cons {ns : List Node} {is js : List NodeId} (h : n.Share is) (hs : Shares ns js) :
    Shares (n :: ns) (is ++ js) := by
  obtain ⟨shares, h1, rfl⟩ := hs
  exact ⟨is :: shares, .cons h h1, rfl⟩

theorem shares_map {ns : List Node} {share : Node → List NodeId} (h : ∀ n ∈ ns, n.Share (share n)) :
    Shares ns (ns.flatMap share) := by
  induction ns with
  | nil => exact ⟨[], .nil, rfl⟩
  | cons n ns ih =>
    exact (ih fun m hm => h m (List.mem_cons_of_mem _ hm)).cons (h n List.mem_cons_self)

theorem shares_of_mem {ns : List Node} {ids : List NodeId} (hm : m ∈ ns) (h : m.Share ids) :
    Shares ns ids := by
  induction ns with
  | nil => cases hm
  | cons n ns ih =>
    rcases List.mem_cons.1 hm with rfl | hm
    · rw [← List.append_nil ids]
      exact (shares_nil ns).cons h
    · exact (ih hm).cons (share_nil n)

/-- Shares stand below the node. -/
theorem Shares.sublist {ns : List Node} {ids : List NodeId} (h : Shares ns ids) :
    ids.Sublist (ns.flatMap Node.ids) := by
  obtain ⟨shares, hs, rfl⟩ := h
  induction hs with
  | nil => exact .refl _
  | cons h1 _ ih => exact h1.1.append ih

theorem Shares.exists_child {ns : List Node} {ids : List NodeId} {i : NodeId} (h : Shares ns ids)
    (hi : i ∈ ids) : ∃ k ∈ ns, i ∈ k.ids ∧ (k.ids.Nodup → ∀ f c, i ∉ k.declaring f c) := by
  obtain ⟨shares, hs, rfl⟩ := h
  obtain ⟨l, hl, hil⟩ := List.mem_flatten.1 hi
  obtain ⟨k, hk, hkl⟩ := exists_of_forall₂ hs hl
  exact ⟨k, hk, hkl.1.subset hil, fun hd => hkl.2 hd i hil⟩

/-- Whether declarations stand strictly below a node. -/
def Strict (n : Node) : Prop :=
  ∀ f c, ∀ i ∈ n.declaring f c, i ∈ n.children.flatMap ids

theorem Strict.mem_ids {i : NodeId} (h : n.Strict) (hi : i ∈ n.declaring f c) : i ∈ n.ids := by
  rw [ids_eq]
  exact List.mem_cons_of_mem _ (h f c i hi)

/-- Shares of the children are declared below none of them. -/
theorem Shares.not_mem_declaring {ids : List NodeId} {i : NodeId} (h : Shares n.children ids)
    (hs : ∀ k ∈ n.children, k.Strict) (hnd : n.ids.Nodup) (hi : i ∈ ids) {k : Node}
    (hk : k ∈ n.children) : i ∉ k.declaring f c := by
  intro hm
  obtain ⟨b, hb, hib, hno⟩ := h.exists_child hi
  obtain rfl := child_eq_of_mem_ids hnd hb hk hib ((hs k hk).mem_ids hm)
  exact hno (nodup_of_child hnd hb) f c hm

/-- Shares of the children of a node that declares nothing itself. -/
theorem share_of_shares {ids : List NodeId} (hd : ∀ c, n.declares c = [])
    (hs : ∀ k ∈ n.children, k.Strict) (h : Shares n.children ids) : n.Share ids := by
  refine ⟨?_, fun hnd i hi f c hm => ?_⟩
  · rw [ids_eq]
    exact h.sublist.cons _
  · rw [declaring_eq, hd, List.map_nil, List.nil_append] at hm
    obtain ⟨b, hb, hib⟩ := List.mem_flatMap.1 hm
    exact h.not_mem_declaring hs hnd hi hb hib

theorem share_entry (h : n.Strict) : n.Share [n.id] := by
  refine ⟨?_, fun hnd i hi f c hm => ?_⟩
  · rw [ids_eq]
    exact List.singleton_sublist.2 List.mem_cons_self
  · cases List.mem_singleton.1 hi
    rw [ids_eq, List.nodup_cons] at hnd
    exact hnd.1 (h f c _ hm)

/-- Kinds of patterns declare nothing themselves. -/
theorem declares_of_pattern {kind : String} {fields : List (Option String)} {detail : Option String}
    (hl : n.label = .other kind fields detail)
    (hk : Pattern.containers.contains kind ∨ (Pattern.bindingField? kind).isSome) :
    n.declares c = [] := by
  have hkinds : kind ∉ ["class_declaration", "abstract_class_declaration", "catch_clause",
      "for_in_statement"] := by
    intro hm
    simp only [List.mem_cons, List.not_mem_nil, or_false] at hm
    rcases hm with rfl | rfl | rfl | rfl <;> exact absurd hk (by decide)
  simp only [List.mem_cons, List.not_mem_nil, or_false, not_or] at hkinds
  obtain ⟨h1, h2, h3, h4⟩ := hkinds
  rw [declares.eq_def, hl]
  simp only [declaresClass, declaresHead, h1, h2, h3, h4]
  rfl

/-- What a pattern binds is declared by no node in it. -/
theorem share_bound (h : ∀ m ∈ n.walk, m.Strict) : n.Share (n.patternNames.map (·.id)) := by
  induction n using induct with
  | step n ih =>
    have hc : ∀ k ∈ n.children, k.Share (k.patternNames.map (·.id)) :=
      fun k hk => ih k hk fun m hm => h m (mem_walk_of_child hk hm)
    have hs : ∀ k ∈ n.children, k.Strict := fun k hk => h k (child_mem_walk hk)
    rw [patternNames_eq]
    split
    · exact share_entry (h n n.self_mem_walk)
    · next kind fields detail hl =>
      rw [Pattern.combine]
      split_ifs with hk
      · refine share_of_shares (fun c => declares_of_pattern hl (.inl hk)) hs ?_
        rw [← List.flatMap_def, List.map_flatMap]
        exact shares_map hc
      · split
        · exact share_nil n
        · next field orFirst hf =>
          refine share_of_shares (fun c => declares_of_pattern hl (.inr (hf ▸ rfl))) hs ?_
          rw [lookup_zip_map]
          cases hp : (fields.zip n.children).lookup (some field) with
          | some m => exact shares_of_mem (mem_of_lookup_zip hp) (hc m (mem_of_lookup_zip hp))
          | none =>
            cases orFirst with
            | false => exact shares_nil _
            | true =>
              cases hcs : n.children with
              | nil => exact shares_nil _
              | cons m ms =>
                have hm : m ∈ n.children := hcs ▸ List.mem_cons_self
                exact shares_of_mem List.mem_cons_self (hc m hm)
    · exact share_nil n

/-- The names of a list of parameters are declared by no node in it. -/
theorem share_listed (hl : n.label.form = "Parameters") (h : ∀ m ∈ n.walk, m.Strict) :
    n.Share ((n.children.flatMap patternNames).map (·.id)) := by
  have hd : ∀ c, n.declares c = [] := by
    obtain ⟨id, parent, place, label, children⟩ := n
    cases label <;> first
      | exact fun _ => rfl
      | (simp only [Label.form] at hl; exact absurd hl (by decide))
  refine share_of_shares hd (fun k hk => h k (child_mem_walk hk)) ?_
  rw [List.map_flatMap]
  exact shares_map fun k hk => share_bound fun m hm => h m (mem_walk_of_child hk hm)

/-- The names of a declarator are declared by no node in it. -/
theorem share_declared (h : ∀ m ∈ n.walk, m.Strict) :
    n.Share (((n.declarator?.map (·.1)).toList.flatMap patternNames).map (·.id)) := by
  cases hd : n.declarator? with
  | none => exact share_nil n
  | some d =>
    obtain ⟨pattern, value⟩ := d
    obtain ⟨rest, hc⟩ := children_eq_of_declarator? hd
    have hm : pattern ∈ n.children := hc ▸ List.mem_cons_self
    have hl : ∀ c, n.declares c = [] := by
      obtain ⟨id, parent, place, label, children⟩ := n
      cases label <;> first
        | exact fun _ => rfl
        | cases hd
    refine share_of_shares hl (fun k hk => h k (child_mem_walk hk)) ?_
    have hs := shares_of_mem hm (share_bound fun m hmw => h m (mem_walk_of_child hm hmw))
    simpa using hs

theorem declareIn_identifiers (scope : NodeId) (ns : List Node) :
    (declareIn scope (ns.map entry)).map (·.identifier) = ns.map (·.id) := by
  rw [declareIn, List.map_map, List.map_map]
  rfl

/-- What a function declares are shares of its name and its parameters. -/
theorem shares_function (hs : n.ListsParameters) (h : ∀ k ∈ n.children, ∀ m ∈ k.walk, m.Strict) :
    Shares n.children (((n.function?.bind (·.name)).toList ++ n.parameterNames).map (·.id)) ∧
      Shares n.children (n.parameterNames.map (·.id)) := by
  cases hf : n.function? with
  | none =>
    rw [parameterNames, hf]
    exact ⟨shares_nil _, shares_nil _⟩
  | some parts =>
    have hc := children_eq_of_function? hf
    have hp := hs parts hf
    obtain ⟨name, parameters, body⟩ := parts
    have hm : parameters ∈ n.children := by
      rw [hc]
      exact List.mem_append_right _ List.mem_cons_self
    have hlisted := share_listed hp (h parameters hm)
    rw [parameterNames, hf]
    refine ⟨?_, shares_of_mem hm hlisted⟩
    have hrest := (shares_nil [body]).cons hlisted
    rw [List.append_nil] at hrest
    cases name with
    | none =>
      rw [hc]
      exact hrest
    | some name =>
      have hn : name ∈ n.children := hc ▸ List.mem_cons_self
      rw [hc]
      exact hrest.cons (share_entry (h name hn name name.self_mem_walk))

/-- What a part that is a pattern binds is the share of that part. -/
theorem shares_partNames (field : String) (h : ∀ k ∈ n.children, ∀ m ∈ k.walk, m.Strict) :
    Shares n.children ((n.partNames field).map (·.id)) := by
  rw [partNames]
  cases hp : n.part? field with
  | none => exact shares_nil _
  | some k =>
    have hs := shares_of_mem (part?_mem hp) (share_bound (h k (part?_mem hp)))
    simpa using hs

theorem shares_className (h : ∀ k ∈ n.children, ∀ m ∈ k.walk, m.Strict) :
    Shares n.children (((n.part? "name").toList.filter (·.label.isIdentifier)).map (·.id)) := by
  cases hp : n.part? "name" with
  | none => exact shares_nil _
  | some k =>
    rw [Option.toList_some, List.filter_singleton]
    cases k.label.isIdentifier with
    | false => exact shares_nil _
    | true => exact shares_of_mem (part?_mem hp) (share_entry (h k (part?_mem hp) k k.self_mem_walk))

/-- What a node declares are shares of its children. -/
theorem shares_declares (hs : n.ListsParameters) (h : ∀ k ∈ n.children, ∀ m ∈ k.walk, m.Strict) :
    Shares n.children ((n.declares c).map (·.identifier)) := by
  obtain ⟨hnamed, hlisted⟩ := shares_function hs h
  rw [List.map_append] at hnamed
  rw [declares.eq_def]
  split
  · rwa [List.map_append, declareIn_identifiers, declareIn_identifiers]
  · rwa [List.map_append, declareIn_identifiers, declareIn_identifiers]
  · rwa [declareIn_identifiers]
  · rw [declareIn_identifiers, List.filterMap_eq_flatMap_toList, List.flatMap_assoc,
      List.map_flatMap]
    exact shares_map fun k hk => share_declared (h k hk)
  · rw [declareIn_identifiers, List.map_eq_flatMap]
    exact shares_map fun k hk => share_entry (h k hk k k.self_mem_walk)
  · next kind _ keyword _ =>
    -- no kind of syntax both is a class and has a head
    by_cases hk : kind = "class_declaration" ∨ kind = "abstract_class_declaration"
    · have hhead : n.declaresHead c kind keyword = [] := by
        rcases hk with rfl | rfl <;> rfl
      rw [hhead, List.append_nil, declaresClass, if_pos (by simpa using hk), declareIn_identifiers]
      exact shares_className h
    · rw [declaresClass, if_neg (by simpa using hk), List.nil_append, declaresHead.eq_def]
      split_ifs
      · rw [declareIn_identifiers]
        exact shares_partNames _ h
      · cases keyword with
        | none => exact shares_nil _
        | some word =>
          dsimp only
          split_ifs
          · exact shares_nil _
          · rw [declareIn_identifiers]
            exact shares_partNames _ h
      · exact shares_nil _
  · exact shares_nil _

/-- Nodes declare identifiers strictly below them. -/
theorem strict_of_lists (h : ∀ m ∈ n.walk, m.ListsParameters) : ∀ m ∈ n.walk, m.Strict := by
  induction n using induct with
  | step n ih =>
    have hc : ∀ k ∈ n.children, ∀ m ∈ k.walk, m.Strict := fun k hk =>
      ih k hk fun m hm => h m (mem_walk_of_child hk hm)
    intro m hm
    rcases mem_walk.1 hm with rfl | ⟨k, hk, hm⟩
    · intro f c i hi
      rw [declaring_eq] at hi
      rcases List.mem_append.1 hi with hi | hi
      · exact (shares_declares (h m m.self_mem_walk) hc).sublist.subset hi
      · obtain ⟨k, hk, hi⟩ := List.mem_flatMap.1 hi
        exact List.mem_flatMap.2 ⟨k, hk, (hc k hk k k.self_mem_walk).mem_ids hi⟩
    · exact hc k hk m hm

/-- No identifier declares twice. -/
theorem declaring_nodup (hd : n.ids.Nodup) (h : ∀ m ∈ n.walk, m.ListsParameters) :
    (n.declaring f c).Nodup := by
  induction n using induct generalizing f c with
  | step n ih =>
    have hc : ∀ k ∈ n.children, ∀ m ∈ k.walk, m.ListsParameters := fun k hk m hm =>
      h m (mem_walk_of_child hk hm)
    have hstrict : ∀ k ∈ n.children, ∀ m ∈ k.walk, m.Strict := fun k hk =>
      strict_of_lists (hc k hk)
    have hs := shares_declares (c := c) (h n n.self_mem_walk) hstrict
    have hids : (n.children.flatMap ids).Nodup := by
      rw [ids_eq, List.nodup_cons] at hd
      exact hd.2
    rw [declaring_eq]
    refine List.nodup_append'.2 ⟨hs.sublist.nodup hids, List.nodup_flatMap.2 ⟨?_, ?_⟩, ?_⟩
    · exact fun k hk => ih k hk (nodup_of_child hd hk) (hc k hk)
    · refine List.Pairwise.imp_of_mem ?_ (List.nodup_flatMap.1 hids).2
      intro a b ha hb hab i hia hib
      exact hab ((hstrict a ha a a.self_mem_walk).mem_ids hia)
        ((hstrict b hb b b.self_mem_walk).mem_ids hib)
    · intro i hi hik
      obtain ⟨k, hk, hik⟩ := List.mem_flatMap.1 hik
      exact hs.not_mem_declaring (fun k hk => hstrict k hk k k.self_mem_walk) hd hi hk hik

/-! ### Declared names -/

theorem mem_combine {kind : String} {fields : List (Option String)} {parts : List (List Node)}
    (h : m ∈ Pattern.combine kind fields parts) : ∃ names ∈ parts, m ∈ names := by
  rw [Pattern.combine] at h
  split_ifs at h
  · exact List.mem_flatten.1 h
  · split at h
    · cases h
    · next field orFirst _ =>
      split at h
      · next names hl => exact ⟨names, mem_of_lookup_zip hl, h⟩
      · cases parts with
        | nil => cases orFirst <;> cases h
        | cons names _ =>
          cases orFirst with
          | false => cases h
          | true => exact ⟨names, List.mem_cons_self, h⟩

/-- A pattern binds identifiers in it. -/
theorem mem_walk_of_patternNames (h : m ∈ n.patternNames) : m ∈ n.walk ∧ m.label.isIdentifier := by
  induction n using induct with
  | step n ih =>
    rw [patternNames_eq] at h
    split at h
    · next hl =>
      cases List.mem_singleton.1 h
      exact ⟨self_mem_walk _, by rw [hl]; rfl⟩
    · obtain ⟨names, hn, hm⟩ := mem_combine h
      obtain ⟨k, hk, rfl⟩ := List.mem_map.1 hn
      exact (ih k hk hm).imp_left (mem_walk_of_child hk)
    · cases h

theorem mem_declareIn {scope : NodeId} {ns : List Node} {d : Declaration}
    (h : d ∈ declareIn scope (ns.map entry)) : ∃ m ∈ ns, m.entry = (d.identifier, d.name) := by
  rw [declareIn, List.map_map] at h
  obtain ⟨m, hm, rfl⟩ := List.mem_map.1 h
  exact ⟨m, hm, rfl⟩

/-- Whether a node in a tree can be what its root declares: an identifier, or a part of a function
or of an import. -/
def Declarable (n m : Node) : Prop :=
  m ∈ n.walk ∧ (m.label.isIdentifier ∨
    m ∈ n.children ∧ (n.label.isFunction ∨ n.label = .importDeclaration))

theorem declarable_of_patternNames {k : Node} (hk : k ∈ n.walk) (h : m ∈ k.patternNames) :
    n.Declarable m :=
  let ⟨hm, hi⟩ := mem_walk_of_patternNames h
  ⟨mem_walk_trans hm hk, .inl hi⟩

theorem declarable_of_parameterNames (h : m ∈ n.parameterNames) : n.Declarable m := by
  rw [parameterNames] at h
  cases hf : n.function? with
  | none =>
    rw [hf] at h
    cases h
  | some parts =>
    rw [hf] at h
    obtain ⟨k, hk, hm⟩ := List.mem_flatMap.1 h
    have hk := mem_walk_of_child (parameters_mem_children hf) (child_mem_walk hk)
    exact declarable_of_patternNames hk hm

theorem declarable_of_functionName (hl : n.label.isFunction)
    (h : m ∈ (n.function?.bind (·.name)).toList) : n.Declarable m := by
  obtain ⟨parts, hf, hn⟩ := Option.bind_eq_some_iff.1 (Option.mem_toList.1 h)
  have hc : m ∈ n.children := by
    rw [children_eq_of_function? hf, hn]
    exact List.mem_cons_self
  exact ⟨child_mem_walk hc, .inr ⟨hc, .inl hl⟩⟩

theorem declarable_of_partNames {field : String} (h : m ∈ n.partNames field) : n.Declarable m := by
  obtain ⟨k, hk, hm⟩ := List.mem_flatMap.1 h
  exact declarable_of_patternNames (child_mem_walk (part?_mem (Option.mem_toList.1 hk))) hm

/-- What a node declares are names of nodes at or below it. -/
theorem exists_of_mem_declares {d : Declaration} (h : d ∈ n.declares c) :
    ∃ m, n.Declarable m ∧ m.entry = (d.identifier, d.name) := by
  have hin : ∀ {scope} {ns : List Node}, (∀ m ∈ ns, n.Declarable m) →
      d ∈ declareIn scope (ns.map entry) → ∃ m, n.Declarable m ∧ m.entry = (d.identifier, d.name) :=
    fun hns hd =>
    let ⟨m, hm, he⟩ := mem_declareIn hd
    ⟨m, hns m hm, he⟩
  have hparameters := fun m => declarable_of_parameterNames (m := m) (n := n)
  rw [declares.eq_def] at h
  split at h
  · next hl =>
    rcases List.mem_append.1 h with h | h
    · exact hin (fun m => declarable_of_functionName (by rw [hl]; rfl)) h
    · exact hin hparameters h
  · next hl =>
    rcases List.mem_append.1 h with h | h
    · exact hin (fun m => declarable_of_functionName (by rw [hl]; rfl)) h
    · exact hin hparameters h
  · exact hin hparameters h
  · refine hin (fun m hm => ?_) h
    obtain ⟨pattern, hp, hm⟩ := List.mem_flatMap.1 hm
    obtain ⟨k, hk, hp⟩ := List.mem_filterMap.1 hp
    obtain ⟨⟨_, value⟩, hd, rfl⟩ := Option.map_eq_some_iff.1 hp
    obtain ⟨rest, hc⟩ := children_eq_of_declarator? hd
    exact declarable_of_patternNames
      (mem_walk_of_child hk (child_mem_walk (hc ▸ List.mem_cons_self))) hm
  · next hl => exact hin (fun m hm => ⟨child_mem_walk hm, .inr ⟨hm, .inr hl⟩⟩) h
  · rcases List.mem_append.1 h with h | h
    · rw [declaresClass] at h
      split_ifs at h
      · refine hin (fun m hm => ?_) h
        obtain ⟨hm, hi⟩ := List.mem_filter.1 hm
        exact ⟨child_mem_walk (part?_mem (Option.mem_toList.1 hm)), .inl hi⟩
      · cases h
    · have hpart : ∀ field, ∀ m ∈ n.partNames field, n.Declarable m := fun field m hm =>
        declarable_of_partNames hm
      rw [declaresHead.eq_def] at h
      split_ifs at h
      · exact hin (hpart _) h
      · split at h
        · split_ifs at h
          · cases h
          · exact hin (hpart _) h
        · cases h
      · cases h
  · cases h

theorem exists_of_mem_declarations {d : Declaration} (h : d ∈ n.declarations f c) :
    ∃ k ∈ n.walk, ∃ m, k.Declarable m ∧ m.entry = (d.identifier, d.name) := by
  induction n using induct generalizing f c with
  | step n ih =>
    rw [declarations_eq] at h
    rcases List.mem_append.1 h with h | h
    · obtain ⟨m, hm⟩ := exists_of_mem_declares h
      exact ⟨n, self_mem_walk n, m, hm⟩
    · obtain ⟨k, hk, h⟩ := List.mem_flatMap.1 h
      obtain ⟨l, hl, he⟩ := ih k hk h
      exact ⟨l, mem_walk_of_child hk hl, he⟩

end JsxLint.Node
