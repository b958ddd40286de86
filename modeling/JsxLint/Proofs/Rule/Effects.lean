import JsxLint.Proofs.Rule.Keyed
import JsxLint.Proofs.Rule.Refused
import JsxLint.Proofs.Syntax.Sites

/-!
# What repairs change

A repair that succeeds edits what it is made for and nothing else. Its effect is given by the sites
of the tree after it, in terms of those before it, and by the table after it; every site that is not
named there stays as it was.

* `Rule.Respelling`: one attribute has another name;
* `Rule.Removal`: one child is gone, and its parent notes its span;
* `Rule.Collapse`: one element has lost its content and its closing tag;
* `Rule.Keying`: one tag has a key in front, and one list of parameters may have grown;
* `Rule.Renaming`: the identifiers of one binding have another name;
* `Rule.Effect`, `Rule.repair_effect`: what a repair does in a round.
-/

namespace JsxLint

open Node

namespace Rule

variable {w w' : Workspace} {start i : NodeId} {finding : Finding} {change : Change}

/-! ### Markup -/

/-- One attribute gets another name, which its tag did not have. -/
structure Respelling (names : List (String × String)) (w w' : Workspace) (i : NodeId) where
  node : Node
  name : Node
  value : Option Node
  spelling : String
  mem : node ∈ w.document.root.walk
  id : node.id = i
  attribute? : node.attribute? = some (name, value)
  label : name.label = .markupName name.text
  lookup : names.lookup name.text = some spelling
  free : ∀ o ∈ w.document.root.walk, node ∈ o.children → o.findAttribute? spelling = none
  site? : ∀ k, w'.document.root.site? k =
    if k = name.id then some { name.site with label := .markupName spelling }
    else w.document.root.site? k
  source : w'.document.source = w.document.source
  scopes : w'.scopes = w.scopes

theorem AttributeSpelling.repair_effect {info : RuleInfo} {names : List (String × String)}
    (h : w.Sound start) (hr : repair info names w finding = .ok (change, w')) :
    Nonempty (Respelling names w w' finding.node) := by
  obtain ⟨n, name, value, newName, hn, ha, hlookup, hfree, -, rfl⟩ := repair_eq_ok hr
  have hroot := mem_walk_of_attribute? h.formed hn ha
  obtain ⟨-, hname, old, hl⟩ := h.formed.root.attribute_name hroot ha
  have htext : name.text = old := by rw [Node.text, hl]; rfl
  refine ⟨⟨n, name, value, newName, hroot, (h.formed.mem_or_idle hn).1, ha, htext ▸ hl, hlookup,
    fun o ho hc => ?_, fun k => ?_, rfl, rfl⟩⟩
  · rwa [← openingAround?_eq h ho hc newName]
  · refine (site?_relabel (·.rename newName) h.formed.root.nodup name.id k).trans ?_
    split_ifs with hk
    · rw [hk, site?_of_mem h.formed.root.nodup hname, Option.map_some, site, hl]
      rfl
    · rfl

/-- One pair of empty braces goes from an element or a fragment, which notes its span. -/
structure Removal (w w' : Workspace) (i : NodeId) where
  owner : Node
  taken : Node
  owner_mem : owner ∈ w.document.root.walk
  isMarkup : owner.label.isMarkup
  mem : taken ∈ owner.children
  id : taken.id = i
  isEmpty : taken.isEmptyContainer
  site? : ∀ k, w'.document.root.site? k =
    if k = owner.id then some (without taken owner).site
    else if k = i then none
    else w.document.root.site? k
  source : w'.document.source = w.document.source
  scopes : w'.scopes = w.scopes

theorem EmptyExpression.repair_effect (h : w.Sound start)
    (hf : ∀ m ∈ w.document.root.walk, m.id = finding.node → m.isEmptyContainer)
    (hr : repair w finding = .ok (change, w')) : Nonempty (Removal w w' finding.node) := by
  have h' := (repair_step h hf hr).sound.formed.root.nodup
  obtain ⟨parent, hroot, hmarkup, taken, ht, hid, rfl⟩ := repair_removes h hr
  have hd := nodup_of_mem h.formed.root.nodup hroot
  have htc := content_subset taken ht
  have hempty := hf taken (mem_walk_trans (child_mem_walk htc) hroot) hid
  have htaken : taken.ids = [taken.id] := by
    rw [ids_eq, (emptyContainer_leaf hempty).2, List.flatMap_nil]
  have hin : taken.id ∈ parent.ids := mem_ids_of_child htc (id_mem_ids (self_mem_walk _))
  have hkept : ∀ c ∈ parent.children, c.id ≠ taken.id → c ∈ (without taken parent).children :=
    fun c hc hne => List.mem_filter.2 ⟨hc, bne_iff_ne.2 hne⟩
  have hout : taken.id ∉ (without taken parent).ids := by
    rw [ids_eq]
    intro hi
    rcases List.mem_cons.1 hi with he | hi
    · exact id_not_mem_child hd htc (he ▸ id_mem_ids (self_mem_walk _))
    · obtain ⟨c, hc, hi⟩ := List.mem_flatMap.1 hi
      obtain ⟨hc, hne⟩ := List.mem_filter.1 hc
      cases child_eq_of_mem_ids hd hc htc hi (id_mem_ids (self_mem_walk _))
      exact absurd rfl (bne_iff_ne.1 hne)
  refine ⟨⟨parent, taken, hroot, hmarkup, htc, hid, hempty, fun k => ?_, rfl, rfl⟩⟩
  show (w.document.root.modify parent.id (without taken)).site? k = _
  have hsub : ∀ j ∈ (without taken parent).ids, j ∈ parent.ids := by
    intro j hj
    rw [ids_eq] at hj ⊢
    exact (List.cons_sublist_cons.2 (List.Sublist.flatMap List.filter_sublist _)).subset hj
  split_ifs with hk hki
  · rw [hk, site?_modify_self h.formed.root.nodup hroot h' rfl]
  · rw [hki, ← hid]
    exact site?_modify_gone h.formed.root.nodup hroot h' rfl hin hout
  · by_cases hkp : k ∈ parent.ids
    · rw [ids_eq] at hkp
      obtain ⟨c, hc, hkc⟩ := List.mem_flatMap.1 ((List.mem_cons.1 hkp).resolve_left hk)
      refine site?_modify_kept h.formed.root.nodup hroot h' hc (hkept c hc fun he => hki ?_) hkc
      rw [eq_of_id_eq hd (child_mem_walk hc) (child_mem_walk htc) he, htaken] at hkc
      exact (List.mem_singleton.1 hkc).trans hid
    · exact site?_modify_apart h.formed.root.nodup hroot h' rfl hkp fun hk' => hkp (hsub k hk')

/-- One element with blank content loses the content and the closing tag; its opening tag closes
itself. -/
structure Collapse (w w' : Workspace) (i : NodeId) where
  element : Node
  parts : ElementParts
  mem : element ∈ w.document.root.walk
  id : element.id = i
  element? : element.element? = some parts
  isOpen : element.isSelfClosing = false
  closing : parts.closing.isSome
  blank : parts.content.all (·.isBlankText)
  site? : ∀ k, w'.document.root.site? k =
    if k = i then some (closed parts.opening element).site
    else if k = parts.opening.id then some { parts.opening.site with label := .openingTag true }
    else if k ∈ (parts.content ++ parts.closing.toList).flatMap ids then none
    else w.document.root.site? k
  source : w'.document.source = w.document.source
  scopes : w'.scopes = w.scopes

theorem VoidElement.repair_effect (h : w.Sound start) (hr : repair w finding = .ok (change, w')) :
    Nonempty (Collapse w w' finding.node) := by
  have h' := (repair_step h hr).sound.formed.root.nodup
  obtain ⟨n, parts, hn, hp, hopen, hclosing, hblank, -, rfl⟩ := repair_eq_ok hr
  obtain ⟨isClosed, removed, hl⟩ := label_of_element? hp
  have hroot := h.formed.mem_walk_of_node? hn (by rw [hl]; exact Bool.false_ne_true)
  have hid := (h.formed.mem_or_idle hn).1
  have hd := nodup_of_mem h.formed.root.nodup hroot
  have hc := children_eq_of_element? hp
  have hopening : parts.opening ∈ n.children := hc ▸ List.mem_cons_self
  have hdc := nodup_children hd
  have heq := collapse_eq (h.formed.node?_eq hroot) hp
  have hroot' : (w.document.collapse n.id).root =
      w.document.root.modify n.id (closed parts.opening) := by rw [heq]; rfl
  have hsource : (w.document.collapse n.id).source = w.document.source := by rw [heq]; rfl
  rw [hroot'] at h'
  have hids : (closed parts.opening n).ids = n.id :: parts.opening.ids := by
    rw [ids_eq, closed, List.flatMap_singleton, ids_eq, ids_eq parts.opening]
  refine ⟨⟨n, parts, hroot, hid, hp, hopen, hclosing, hblank, fun k => ?_,
    hsource, rfl⟩⟩
  rw [hroot', ← hid]
  have hchild : ∀ k ∈ parts.opening.ids, (w.document.root.modify n.id (closed parts.opening)).site? k =
      { parts.opening with label := .openingTag true : Node }.site? k := fun k hk =>
    site?_modify_child (c := { parts.opening with label := .openingTag true }) h.formed.root.nodup
      hroot h' List.mem_cons_self (by rwa [ids_eq, ← ids_eq parts.opening])
  split_ifs with hk hko hgone
  · rw [hk, site?_modify_self h.formed.root.nodup hroot h' rfl]
  · rw [hko, hchild _ (id_mem_ids (self_mem_walk _)), site?_withLabel, if_pos rfl]
  · obtain ⟨t, ht, hkt⟩ := List.mem_flatMap.1 hgone
    have htc : t ∈ n.children := by
      rw [hc, List.cons_append]
      exact List.mem_cons_of_mem _ ht
    refine site?_modify_gone h.formed.root.nodup hroot h' rfl (mem_ids_of_child htc hkt) ?_
    rw [hids]
    intro hi
    cases child_eq_of_mem_ids hd hopening htc ((List.mem_cons.1 hi).resolve_left hk) hkt
    rw [hc, List.cons_append, List.map_cons, List.nodup_cons] at hdc
    exact hdc.1 (List.mem_map_of_mem ht)
  · by_cases hkn : k ∈ n.ids
    · rw [ids_eq, hc, List.cons_append, List.flatMap_cons] at hkn
      have hko' := (List.mem_append.1 ((List.mem_cons.1 hkn).resolve_left hk)).resolve_right hgone
      rw [hchild k hko', site?_withLabel, if_neg hko,
        site?_of_below h.formed.root.nodup (mem_walk_trans (child_mem_walk hopening) hroot) hko']
    · refine site?_modify_apart h.formed.root.nodup hroot h' rfl hkn fun hk' => hkn ?_
      rw [hids] at hk'
      rcases List.mem_cons.1 hk' with he | hk'
      · exact absurd he hk
      · exact mem_ids_of_child hopening hk'

/-! ### Keys -/

namespace ListKey

variable {parameters opening element o : Node} {s : ScopeId} {name : String} {k : NodeId}

/-- Parameters that were made and placed, named from a number on. -/
def placedParameters (parameters : Node) (next : NodeId) (names : List String) : List Node :=
  (names.zipIdx next).map fun (name, made) =>
    Document.placedIdentifier made parameters.id parameters.place.position name

/-- The table with parameters that are declared in a scope, by nodes named from a number on. -/
def declareParameters (t : ScopeTable) (s : ScopeId) (next : NodeId) (names : List String) :
    ScopeTable :=
  (names.zipIdx next).foldl (fun t (name, made) => (t.declare s made name "param").2) t

/-- The site of a list with more parameters, named from a number on. -/
def grownSite (parameters : Node) (next : NodeId) (names : List String) : Site :=
  { parameters.site with
    label := if names = [] then parameters.label else .parameters true
    children := parameters.children.map (·.id) ++ List.range' next names.length }

theorem grownSite_nil (parameters : Node) (next : NodeId) :
    grownSite parameters next [] = parameters.site := by
  rw [grownSite, if_pos rfl]
  exact congrArg (Site.mk _ _ _) (List.append_nil _)

theorem length_lacking_le (ps : List Node) : (lacking ps).length ≤ 2 := by
  rw [lacking, missingNames]
  split_ifs <;> decide

theorem placedIdentifier_site? (made parent : NodeId) (position : Position) (name : String)
    (k : NodeId) : (Document.placedIdentifier made parent position name).site? k =
      if k = made then some (Document.placedIdentifier made parent position name).site
      else none := by
  have hids : (Document.placedIdentifier made parent position name).ids = [made] := rfl
  split_ifs with hk
  · rw [hk]
    exact site?_of_mem (hids ▸ List.nodup_singleton made) (self_mem_walk _)
  · exact site?_eq_none_iff.2 fun hi => hk (List.mem_singleton.1 (hids ▸ hi))

/-- One parameter more. -/
theorem addParameter_site? (h : w.Sound start) (ho : Owns w s parameters)
    (hfits : w.Fits start s name) (k : NodeId) :
    (addParameter parameters s w name).document.root.site? k =
      if k = parameters.id then (w.document.root.site? k).map fun x =>
        { x with children := x.children ++ [w.document.fresh] }
      else if k < w.document.fresh then w.document.root.site? k
      else (Document.placedIdentifier w.document.fresh parameters.id parameters.place.position
        name).site? k := by
  have h' := (addParameter_step h ho hfits).1.sound.formed.root.nodup
  obtain ⟨n, hn, parts, hf, -, hid, -⟩ := ho
  have hP := mem_walk_trans (child_mem_walk (parameters_mem_children hf)) hn
  generalize hadded : Document.placedIdentifier w.document.fresh parameters.id
    parameters.place.position name = added
  have heq : (addParameter parameters s w name).document.root =
      w.document.root.modify parts.parameters.id (·.withParameter added) := by
    rw [hid, ← hadded]
    rfl
  have hids : added.ids = [w.document.fresh] := by rw [← hadded]; rfl
  rw [heq] at h' ⊢
  rw [← hid, site?_modify_inserted h.formed.root.nodup hP h' rfl (List.subset_append_left _ _)
    (List.mem_append_right _ (List.mem_singleton_self added))
    (fun m hm => (List.mem_append.1 hm).imp_right List.mem_singleton.1) h.formed.root.lt_fresh
    (fun j hj => List.mem_singleton.1 (hids ▸ hj) ▸ Nat.lt_irrefl _)]
  split_ifs with hk
  · have hmade : added.id = w.document.fresh := by rw [← hadded]; rfl
    rw [hk, site?_of_mem h.formed.root.nodup hP, Option.map_some, site, withParameter,
      List.map_append, List.map_singleton, hmade]
    rfl
  · rfl
  · rfl

/-- Parameters that fit, one after the other. -/
theorem addParameters_effect {names : List String} (h : w.Sound start) (ho : Owns w s parameters)
    (hd : names.Nodup) (hfits : ∀ x ∈ names, w.Fits start s x) :
    (names.foldl (addParameter parameters s) w).document.source = w.document.source ∧
    (names.foldl (addParameter parameters s) w).document.fresh = w.document.fresh + names.length ∧
    (names.foldl (addParameter parameters s) w).scopes =
      declareParameters w.scopes s w.document.fresh names ∧
    ∀ k, (names.foldl (addParameter parameters s) w).document.root.site? k =
      if k = parameters.id then (w.document.root.site? k).map fun x =>
        { x with children := x.children ++ List.range' w.document.fresh names.length }
      else if k < w.document.fresh then w.document.root.site? k
      else (placedParameters parameters w.document.fresh names).findSome? (·.site? k) := by
  induction names generalizing w with
  | nil =>
    refine ⟨rfl, rfl, rfl, fun k => ?_⟩
    split_ifs with hk hlt
    · cases hx : w.document.root.site? k <;> simp [hx]
    · rfl
    · exact site?_eq_none_iff.2 fun hi => hlt (h.formed.root.lt_fresh k hi)
  | cons name names ih =>
    rw [List.nodup_cons] at hd
    have hname := hfits name List.mem_cons_self
    obtain ⟨h1, ho1, -, hfits1⟩ := addParameter_step h ho hname
    obtain ⟨hsource, hfresh, hscopes, hsite⟩ := ih h1.sound ho1 hd.2 fun x hx =>
      hfits1 x (fun he => hd.1 (he ▸ hx)) (hfits x (List.mem_cons_of_mem _ hx))
    have hnext : (addParameter parameters s w name).document.fresh = w.document.fresh + 1 := rfl
    rw [hnext] at hfresh hscopes hsite
    refine ⟨hsource, ?_, hscopes, fun k => ?_⟩
    · rw [List.foldl_cons, hfresh, List.length_cons, Nat.add_assoc, Nat.add_comm 1]
    · rw [List.foldl_cons, hsite k, addParameter_site? h ho hname k]
      by_cases hk : k = parameters.id
      · simp only [if_pos hk, Option.map_map, Function.comp_def, List.append_assoc,
          List.length_cons, List.range'_succ, List.singleton_append]
      · have hplaced : placedParameters parameters w.document.fresh (name :: names) =
            Document.placedIdentifier w.document.fresh parameters.id parameters.place.position
              name :: placedParameters parameters (w.document.fresh + 1) names := rfl
        simp only [if_neg hk, hplaced, List.findSome?_cons, placedIdentifier_site?]
        by_cases hkf : k = w.document.fresh
        · simp [hkf]
        · have hiff : k < w.document.fresh + 1 ↔ k < w.document.fresh :=
            ⟨fun hlt => (Nat.lt_succ_iff_lt_or_eq.1 hlt).resolve_right hkf, Nat.lt_succ_of_lt⟩
          simp only [hiff, if_neg hkf]
          split_ifs <;> rfl

section

variable (made parent : NodeId) (position : Position) (name : String)

theorem placedKey_ids :
    (placedKey made parent position name).ids = [made, made + 1, made + 2, made + 3] := rfl

theorem placedKey_nodup : (placedKey made parent position name).ids.Nodup := by
  rw [placedKey_ids]
  exact List.nodup_range' (s := made) (n := 4)

end

theorem placedKey_ids_le {made parent : NodeId} {position : Position} {name : String}
    (hk : k ∈ (placedKey made parent position name).ids) : ¬k < made := by
  rw [placedKey_ids] at hk
  simp only [List.mem_cons, List.not_mem_nil, or_false] at hk
  rcases hk with rfl | rfl | rfl | rfl
  · exact Nat.lt_irrefl _
  · exact Nat.not_lt.2 (Nat.le_add_right _ 1)
  · exact Nat.not_lt.2 (Nat.le_add_right _ 2)
  · exact Nat.not_lt.2 (Nat.le_add_right _ 3)

/-- A key in front of the attributes of a tag. -/
theorem insertKey_site? {b : Option BindingId} {head : Node} {attributes : List Node}
    (h : w.Sound start) (h' : (insertKey w element opening name b).Sound start)
    (ho : o ∈ w.document.root.walk) (hid : o.id = opening.id)
    (hc : o.children = head :: attributes) (k : NodeId) :
    (insertKey w element opening name b).document.root.site? k =
      if k = opening.id then
        some { o.site with children := head.id :: w.document.fresh :: attributes.map (·.id) }
      else if k < w.document.fresh then w.document.root.site? k
      else (placedKey w.document.fresh opening.id opening.place.position name).site? k := by
  generalize hkey : placedKey w.document.fresh opening.id opening.place.position name = key
  have hroot : (insertKey w element opening name b).document.root =
      w.document.root.modify o.id (withAttribute · key) := by
    rw [insertKey_document, insertAttribute_eq, hid, hkey]
    rfl
  have hedit : withAttribute o key = { o with children := head :: key :: attributes } := by
    rw [withAttribute, hc]
  have hkeep : o.children ⊆ (withAttribute o key).children := by
    rw [hedit, hc]
    exact List.cons_subset_cons _ (List.subset_cons_self _ _)
  have hput : key ∈ (withAttribute o key).children := by simp [hedit]
  have hnew : ∀ m ∈ (withAttribute o key).children, m ∈ o.children ∨ m = key := by
    simp only [hedit, hc, List.mem_cons]
    tauto
  have hhigh : ∀ j ∈ key.ids, ¬j < w.document.fresh := fun j hj => placedKey_ids_le (hkey ▸ hj)
  have hkeyid : key.id = w.document.fresh := by rw [← hkey]; rfl
  have h' := h'.formed.root.nodup
  rw [hroot] at h'
  rw [hroot, ← hid, site?_modify_inserted h.formed.root.nodup ho h' (by rw [hedit]) hkeep hput hnew
    h.formed.root.lt_fresh hhigh, hedit, site, List.map_cons, List.map_cons, hkeyid]
  rfl

theorem placedParameters_site?_eq_none {next : NodeId} {names : List String}
    (hk : k < next ∨ next + names.length ≤ k) :
    (placedParameters parameters next names).findSome? (·.site? k) = none := by
  refine List.findSome?_eq_none_iff.2 fun m hm => ?_
  obtain ⟨⟨x, j⟩, hx, rfl⟩ := List.mem_map.1 hm
  obtain ⟨hlow, hhigh, -⟩ := List.mem_zipIdx hx
  rw [placedIdentifier_site?, if_neg]
  rintro rfl
  exact hk.elim (Nat.not_lt.2 hlow) (Nat.not_le.2 hhigh)

/-- What the repair does before it puts in the key. -/
theorem withIndex_effect {callback : Node} {parts : FunctionParts} {b : Option BindingId}
    (h : w.Sound start) (hcallback : callback ∈ w.document.root.walk)
    (hs : w.scopes.nodeOf? s = some callback.id) (hf : callback.function? = some parts)
    (hr : withIndex w callback parts.parameters s = .ok (w', name, b)) :
    w'.document.source = w.document.source ∧
    w'.document.fresh = w.document.fresh + (lacking parts.parameters.children).length ∧
    w'.scopes = declareParameters w.scopes s w.document.fresh (lacking parts.parameters.children) ∧
    (∃ c, b = some c ∧ w'.scopes.bound? s name = some c) ∧
    ∀ k, w'.document.root.site? k =
      if k = parts.parameters.id then some (grownSite parts.parameters w.document.fresh
        (lacking parts.parameters.children))
      else if k < w.document.fresh then w.document.root.site? k
      else (placedParameters parts.parameters w.document.fresh
        (lacking parts.parameters.children)).findSome? (·.site? k) := by
  have hP := mem_walk_trans (child_mem_walk (parameters_mem_children hf)) hcallback
  have hsite := site?_of_mem h.formed.root.nodup hP
  obtain ⟨n, hn, P, hid, hnf, hext⟩ := withIndex_grown h hcallback hs hf hr
  obtain ⟨index, hindex, -, c, hc, hb⟩ := withIndex_index h hcallback hs hf hr hn hid hnf hext
  rcases withIndex_cases hr with ⟨hmany, rfl, second, hi, rfl, -⟩ | ⟨hfew, hnone, rfl, rfl, hbound⟩
  · have hlacking : lacking parts.parameters.children = [] := if_neg hmany
    obtain ⟨c', hc', hbound⟩ := exists_bound_parameter h hcallback hf hs hi
    rcases hext.index? with ⟨hlt, -⟩ | ⟨-, heq⟩
    · exact absurd hlt hmany
    · obtain rfl : index = second := Option.some.inj (hindex.symm.trans (heq.trans hi))
      rw [hlacking, grownSite_nil]
      refine ⟨rfl, rfl, rfl, ⟨c, hb, ?_⟩, fun k => ?_⟩
      · rw [hbound, ← hc', hc]
      · split_ifs with hk hlt
        · rw [hk, hsite]
        · rfl
        · exact site?_eq_none_iff.2 fun hi => hlt (h.formed.root.lt_fresh k hi)
  · have hlacking : lacking parts.parameters.children = missingNames parts.parameters.children :=
      if_pos hfew
    have ho : Owns w s parts.parameters := ⟨callback, hcallback, parts, hf, hs, rfl, rfl⟩
    have hfits : ∀ x ∈ missingNames parts.parameters.children, w.Fits start s x := fun x hx =>
      fits_of_introductionConflict? h hcallback hs (hnone x hx)
    have hd := missingNames_nodup parts.parameters.children
    have h1 := (addParameters_step h ho hd hfits).1.sound
    obtain ⟨hsource, hfresh, hscopes, hsites⟩ := addParameters_effect h ho hd hfits
    rw [hlacking]
    refine ⟨hsource, hfresh, hscopes, ⟨c, hb, hbound.symm.trans hb⟩, fun k => ?_⟩
    refine (site?_relabel (fun _ => .parameters true) h1.formed.root.nodup _ k).trans ?_
    rw [hsites k]
    split_ifs with hk
    · rw [hk, hsite, grownSite, if_neg (missingNames_ne_nil _)]
      rfl
    · rfl
    · rfl

end ListKey

/-- One opening tag gets a key, put first. The list of parameters of the callback around it gets the
parameters that it lacks, two at most, put last; if there are any it is in parentheses. The table
gets the declarations of these parameters and the reference of the key. -/
structure Keying (w w' : Workspace) (i : NodeId) where
  element : Node
  parts : ElementParts
  head : Node
  attributes : List Node
  callback : Node
  functionParts : FunctionParts
  added : List String
  name : String
  scope : ScopeId
  binding : BindingId
  around : ScopeId
  mem : element ∈ w.document.root.walk
  id : element.id = i
  element? : element.element? = some parts
  children : parts.opening.children = head :: attributes
  unkeyed : parts.opening.findAttribute? "key" = none
  enclosing : w.document.enclosingFunction? element = some callback
  function? : callback.function? = some functionParts
  opened : w.scopes.scopeOpenedBy? callback.id = some scope
  lacking : added = ListKey.lacking functionParts.parameters.children
  length_le : added.length ≤ 2
  bound? : w'.scopes.bound? scope name = some binding
  site? : ∀ k, w'.document.root.site? k =
    if k = parts.opening.id then some { parts.opening.site with
      children := head.id :: (w.document.fresh + added.length) :: attributes.map (·.id) }
    else if k = functionParts.parameters.id then
      some (ListKey.grownSite functionParts.parameters w.document.fresh added)
    else if k < w.document.fresh then w.document.root.site? k
    else (ListKey.placedParameters functionParts.parameters w.document.fresh added ++
      [ListKey.placedKey (w.document.fresh + added.length) parts.opening.id
        parts.opening.place.position name]).findSome? (·.site? k)
  source : w'.document.source = w.document.source
  scopes : w'.scopes = (ListKey.declareParameters w.scopes scope w.document.fresh added).refer
    binding (w.document.fresh + added.length + 3) around

/-- An opening tag is no list of parameters. -/
theorem opening_id_ne_parameters {opening n : Node} {parts : FunctionParts} (h : w.Sound start)
    (ho : opening ∈ w.document.root.walk) (hform : opening.label.form = "JSXOpeningElement")
    (hn : n ∈ w.document.root.walk) (hf : n.function? = some parts) :
    opening.id ≠ parts.parameters.id := by
  intro he
  obtain ⟨selfClosing, hl⟩ := openingTag_of_form hform
  obtain ⟨a, hl'⟩ := parameters_of_form ((h.formed.root.shaped _ hn).parameters _ hf)
  have hP := mem_walk_trans (child_mem_walk (parameters_mem_children hf)) hn
  rw [eq_of_id_eq h.formed.root.nodup ho hP he, hl'] at hl
  cases hl

/-- A node with the site of another one has children of the same names. -/
theorem exists_cons_of_site_eq {m n head : Node} {rest : List Node} (h : m.site = n.site)
    (hc : n.children = head :: rest) : ∃ head' rest', m.children = head' :: rest' ∧
      head'.id = head.id ∧ rest'.map (·.id) = rest.map (·.id) := by
  have hids : m.children.map (·.id) = n.children.map (·.id) := congrArg Site.children h
  rw [hc, List.map_cons] at hids
  obtain ⟨head', rest', hm, hhead, hrest⟩ := List.map_eq_cons_iff.1 hids
  exact ⟨head', rest', hm, hhead, hrest⟩

theorem ListKey.repair_effect (h : w.Sound start) (hnames : w.document.root.TagsHaveNames)
    (hr : repair w finding = .ok (change, w')) : Nonempty (Keying w w' finding.node) := by
  have h' := (repair_step h hr).sound
  obtain ⟨p, -, rfl⟩ := repair_eq_ok hr
  obtain ⟨helement, hcallback, hscope, hopening, htag⟩ := p.in_tree h
  obtain ⟨h1, -⟩ := withIndex_step h hcallback hscope p.function? p.index
  obtain ⟨hsource, hfresh, hscopes, ⟨c, hc, hbound⟩, hsites⟩ :=
    withIndex_effect h hcallback hscope p.function? p.index
  have hP := mem_walk_trans (child_mem_walk (parameters_mem_children p.function?)) hcallback
  have hlt := h.formed.root.lt_fresh _ (id_mem_ids hopening)
  have hne := opening_id_ne_parameters h hopening htag hcallback p.function?
  obtain ⟨head, attributes, hchildren⟩ := List.exists_cons_of_ne_nil (hnames _ hopening htag)
  -- the tag stands in the workspace with the parameters as it was
  obtain ⟨o, ho, hid, hosite⟩ := (site?_eq_some_iff h1.sound.formed.root.nodup).1 (by
    rw [hsites, if_neg hne, if_pos hlt, site?_of_mem h.formed.root.nodup hopening])
  obtain ⟨head', attributes', ho', hhead, hattributes⟩ := exists_cons_of_site_eq hosite hchildren
  have hkey := insertKey_site? h1.sound h' ho hid ho'
  rw [hfresh] at hkey
  refine ⟨⟨p.element, p.parts, head, attributes, p.callback, p.functionParts, _, p.name, p.scope,
    c, p.between.scopeOf p.element.id, helement, (h.formed.mem_or_idle p.node).1, p.element?,
    hchildren, ?_, p.enclosing, p.function?, p.opened, rfl, length_lacking_le _, ?_, fun k => ?_,
    ?_, ?_⟩⟩
  · have hunkeyed := p.unkeyed
    rw [hasKey, p.element?, Option.bind_some] at hunkeyed
    exact Option.not_isSome_iff_eq_none.1 (by rw [hunkeyed]; exact Bool.false_ne_true)
  · rw [← hbound, hc]
    rfl
  · rw [hkey k, hosite, hhead, hattributes, hsites k, List.findSome?_append,
      List.findSome?_singleton]
    by_cases hk : k = p.parts.opening.id
    · rw [if_pos hk, if_pos hk]
    · rw [if_neg hk, if_neg hk]
      by_cases hkp : k = p.functionParts.parameters.id
      · have hkf := h.formed.root.lt_fresh _ (id_mem_ids hP)
        rw [if_pos (hkp ▸ Nat.lt_add_right _ hkf), if_pos hkp, if_pos hkp]
      · rw [if_neg hkp, if_neg hkp]
        by_cases hkf : k < w.document.fresh
        · rw [if_pos (Nat.lt_add_right _ hkf), if_pos hkf, if_pos hkf]
        · rw [if_neg hkf, if_neg hkf]
          split_ifs with hkl
          · rw [site?_eq_none_iff.2 fun hi => placedKey_ids_le hi hkl, Option.or_none]
          · rw [placedParameters_site?_eq_none (.inr (Nat.not_lt.1 hkl)), Option.none_or]
  · rw [insertKey_document, insertAttribute_eq]
    exact hsource
  · rw [hc, ← hscopes, ← hfresh, insertKey, insertAttribute_eq]
    rfl

/-! ### Names of components -/

/-- The identifiers of one binding get another name. -/
structure Renaming (w w' : Workspace) (i : NodeId) where
  b : BindingId
  binding : Binding
  binding? : w.scopes.bindings[b]? = some binding
  declaration : binding.declaration = i
  changed : Letter.capitalise binding.name ≠ binding.name
  site? : ∀ k, w'.document.root.site? k =
    if k ∈ binding.declaration :: binding.references then (w.document.root.site? k).map fun x =>
      { x with label := x.label.rename (Letter.capitalise binding.name) }
    else w.document.root.site? k
  source : w'.document.source = w.document.source
  scopes : w'.scopes = w.scopes.rename b binding (Letter.capitalise binding.name)

/-- Nodes that get another name one after the other. -/
theorem site?_foldl_rename {d : Document} (h : d.WellFormed) (js : List NodeId) (name : String)
    (k : NodeId) : (js.foldl (·.rename · name) d).root.site? k =
      if k ∈ js then (d.root.site? k).map fun x => { x with label := x.label.rename name }
      else d.root.site? k := by
  have htwice : ∀ l : Label, (l.rename name).rename name = l.rename name := fun l => by
    cases l <;> rfl
  induction js generalizing d with
  | nil => rfl
  | cons j js ih =>
    rw [List.foldl_cons, ih (h.rename j name), Document.rename, Document.modifyLabel,
      Document.modify, site?_relabel (·.rename name) h.root.nodup]
    by_cases hk : k = j
    · rw [if_pos hk, if_pos (List.mem_cons.2 (.inl hk)), Option.map_map]
      split_ifs
      · simp only [Function.comp_def, htwice]
      · rfl
    · rw [if_neg hk]
      simp only [List.mem_cons, hk, false_or]

theorem ComponentName.repair_effect (h : w.Sound start)
    (hr : repair w finding = .ok (change, w')) : Nonempty (Renaming w w' finding.node) := by
  obtain ⟨identifier, b, B, hn, -, hb, hdeclaration, hc, -, rfl⟩ := repair_eq_ok hr
  rw [Workspace.rename_eq hb]
  exact ⟨⟨b, B, hb, hdeclaration.trans (h.formed.mem_or_idle hn).1,
    fun he => h.renameConflict?_self hb (he ▸ hc), site?_foldl_rename h.formed _ _,
    Document.foldl_rename_source .., rfl⟩⟩

/-! ### All repairs -/

/-- What the repair of a rule for a node does to a workspace: the edit of the rule and no other. -/
inductive Effect (w w' : Workspace) (i : NodeId) : Rule → Prop
  | reservedProp (e : Respelling AttributeSpelling.reservedNames w w' i) :
    Effect w w' i Rule.reservedProp
  | camelCaseAttribute (e : Respelling AttributeSpelling.camelCaseNames w w' i) :
    Effect w w' i Rule.camelCaseAttribute
  | emptyExpression (e : Removal w w' i) : Effect w w' i Rule.emptyExpression
  | selfClosingTag (e : Collapse w w' i) : Effect w w' i Rule.selfClosingTag
  | missingKey (e : Keying w w' i) : Effect w w' i Rule.missingKey
  | componentNaming (e : Renaming w w' i) : Effect w w' i Rule.componentNaming

/-- A repair that succeeds in a round has the effect of its rule. -/
theorem repair_effect {d : Document} {rule : Rule} {repair : Repair} (hd : d.WellFormed)
    (hnames : w.document.root.TagsHaveNames) (hrule : rule ∈ all) (hr : rule.repair? = some repair)
    (hf : finding ∈ rule.detect (.ofDocument d) d.root.walk)
    (h : Workspace.Step d.fresh (.ofDocument d) w) (hok : repair w finding = .ok (change, w')) :
    Effect w w' finding.node rule := by
  cases repairing_of_repair? hrule hr with
  | emptyExpression =>
    obtain ⟨e⟩ := EmptyExpression.repair_effect h.sound (EmptyExpression.found_empty hd hf h) hok
    exact .emptyExpression e
  | reservedProp =>
    obtain ⟨e⟩ := AttributeSpelling.repair_effect h.sound hok
    exact .reservedProp e
  | camelCaseAttribute =>
    obtain ⟨e⟩ := AttributeSpelling.repair_effect h.sound hok
    exact .camelCaseAttribute e
  | selfClosingTag =>
    obtain ⟨e⟩ := VoidElement.repair_effect h.sound hok
    exact .selfClosingTag e
  | missingKey =>
    obtain ⟨e⟩ := ListKey.repair_effect h.sound hnames hok
    exact .missingKey e
  | componentNaming =>
    obtain ⟨e⟩ := ComponentName.repair_effect h.sound hok
    exact .componentNaming e

/-! ### What an effect leaves -/

section Leaves

variable {rule : Rule} {k : NodeId} {m m' : Node}

/-- The name of a respelled attribute is in the tree. -/
theorem Respelling.name_mem {names : List (String × String)} (e : Respelling names w w' i)
    (h : w.Sound start) : e.name ∈ e.node.children ∧ e.name ∈ w.document.root.walk := by
  obtain ⟨hc, hm, -⟩ := h.formed.root.attribute_name e.mem e.attribute?
  exact ⟨hc, hm⟩

theorem Removal.taken_mem (e : Removal w w' i) : e.taken ∈ w.document.root.walk :=
  mem_walk_trans (child_mem_walk e.mem) e.owner_mem

theorem Collapse.opening_mem (e : Collapse w w' i) (h : w.Sound start) :
    e.parts.opening ∈ w.document.root.walk ∧ ∃ a, e.parts.opening.label = .openingTag a := by
  refine ⟨mem_walk_trans (child_mem_walk ?_) e.mem,
    openingTag_of_form ((h.formed.root.shaped _ e.mem).opening _ e.element?)⟩
  rw [children_eq_of_element? e.element?]
  exact List.mem_cons_self

/-- What a collapse takes out is idle. -/
theorem Collapse.idle (e : Collapse w w' i) (h : w.Sound start) {t : Node}
    (ht : t ∈ e.parts.content ++ e.parts.closing.toList) :
    t ∈ w.document.root.walk ∧ t.Idle := by
  have htc : t ∈ e.element.children := by
    rw [children_eq_of_element? e.element?, List.cons_append]
    exact List.mem_cons_of_mem _ ht
  refine ⟨mem_walk_trans (child_mem_walk htc) e.mem, (collapsed_idle ?_ e.element? e.blank t ht).1⟩
  exact fun n hn => h.formed.root.shaped n (mem_walk_trans hn e.mem)

theorem Keying.opening_mem (e : Keying w w' i) (h : w.Sound start) :
    e.parts.opening ∈ w.document.root.walk ∧ ∃ a, e.parts.opening.label = .openingTag a := by
  refine ⟨mem_walk_trans (child_mem_walk ?_) e.mem,
    openingTag_of_form ((h.formed.root.shaped _ e.mem).opening _ e.element?)⟩
  rw [children_eq_of_element? e.element?]
  exact List.mem_cons_self

theorem Keying.parameters_mem (e : Keying w w' i) (h : w.Sound start) :
    e.functionParts.parameters ∈ w.document.root.walk ∧
      ∃ a, e.functionParts.parameters.label = .parameters a := by
  obtain ⟨above, hpath⟩ := exists_path e.mem
  have hfind := e.enclosing
  rw [Document.enclosingFunction?, h.formed.ancestors_eq hpath] at hfind
  have hcallback := hpath.above_mem_walk (List.mem_of_find?_eq_some hfind)
  exact ⟨mem_walk_trans (child_mem_walk (parameters_mem_children e.function?)) hcallback,
    parameters_of_form ((h.formed.root.shaped _ hcallback).parameters _ e.function?)⟩

/-- The rules that respell attributes, each with its table. -/
inductive Respells : Rule → List (String × String) → Prop
  | reserved : Respells reservedProp AttributeSpelling.reservedNames
  | camelCase : Respells camelCaseAttribute AttributeSpelling.camelCaseNames

theorem Respells.subset {names : List (String × String)} (h : Respells rule names) :
    names ⊆ Label.spellings := by
  cases h with
  | reserved => exact List.subset_append_left _ _
  | camelCase => exact List.subset_append_right _ _

/-- A node that an effect edits, and its site after it. -/
inductive Edits (w w' : Workspace) (i : NodeId) : Rule → Node → Site → Prop
  | spelling {rule : Rule} {names : List (String × String)} (hr : Respells rule names)
    (e : Respelling names w w' i) :
    Edits w w' i rule e.name { e.name.site with label := .markupName e.spelling }
  | owner (e : Removal w w' i) :
    Edits w w' i Rule.emptyExpression e.owner (without e.taken e.owner).site
  | element (e : Collapse w w' i) :
    Edits w w' i Rule.selfClosingTag e.element (closed e.parts.opening e.element).site
  | opening (e : Collapse w w' i) : Edits w w' i Rule.selfClosingTag e.parts.opening
      { e.parts.opening.site with label := .openingTag true }
  | tag (e : Keying w w' i) : Edits w w' i Rule.missingKey e.parts.opening
      { e.parts.opening.site with children :=
        e.head.id :: (w.document.fresh + e.added.length) :: e.attributes.map (·.id) }
  | parameters (e : Keying w w' i) : Edits w w' i Rule.missingKey e.functionParts.parameters
      (ListKey.grownSite e.functionParts.parameters w.document.fresh e.added)
  | name (e : Renaming w w' i) {m : Node}
    (hm : m.id ∈ e.binding.declaration :: e.binding.references) :
    Edits w w' i Rule.componentNaming m
      { m.site with label := m.label.rename (Letter.capitalise e.binding.name) }

section

variable (he : Effect w w' i rule) (h : w.Sound start) (hm : m ∈ w.document.root.walk)

include he h hm

/-- A node that is still there is as it was, unless the effect edits it. -/
theorem Effect.site_cases (h' : w'.Sound start) (hm' : m' ∈ w'.document.root.walk)
    (hid : m'.id = m.id) : m'.site = m.site ∨ Edits w w' i rule m m'.site := by
  have hx := site?_of_mem h.formed.root.nodup hm
  have hx' := site?_of_mem h'.formed.root.nodup hm'
  have hself : ∀ {n : Node}, n ∈ w.document.root.walk → m.id = n.id → m = n := fun hn he =>
    eq_of_id_eq h.formed.root.nodup hm hn he
  rw [hid] at hx'
  cases he with
  | reservedProp e =>
    rw [e.site?, hx] at hx'
    split_ifs at hx' with hk
    · cases hself (e.name_mem h).2 hk
      exact .inr (Option.some.inj hx' ▸ .spelling .reserved e)
    · exact .inl (Option.some.inj hx').symm
  | camelCaseAttribute e =>
    rw [e.site?, hx] at hx'
    split_ifs at hx' with hk
    · cases hself (e.name_mem h).2 hk
      exact .inr (Option.some.inj hx' ▸ .spelling .camelCase e)
    · exact .inl (Option.some.inj hx').symm
  | emptyExpression e =>
    rw [e.site?, hx] at hx'
    split_ifs at hx' with hk
    · cases hself e.owner_mem hk
      exact .inr (Option.some.inj hx' ▸ .owner e)
    · exact .inl (Option.some.inj hx').symm
  | selfClosingTag e =>
    rw [e.site?, hx] at hx'
    split_ifs at hx' with hk hk
    · cases hself e.mem (hk.trans e.id.symm)
      exact .inr (Option.some.inj hx' ▸ .element e)
    · cases hself (e.opening_mem h).1 hk
      exact .inr (Option.some.inj hx' ▸ .opening e)
    · exact .inl (Option.some.inj hx').symm
  | missingKey e =>
    rw [e.site?, hx, if_pos (h.formed.root.lt_fresh _ (id_mem_ids hm))] at hx'
    split_ifs at hx' with hk hk
    · cases hself (e.opening_mem h).1 hk
      exact .inr (Option.some.inj hx' ▸ .tag e)
    · cases hself (e.parameters_mem h).1 hk
      exact .inr (Option.some.inj hx' ▸ .parameters e)
    · exact .inl (Option.some.inj hx').symm
  | componentNaming e =>
    rw [e.site?, hx] at hx'
    split_ifs at hx' with hk
    · exact .inr (Option.some.inj hx' ▸ .name e hk)
    · exact .inl (Option.some.inj hx').symm

/-- A node goes when it is the pair of braces that is taken out, or stands in what a collapsed
element loses. -/
theorem Effect.gone (hgone : m.id ∉ w'.document.root.ids) :
    (rule = Rule.emptyExpression ∧ m.id = i ∧ m.isEmptyContainer) ∨
      rule = Rule.selfClosingTag ∧
        ∃ e : Collapse w w' i, ∃ t ∈ e.parts.content ++ e.parts.closing.toList, m ∈ t.walk := by
  have hx := site?_of_mem h.formed.root.nodup hm
  have hx' := site?_eq_none_iff.2 hgone
  cases he with
  | reservedProp e =>
    rw [e.site?, hx] at hx'
    split_ifs at hx'
  | camelCaseAttribute e =>
    rw [e.site?, hx] at hx'
    split_ifs at hx'
  | emptyExpression e =>
    rw [e.site?, hx] at hx'
    split_ifs at hx' with _ hk
    cases eq_of_id_eq h.formed.root.nodup hm e.taken_mem (hk.trans e.id.symm)
    exact .inl ⟨rfl, hk, e.isEmpty⟩
  | selfClosingTag e =>
    rw [e.site?, hx] at hx'
    split_ifs at hx' with _ _ hk
    obtain ⟨t, ht, hk⟩ := List.mem_flatMap.1 hk
    obtain ⟨l, hl, hid⟩ := mem_ids.1 hk
    cases eq_of_id_eq h.formed.root.nodup (mem_walk_trans hl (e.idle h ht).1) hm hid
    exact .inr ⟨rfl, e, t, ht, hl⟩
  | missingKey e =>
    rw [e.site?, hx, if_pos (h.formed.root.lt_fresh _ (id_mem_ids hm))] at hx'
    split_ifs at hx'
  | componentNaming e =>
    rw [e.site?, hx] at hx'
    split_ifs at hx'
    cases hx'

/-- Only idle nodes go. -/
theorem Effect.exists_of_not_isIdle (hi : ¬m.label.isIdle) :
    ∃ m' ∈ w'.document.root.walk, m'.id = m.id := by
  refine mem_ids.1 (by_contra fun hgone => hi ?_)
  rcases he.gone h hm hgone with ⟨-, -, hempty⟩ | ⟨-, e, t, ht, hmt⟩
  · exact emptyContainer_idle hempty _ (self_mem_walk _)
  · exact (e.idle h ht).2 m hmt

end

theorem Edits.form {x : Site} (he : Edits w w' i rule m x) (h : w.Sound start) :
    x.label.form = m.label.form := by
  cases he with
  | spelling _ e => rw [e.label]; rfl
  | owner e =>
    rcases without_label e.taken e.isMarkup with ⟨_, _, _, hn, hw⟩ | ⟨_, _, hn, hw⟩
    · exact (congrArg Label.form hw).trans (congrArg Label.form hn).symm
    · exact (congrArg Label.form hw).trans (congrArg Label.form hn).symm
  | element e =>
    obtain ⟨isClosed, removed, hl⟩ := label_of_element? e.element?
    rw [hl]
    rfl
  | opening e =>
    obtain ⟨-, a, ho⟩ := e.opening_mem h
    rw [ho]
    rfl
  | tag e => rfl
  | parameters e =>
    obtain ⟨-, a, hp⟩ := e.parameters_mem h
    rw [ListKey.grownSite, hp]
    split_ifs <;> rfl
  | name e hm => exact rename_form _ _

/-- An effect edits names, tags, lists of parameters, elements and fragments only; for a name, it is
another one of an attribute or of a binding. -/
theorem Edits.isAlterable {x : Site} (he : Edits w w' i rule m x) (h : w.Sound start) :
    m.label.isAlterable ∨ x = m.site := by
  cases he with
  | spelling _ e => exact .inl (by rw [e.label]; rfl)
  | owner e =>
    have hmarkup := e.isMarkup
    exact .inl (by cases hl : e.owner.label <;> rw [hl] at hmarkup <;> first
      | rfl
      | cases hmarkup)
  | element e =>
    obtain ⟨isClosed, removed, hl⟩ := label_of_element? e.element?
    exact .inl (by rw [hl]; rfl)
  | opening e =>
    obtain ⟨-, a, ho⟩ := e.opening_mem h
    exact .inl (by rw [ho]; rfl)
  | tag e =>
    obtain ⟨-, a, ho⟩ := e.opening_mem h
    exact .inl (by rw [ho]; rfl)
  | parameters e =>
    obtain ⟨-, a, hp⟩ := e.parameters_mem h
    exact .inl (by rw [hp]; rfl)
  | name e hm =>
    obtain ⟨id, parent, place, label, children⟩ := m
    cases label <;> first
      | exact .inl rfl
      | exact .inr rfl

section

variable (he : Effect w w' i rule) (h : w.Sound start) (h' : w'.Sound start)
  (hm : m ∈ w.document.root.walk) (hm' : m' ∈ w'.document.root.walk) (hid : m'.id = m.id)

include he h h' hm hm' hid

/-- A node that is still there is of the kind that it was of. -/
theorem Effect.form : m'.label.form = m.label.form := by
  rcases he.site_cases h hm h' hm' hid with hsame | hedit
  · exact congrArg (fun x => x.label.form) hsame
  · exact hedit.form h

/-- What no repair edits is as it was if it is still there. -/
theorem Effect.site_eq (hl : ¬m.label.isAlterable) : m'.site = m.site :=
  (he.site_cases h hm h' hm' hid).elim (fun hsame => hsame) fun hedit =>
    (hedit.isAlterable h).resolve_left hl

/-- A name stays, unless it is that of the attribute that is respelled or belongs to the binding that
is renamed. -/
theorem Effect.name_cases {t : Node} (ht : t ∈ w.document.root.walk) (hc : m ∈ t.children)
    (hn : m.label.name?.isSome) : m'.label = m.label ∨
      (∃ names, Respells rule names ∧ ∃ e : Respelling names w w' i,
        t = e.node ∧ m = e.name ∧ m'.label = .markupName e.spelling) ∨
      rule = Rule.componentNaming ∧ ∃ e : Renaming w w' i,
        w.scopes.bindingOf? m.id = some e.b := by
  rw [Label.name?_isSome_iff] at hn
  have hform : ∀ {s : String}, m.label.form = s → s = "Identifier" ∨ s = "JSXName" := fun h =>
    h ▸ hn
  rcases he.site_cases h hm h' hm' hid with hsame | hedit
  · exact .inl (congrArg Site.label hsame)
  · generalize hx : m'.site = x at hedit
    have hlabel : m'.label = x.label := congrArg Site.label hx
    cases hedit with
    | spelling hr e =>
      exact .inr (.inl ⟨_, hr, e, h.formed.root.eq_of_child ht e.mem hc (e.name_mem h).1, rfl,
        hlabel⟩)
    | owner e =>
      rcases (isMarkup_iff _).1 e.isMarkup with hl | hl <;> exact absurd (hform hl) (by decide)
    | element e =>
      obtain ⟨_, _, hl⟩ := label_of_element? e.element?
      exact absurd (hform (s := "JSXElement") (congrArg Label.form hl)) (by decide)
    | opening e =>
      obtain ⟨-, _, hl⟩ := e.opening_mem h
      exact absurd (hform (s := "JSXOpeningElement") (congrArg Label.form hl)) (by decide)
    | tag e =>
      obtain ⟨-, _, hl⟩ := e.opening_mem h
      exact absurd (hform (s := "JSXOpeningElement") (congrArg Label.form hl)) (by decide)
    | parameters e =>
      obtain ⟨-, _, hl⟩ := e.parameters_mem h
      exact absurd (hform (s := "Parameters") (congrArg Label.form hl)) (by decide)
    | name e hb => exact .inr (.inr ⟨rfl, e, (h.mem_binding_iff e.binding? _).1 hb⟩)

/-- The name of a tag or an attribute stays, unless it is the one that is respelled. -/
theorem Effect.name_label {t : Node} {tag : String} (ht : t ∈ w.document.root.walk)
    (htagged : t.label.isTagged) (hc : m ∈ t.children) (hl : m.label = .markupName tag) :
    m'.label = m.label ∨ ∃ names, Respells rule names ∧ ∃ e : Respelling names w w' i,
      t = e.node ∧ m = e.name ∧ m'.label = .markupName e.spelling := by
  rcases he.name_cases h h' hm hm' hid ht hc (by rw [hl]; rfl) with
    hsame | hspelled | ⟨-, e, hb⟩
  · exact .inl hsame
  · exact .inr hspelled
  · -- what belongs to a binding there is an identifier
    have hidentifier := h.isIdentifier_of_tagged ht htagged hc (by rw [hb]; rfl)
    rw [hl] at hidentifier
    cases hidentifier

/-- An opening tag keeps its name, and it does not close itself now, unless its element has
collapsed. -/
theorem Effect.opening_cases {a : Bool} (hl : m.label = .openingTag a) :
    (m'.label = m.label ∨ rule = Rule.selfClosingTag ∧ ∃ e : Collapse w w' i, m = e.parts.opening) ∧
      m'.children.head?.map (·.id) = m.children.head?.map (·.id) := by
  rcases he.site_cases h hm h' hm' hid with hsame | hedit
  · refine ⟨.inl (congrArg Site.label hsame), ?_⟩
    rw [← List.head?_map, ← List.head?_map]
    exact congrArg (fun x => x.children.head?) hsame
  · generalize hx : m'.site = x at hedit
    have hlabel : m'.label = x.label := congrArg Site.label hx
    have hhead : m'.children.head?.map (·.id) = x.children.head? := by
      rw [← List.head?_map]
      exact congrArg (fun x => x.children.head?) hx
    rw [hhead]
    cases hedit with
    | spelling _ e => cases hl.symm.trans e.label
    | owner e =>
      have hmarkup := e.isMarkup
      rw [hl] at hmarkup
      cases hmarkup
    | element e =>
      obtain ⟨_, _, hl'⟩ := label_of_element? e.element?
      cases hl.symm.trans hl'
    | opening e => exact ⟨.inr ⟨rfl, e, rfl⟩, List.head?_map⟩
    | tag e => exact ⟨.inl hlabel, by rw [e.children]; rfl⟩
    | parameters e =>
      obtain ⟨-, _, hl'⟩ := e.parameters_mem h
      cases hl.symm.trans hl'
    | name e hb => exact ⟨.inl (hlabel.trans (by rw [hl]; rfl)), List.head?_map⟩

end

end Leaves

end Rule
end JsxLint
