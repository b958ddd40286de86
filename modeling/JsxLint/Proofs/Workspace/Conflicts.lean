import JsxLint.Proofs.Reading.WellFormed
import JsxLint.Proofs.Scope.Reordered
import JsxLint.Proofs.Workspace.Renaming

/-!
# Conflicts of a renaming

A binding may get another name exactly when no identifier of the tree changes its declaration by
that. When it may, the table that is left is the one that a fresh resolution of the renamed tree
makes, up to the order of the names in the scope of the binding, so the same is true of the next
renaming.

* `Document.foldl_rename_root`: renamed identifiers as a tree with other names;
* `Workspace.resolve_rename`: the table of the renamed tree;
* `Workspace.Renamings`, `Workspace.renaming_exact`: renamings one after the other.
-/

namespace JsxLint

open Node

/-! ### Renamed identifiers -/

namespace Node

variable {id : NodeId} {ids : List NodeId} {name : String} {n : Node}

theorem mapNames_congr {g h : NodeId → String → String} (hg : ∀ i ∈ n.ids, g i = h i) :
    n.mapNames g = n.mapNames h := by
  induction n using induct with
  | step n ih =>
    have hchildren : n.children.map (mapNames g) = n.children.map (mapNames h) :=
      List.map_congr_left fun k hk => ih k hk fun i hi => hg i (mem_ids_of_child hk hi)
    rw [mapNames_eq, mapNames_eq n, hchildren, hg n.id (id_mem_ids n.self_mem_walk)]

theorem mapNames_renames_of_not_mem (h : id ∉ n.ids) : n.mapNames (renames [id] name) = n := by
  have heq : n.mapNames (renames [id] name) = n.mapNames fun _ x => x := by
    apply mapNames_congr
    intro i hi
    funext x
    apply if_neg
    intro hm
    exact h (List.mem_singleton.1 hm ▸ hi)
  rw [heq, mapNames_self]

/-- A renamed node as a tree with other names. -/
theorem modify_withName (hd : n.ids.Nodup) :
    n.modify id (withName name) = n.mapNames (renames [id] name) := by
  induction n using induct with
  | step n ih =>
    rw [modify_eq]
    split_ifs with hid
    · subst hid
      have hchildren : n.children.map (mapNames (renames [n.id] name)) = n.children := by
        refine (List.map_congr_left fun k hk => ?_).trans (List.map_id' _)
        exact mapNames_renames_of_not_mem (id_not_mem_child hd hk)
      have hlabel : n.label.rename name = n.label.mapName (renames [n.id] name n.id) := by
        cases n.label <;> simp [Label.rename, Label.mapName, renames]
      rw [mapNames_eq, hchildren, withName, hlabel]
    · have hlabel : n.label.mapName (renames [id] name n.id) = n.label := by
        cases n.label <;> simp [Label.mapName, renames, hid]
      have hchildren := List.map_congr_left fun k hk => ih k hk (nodup_of_child hd hk)
      rw [mapNames_eq, hlabel, hchildren]

end Node

namespace Document

variable {d d' : Document} {ids : List NodeId} {name : String}

/-- Renamed identifiers as a tree with other names. -/
theorem foldl_rename_root (hd : d.root.ids.Nodup) (ids : List NodeId) (name : String) :
    (ids.foldl (·.rename · name) d).root = d.root.mapNames (renames ids name) := by
  induction ids generalizing d with
  | nil =>
    have hnone : renames [] name = fun _ x => x := by
      funext i x
      exact if_neg List.not_mem_nil
    rw [hnone, mapNames_self]
    rfl
  | cons id ids ih =>
    have hstep : (d.rename id name).root = d.root.mapNames (renames [id] name) := modify_withName hd
    have hids : (d.rename id name).root.ids.Nodup := by rwa [hstep, ids_mapNames]
    rw [List.foldl_cons, ih hids, hstep, mapNames_mapNames]
    congr 1
    funext i x
    simp only [renames, List.mem_cons, List.not_mem_nil, or_false]
    split_ifs <;> first | rfl | tauto

/-- Whether what a document declares are identifiers, also the names of functions and what is
imported. -/
def DeclaresIdentifiers (d : Document) : Prop :=
  ∀ e ∈ d.declarations, ∀ m ∈ d.root.walk, m.id = e.identifier → m.label.isIdentifier

instance (d : Document) : Decidable d.DeclaresIdentifiers :=
  inferInstanceAs (Decidable (∀ e ∈ d.declarations, ∀ m ∈ d.root.walk, _ → _))

/-- Whether every identifier has the declaration that it has in another document, or is unresolved
as there. -/
def SamePartition (d d' : Document) : Prop :=
  ∀ m ∈ d.root.walk, m.label.isIdentifier →
    (ScopeTable.resolve d'.root).declaration? m.id = (ScopeTable.resolve d.root).declaration? m.id ∧
      (m.id ∈ (ScopeTable.resolve d'.root).unresolved ↔
        m.id ∈ (ScopeTable.resolve d.root).unresolved)

/-- Whether a document is another one with other names. -/
structure Relabelled (d d' : Document) (g : NodeId → String → String) : Prop where
  formed : d'.WellFormed
  root : d'.root = d.root.mapNames g
  suits : d.root.Suits g

section Relabelled

variable {g : NodeId → String → String} (h : d.Relabelled d' g)

include h

theorem Relabelled.program : d'.root.program = d.root.program := by
  rw [Node.program, Node.program, h.root, mapNames_id]

theorem Relabelled.declarations : d'.declarations = d.declarations.map (·.map g) := by
  rw [Document.declarations, h.program, h.root]
  exact h.suits.declarations

theorem Relabelled.uses : d'.uses = d.uses.map (·.map g) := by
  rw [Document.uses, h.program, h.root]
  exact uses_mapNames _

theorem Relabelled.identifiers (hi : d.DeclaresIdentifiers) : d'.DeclaresIdentifiers := by
  intro e he m hm hid
  rw [h.declarations] at he
  rw [h.root, walk_mapNames] at hm
  obtain ⟨e', he', rfl⟩ := List.mem_map.1 he
  obtain ⟨m', hm', rfl⟩ := List.mem_map.1 hm
  rw [mapNames_id] at hid
  rw [mapNames_label, mapName_isIdentifier]
  exact hi e' he' m' hm' hid

end Relabelled

end Document

namespace ScopeTable

variable {t t' : ScopeTable} {ss : List ScopeId}

theorem scopeOpenedBy?_congr (h : t'.skeleton = t.skeleton) (node : NodeId) :
    t'.scopeOpenedBy? node = t.scopeOpenedBy? node := by
  have hmap : ∀ u : ScopeTable, u.scopeOpenedBy? node =
      u.skeleton.findIdx? fun e => e.1.node == node := by
    intro u
    rw [skeleton, List.findIdx?_map]
    rfl
  rw [hmap, hmap, h]

theorem Reordered.mem_listed (h : Reordered ss t t') (o : BindingId) :
    o ∈ t'.listed ↔ o ∈ t.listed := by
  have hlisted : ∀ u : ScopeTable, o ∈ u.listed ↔
      ∃ (s : ScopeId) (S : Scope), u.scopes[s]? = some S ∧ ∃ e ∈ S.names, e.2 = o := by
    intro u
    rw [listed, List.mem_flatMap]
    simp only [List.mem_map]
    constructor
    · rintro ⟨S, hS, he⟩
      obtain ⟨s, hs⟩ := List.mem_iff_getElem?.1 hS
      exact ⟨s, S, hs, he⟩
    · rintro ⟨s, S, hs, he⟩
      exact ⟨S, List.mem_of_getElem? hs, he⟩
  rw [hlisted, hlisted]
  constructor
  · rintro ⟨s, S', hS', e, he, heo⟩
    obtain ⟨S, hS, -⟩ := exists_scope_of_skeleton h.skeleton.symm hS'
    exact ⟨s, S, hS, e, (h.names s S S' hS hS').1.mem_iff.1 he, heo⟩
  · rintro ⟨s, S, hS, e, he, heo⟩
    obtain ⟨S', hS', -⟩ := exists_scope_of_skeleton h.skeleton hS
    exact ⟨s, S', hS', e, (h.names s S S' hS hS').1.mem_iff.2 he, heo⟩

end ScopeTable

/-! ### What is looked for -/

namespace Workspace

variable {w w' : Workspace} {d : Document} {b : BindingId} {B : Binding} {y : String}
  {ss : List ScopeId}

theorem scopesAround_congr (hdoc : w'.document = w.document)
    (h : ScopeTable.Reordered ss w.scopes w'.scopes) (i : NodeId) :
    w'.scopesAround i = w.scopesAround i := by
  have hscope : w'.scopeOf i = w.scopeOf i := by
    rw [scopeOf, scopeOf, hdoc, h.usedIn]
    simp only [ScopeTable.scopeOpenedBy?_congr h.skeleton]
  rw [scopesAround, scopesAround, hscope, ScopeTable.chain_congr h.skeleton]

/-- The order of names does not matter for a conflict. -/
theorem renameConflict?_congr (hdoc : w'.document = w.document)
    (h : ScopeTable.Reordered ss w.scopes w'.scopes) (hd : w.scopes.Distinct) (b : BindingId)
    (y : String) : w'.renameConflict? b y = none ↔ w.renameConflict? b y = none := by
  cases hb : w.scopes.bindings[b]? with
  | none =>
    rw [renameConflict?, renameConflict?, h.bindings, hb]
    exact Iff.rfl
  | some B =>
    have hcaptured : ∀ r o, w'.isCaptured r B.scope o = w.isCaptured r B.scope o := by
      intro r o
      rw [isCaptured, isCaptured, scopesAround_congr hdoc h]
    have hshadowed : ∀ r, w'.isShadowed r B.scope y = w.isShadowed r B.scope y := by
      intro r
      rw [isShadowed, isShadowed, scopesAround_congr hdoc h]
      simp only [h.bound? hd]
    have hb' : w'.scopes.bindings[b]? = some B := (congrArg (·[b]?) h.bindings).trans hb
    rw [renameConflict?_eq_none_iff hb, renameConflict?_eq_none_iff hb', h.bound? hd, h.bindings,
      h.unresolved, hdoc]
    simp only [hcaptured, hshadowed, h.mem_listed]

/-! ### The renamed tree -/

section Rename

variable (hd : d.WellFormed) (hi : d.DeclaresIdentifiers)
  (hb : (ofDocument d).scopes.bindings[b]? = some B)

include hd

/-- What belongs to a binding or is unresolved, and declares nothing, is a use. -/
theorem exists_use_of_undeclared {i : NodeId}
    (hdecl : (ofDocument d).scopes.declared.lookup i = none)
    (h : ((ofDocument d).scopes.bindingOf? i).isSome ∨ i ∈ (ofDocument d).scopes.unresolved) :
    ∃ u ∈ d.uses, u.identifier = i := by
  obtain ⟨hres, -⟩ := ScopeTable.resolve_resolved hd.root.nodup
    (fun n hn => (hd.root.shaped n hn).parameters) hd.root.program
  by_contra hno
  obtain ⟨h1, -, h3⟩ := hres.unused i hdecl fun u hu he => hno ⟨u, hu, he⟩
  rcases h with h | h
  · rw [show (ofDocument d).scopes.bindingOf? i = none from h1] at h
    cases h
  · exact h3 h

include hi

/-- The identifiers of a binding are identifiers. -/
theorem isIdentifier_of_bindingOf? {m : Node} (hm : m ∈ d.root.walk)
    (h : ((ofDocument d).scopes.bindingOf? m.id).isSome) : m.label.isIdentifier := by
  have hs := sound_ofDocument hd
  rcases hs.named m hm h with hdecl | hm
  · obtain ⟨e, he, hid⟩ := hs.lists.declared m.id hdecl
    exact hi e he m hm hid.symm
  · exact hm

include hb

/-- Giving another name to a binding gives it to the tree. -/
theorem rename_relabelled : d.Relabelled ((ofDocument d).rename b y).document
    ((ofDocument d).scopes.newName b y) := by
  have hs := sound_ofDocument hd
  have hnames : renames (B.declaration :: B.references) y = (ofDocument d).scopes.newName b y := by
    funext i x
    rw [renames, ScopeTable.newName]
    exact if_congr (hs.mem_binding_iff hb i) rfl rfl
  have hname : ∀ m ∈ d.root.walk, (ofDocument d).scopes.bindingOf? m.id = some b →
      m.label.name?.isSome := by
    intro m hm hof
    have hidentifier := isIdentifier_of_bindingOf? hd hi hm (by rw [hof]; rfl)
    rw [Label.isIdentifier_iff] at hidentifier
    rw [Label.name?_isSome_iff]
    exact .inl hidentifier
  have hrenamed := Document.foldl_rename_renamed hd y
    fun m hm hmem => hname m hm ((hs.mem_binding_iff hb m.id).1 hmem)
  rw [rename_eq hb]
  refine ⟨hrenamed.formed, ?_, fun m hm => (hd.root.shaped m hm).leaf, fun m hm hn => if_neg ?_⟩
  · rw [← hnames]
    exact Document.foldl_rename_root hd.root.nodup _ _
  · intro hof
    have hsome := hname m hm hof
    rw [hn] at hsome
    cases hsome

/-- The table of a renamed tree is the renamed table, up to the order of the names in the scope of
the renamed binding. -/
theorem resolve_rename (hc : (ofDocument d).renameConflict? b y = none) :
    ScopeTable.Reordered [B.scope] ((ofDocument d).rename b y).scopes
      (ScopeTable.resolve ((ofDocument d).rename b y).document.root) := by
  have hs := sound_ofDocument hd
  have hrelabelled := rename_relabelled (y := y) hd hi hb
  obtain ⟨hbound, -⟩ := (renameConflict?_eq_none_iff hb).1 hc
  obtain ⟨n, hn, -⟩ := hs.lists.first b B hb
  have hdistinct : (ofDocument d).scopes.Distinct :=
    (ScopeTable.resolve_filled d.root).kept.keys
  have hreordered := ScopeTable.rename_reordered hs.lists hdistinct hb hbound hn
  have hrename : ((ofDocument d).rename b y).scopes = (ofDocument d).scopes.rename b B y := by
    rw [rename_eq hb]
  rw [hrelabelled.root, hrename, ScopeTable.resolve_mapNames hd.root.nodup
    (fun m hm => (hd.root.shaped m hm).parameters) hd.root.program hrelabelled.suits
    (ScopeTable.renaming_newName hs.lists hb hbound hn)]
  · exact hreordered
  · intro u hu hdecl s ha
    obtain ⟨s', hr⟩ := hs.knows u hu (by
      obtain ⟨above, m, hp, -, hid, -⟩ := Document.exists_of_mem_uses hu
      exact hid ▸ hd.root.lt_fresh _ (id_mem_ids hp.mem_walk)) hdecl
    obtain rfl := hs.lists.scope_eq ha.nodeOf? hr.around.nodeOf?
    have hfound := (hs.refers_rename hb hc hu hdecl hr).binding
    have hlookup := hreordered.lookup? (hdistinct.rename hbound) s
      ((ofDocument d).scopes.newName b y u.identifier u.name)
    exact hlookup.trans (hfound.symm.trans hr.binding)

end Rename

/-! ### What a conflict changes -/

/-- A name that a scope on the way out has is found there or before. -/
theorem exists_nearer {ds : List Declaration} {c : List Region} {x : String} {n o : NodeId}
    (hn : n ∈ (c.map (·.node)).takeWhile (· != o)) (hf : (firstDeclaration ds n x).isSome) :
    ∃ e ∈ ds, e.scope ≠ o ∧
      (c.findSome? fun r => firstDeclaration ds r.node x) = some e.identifier := by
  induction c with
  | nil => cases hn
  | cons r c ih =>
    rw [List.map_cons, List.takeWhile_cons] at hn
    split_ifs at hn with hr
    · rw [List.findSome?_cons]
      cases hfirst : firstDeclaration ds r.node x with
      | some i =>
        obtain ⟨e, he, hscope, -, hi⟩ := exists_of_firstDeclaration hfirst
        refine ⟨e, he, ?_, congrArg some hi.symm⟩
        rw [hscope]
        exact bne_iff_ne.1 hr
      | none =>
        rcases List.mem_cons.1 hn with rfl | hn
        · rw [hfirst] at hf
          cases hf
        · exact ih hn
    · cases hn

/-- The scopes on the way out to a scope are opened by the nodes on the way out to its node. -/
theorem exists_node_of_takeWhile {t : ScopeTable} {ds : List Declaration} (h : t.Lists ds)
    {ss : List ScopeId} {c : List Region}
    (hc : List.Forall₂ (fun s (r : Region) => t.regions[s]? = some r) ss c) {s o : ScopeId}
    {m : NodeId} (ho : t.nodeOf? o = some m) (hs : s ∈ ss.takeWhile (· != o)) :
    ∃ n ∈ (c.map (·.node)).takeWhile (· != m), t.nodeOf? s = some n := by
  induction hc with
  | nil => cases hs
  | @cons s' r ss c hr _ ih =>
    have hnode : t.nodeOf? s' = some r.node := by rw [ScopeTable.nodeOf?, hr]; rfl
    rw [List.takeWhile_cons] at hs
    split_ifs at hs with hne
    · have hrm : (r.node != m) = true := by
        rw [bne_iff_ne]
        rintro rfl
        exact bne_iff_ne.1 hne (h.scope_eq hnode ho)
      rw [List.map_cons, List.takeWhile_cons, if_pos hrm]
      rcases List.mem_cons.1 hs with rfl | hs
      · exact ⟨r.node, List.mem_cons_self, hnode⟩
      · obtain ⟨n, hn, hsn⟩ := ih hs
        exact ⟨n, List.mem_cons_of_mem _ hn, hsn⟩
    · cases hs

theorem mem_takeWhile_of_find? {α : Type} [BEq α] [LawfulBEq α] {p : α → Bool} {l : List α}
    {a b : α} (h : l.find? p = some a) (hb : p b = true) (hab : a ≠ b) :
    a ∈ l.takeWhile (· != b) := by
  induction l with
  | nil => cases h
  | cons x l ih =>
    rw [List.find?_cons] at h
    rw [List.takeWhile_cons]
    cases hx : p x with
    | true =>
      rw [hx] at h
      cases h
      rw [if_pos (bne_iff_ne.2 hab)]
      exact List.mem_cons_self
    | false =>
      rw [hx] at h
      have hxb : (x != b) = true := by
        rw [bne_iff_ne]
        rintro rfl
        rw [hx] at hb
        cases hb
      rw [if_pos hxb]
      exact List.mem_cons_of_mem _ (ih h)

/-- The declaration of a use that declares nothing is the nearest one. -/
theorem Sound.declaration?_of_use {start : NodeId} {u : Use} (h : w.Sound start)
    (hu : u ∈ w.document.uses) (hlt : u.identifier < start)
    (hd : w.scopes.declared.lookup u.identifier = none) :
    w.scopes.declaration? u.identifier =
      u.around.findSome? fun r => firstDeclaration w.document.declarations r.node u.name := by
  obtain ⟨s, hs⟩ := h.knows u hu hlt hd
  rw [ScopeTable.declaration?, hs.binding, h.lists.lookup?_bind hs.around]

theorem exists_chain {t : ScopeTable} {s : ScopeId} {n : NodeId} (h : t.nodeOf? s = some n) :
    ∃ rest, t.chain s = s :: rest := by
  have hlt := ScopeTable.lt_of_nodeOf? h
  rw [ScopeTable.chain]
  obtain ⟨steps, hsteps⟩ := Nat.exists_eq_succ_of_ne_zero (Nat.ne_of_gt (Nat.zero_lt_of_lt hlt))
  rw [hsteps, ScopeTable.chainFrom, List.getElem?_eq_getElem hlt]
  exact ⟨_, rfl⟩

section Changes

variable {o : BindingId} {O : Binding} {r : NodeId} {u : Use} (hd : d.WellFormed)
  (hi : d.DeclaresIdentifiers) (hb : (ofDocument d).scopes.bindings[b]? = some B)

include hd

theorem lt_of_mem_uses (hu : u ∈ d.uses) : u.identifier < d.fresh := by
  obtain ⟨above, m, hp, -, hid, -⟩ := Document.exists_of_mem_uses hu
  exact hid ▸ hd.root.lt_fresh _ (id_mem_ids hp.mem_walk)

/-- The first declaration of a binding is its own. -/
theorem declaration?_declaration (hb : (ofDocument d).scopes.bindings[b]? = some B) :
    (ofDocument d).scopes.declaration? B.declaration = some B.declaration := by
  have hof := ((sound_ofDocument hd).lists.member B.declaration b).2 ⟨B, hb, .inl rfl⟩
  rw [ScopeTable.declaration?, hof, Option.bind_some, ScopeTable.declarationAt?, hb]
  rfl

/-- The declaration of a binding, among the declarations of the tree. -/
theorem exists_declaration (hb : (ofDocument d).scopes.bindings[b]? = some B) :
    ∃ e ∈ d.declarations, (ofDocument d).scopes.nodeOf? B.scope = some e.scope ∧
      e.name = B.name ∧ e.identifier = B.declaration := by
  obtain ⟨n, hn, hf⟩ := (sound_ofDocument hd).lists.first b B hb
  obtain ⟨e, he, hs, hname, hid⟩ := exists_of_firstDeclaration hf
  exact ⟨e, he, hs ▸ hn, hname, hid⟩

/-- What declares a binding again is looked at from the scope of the binding. -/
theorem scopesAround_of_redeclared (hb : (ofDocument d).scopes.bindings[b]? = some B)
    (hr : r ∈ B.references) (hdecl : ((ofDocument d).scopes.declared.lookup r).isSome) :
    ∃ rest, (ofDocument d).scopesAround r = B.scope :: rest := by
  obtain ⟨n, hn, -⟩ := (sound_ofDocument hd).lists.first b B hb
  have hused := ScopeTable.resolve_redeclared hd.root.nodup
    (fun n hn => (hd.root.shaped n hn).parameters) hd.root.program hb hr hdecl
  have hscope : (ofDocument d).scopeOf r = B.scope := by
    rw [scopeOf, show (ofDocument d).scopes.usedIn.lookup r = some B.scope from hused]
  rw [scopesAround, hscope]
  exact exists_chain hn

/-- A use that declares nothing is looked at from the scopes around it. -/
theorem scopesAround_of_use (hu : u ∈ d.uses)
    (hdecl : (ofDocument d).scopes.declared.lookup u.identifier = none) :
    List.Forall₂ (fun s (r : Region) => (ofDocument d).scopes.regions[s]? = some r)
      ((ofDocument d).scopesAround u.identifier) u.around := by
  have hs := sound_ofDocument hd
  obtain ⟨s, hr⟩ := hs.knows u hu (lt_of_mem_uses hd hu) hdecl
  rw [scopesAround, hs.scopeOf_eq hu hr]
  exact hr.around.chain

include hi hb

/-- The declaration of a binding is under its new name in the renamed tree. -/
theorem exists_renamed_declaration {C : Binding} {c : BindingId}
    (hc : (ofDocument d).scopes.bindings[c]? = some C) :
    ∃ e ∈ ((ofDocument d).rename b y).document.declarations,
      (ofDocument d).scopes.nodeOf? C.scope = some e.scope ∧
        e.name = (if c = b then y else C.name) ∧ e.identifier = C.declaration := by
  obtain ⟨e, he, hn, hname, hid⟩ := exists_declaration hd hc
  have hrel := rename_relabelled (y := y) hd hi hb
  have hof := ((sound_ofDocument hd).lists.member C.declaration c).2 ⟨C, hc, .inl rfl⟩
  refine ⟨e.map _, hrel.declarations ▸ List.mem_map_of_mem he, hn, ?_, hid⟩
  show (ofDocument d).scopes.newName b y e.identifier e.name = _
  rw [ScopeTable.newName, hid, hof, hname]
  simp only [Option.some.injEq]

/-- In the renamed tree a use that declares nothing finds the nearest declaration of its new name. -/
theorem declaration?_renamed_use (hu : u ∈ d.uses)
    (hdecl : (ofDocument d).scopes.declared.lookup u.identifier = none) :
    (ScopeTable.resolve ((ofDocument d).rename b y).document.root).declaration? u.identifier =
      u.around.findSome? fun r =>
        firstDeclaration ((ofDocument d).rename b y).document.declarations r.node
          ((ofDocument d).scopes.newName b y u.identifier u.name) := by
  have hrel := rename_relabelled (y := y) hd hi hb
  generalize ((ofDocument d).rename b y).document = d' at hrel
  have hs' := sound_ofDocument hrel.formed
  have hu' : u.map ((ofDocument d).scopes.newName b y) ∈ d'.uses :=
    hrel.uses ▸ List.mem_map_of_mem hu
  refine hs'.declaration?_of_use hu' (lt_of_mem_uses hrel.formed hu') ?_
  by_contra hsome
  obtain ⟨e', he', hid⟩ := hs'.lists.declared _ (Option.isSome_iff_ne_none.2 hsome)
  rw [show (ofDocument d').document.declarations = d'.declarations from rfl, hrel.declarations]
    at he'
  obtain ⟨e, he, rfl⟩ := List.mem_map.1 he'
  have hdeclared : ((ofDocument d).scopes.declared.lookup u.identifier).isSome :=
    (sound_ofDocument hd).declared_iff.2 ⟨e, he, hid⟩
  rw [hdecl] at hdeclared
  cases hdeclared

/-- A use that finds a declaration further in than its own has changed its declaration. -/
theorem not_samePartition_of_nearer (hu : u ∈ d.uses)
    (hdecl : (ofDocument d).scopes.declared.lookup u.identifier = none)
    (hof : (ofDocument d).scopes.bindingOf? u.identifier = some o)
    (ho : (ofDocument d).scopes.bindings[o]? = some O)
    (hname : (ofDocument d).scopes.newName b y u.identifier u.name = y) {n : NodeId} {s : ScopeId}
    (hs : s ∈ ((ofDocument d).scopesAround u.identifier).takeWhile (· != O.scope))
    (hn : (ofDocument d).scopes.nodeOf? s = some n)
    (hf : (firstDeclaration ((ofDocument d).rename b y).document.declarations n y).isSome) :
    ¬d.SamePartition ((ofDocument d).rename b y).document := by
  intro hsame
  obtain ⟨above, m, hp, hm, hid, -⟩ := Document.exists_of_mem_uses hu
  have heq := (hsame m hp.mem_walk hm).1
  obtain ⟨e, he, hnode, -, hown⟩ := exists_renamed_declaration (y := y) hd hi hb ho
  have hlists := (sound_ofDocument hd).lists
  obtain ⟨n', hn', hsn⟩ := exists_node_of_takeWhile hlists (scopesAround_of_use hd hu hdecl) hnode hs
  rw [hn] at hsn
  cases hsn
  obtain ⟨e', he', hne, hfound⟩ := exists_nearer hn' hf
  rw [hid, declaration?_renamed_use hd hi hb hu hdecl, hname, hfound] at heq
  have hdeclaration : (ofDocument d).scopes.declaration? u.identifier = some O.declaration := by
    rw [ScopeTable.declaration?, hof, Option.bind_some, ScopeTable.declarationAt?, ho]
    rfl
  have hids := heq.trans hdeclaration
  -- an identifier declares once
  have hformed := (rename_relabelled (y := y) hd hi hb).formed
  have hnodup := declaring_nodup (f := false) (c := ((ofDocument d).rename b y).document.root.program)
    hformed.root.nodup fun n hn => (hformed.root.shaped n hn).parameters
  have hsameDeclaration := List.inj_on_of_nodup_map hnodup he' he
    ((Option.some.inj hids).trans hown.symm)
  exact hne (congrArg Declaration.scope hsameDeclaration)

/-- A name that the scope of a binding has already makes one binding of two. -/
theorem changed_of_bound (hne : y ≠ B.name)
    (ho : (ofDocument d).scopes.bound? B.scope y = some o) :
    ¬d.SamePartition ((ofDocument d).rename b y).document := by
  intro hsame
  have hs := sound_ofDocument hd
  have hrel := rename_relabelled (y := y) hd hi hb
  obtain ⟨O, hO, hscope, hname⟩ := (hs.lists.bound_iff _ _ _).1 ho
  have hob : o ≠ b := by
    rintro rfl
    rw [hb] at hO
    cases hO
    exact hne hname.symm
  have hown : ∀ {c : BindingId} {C : Binding}, (ofDocument d).scopes.bindings[c]? = some C →
      C.scope = B.scope → (if c = b then y else C.name) = y →
      ∃ n, (ofDocument d).scopes.nodeOf? B.scope = some n ∧
        firstDeclaration ((ofDocument d).rename b y).document.declarations n y =
          some C.declaration := by
    intro c C hC hCs hCn
    obtain ⟨e, he, hn, hename, hid⟩ := exists_renamed_declaration (y := y) hd hi hb hC
    obtain ⟨e', he', -, -, hid'⟩ := exists_declaration hd hC
    obtain ⟨m, hm, hmid, -⟩ := Document.exists_of_mem_declarations he'
    have heq := (hsame m hm (hi e' he' m hm hmid)).1
    have hdeclared := (sound_ofDocument hrel.formed).lists.declaration?_of_mem he
    rw [hid, hename, hCn] at hdeclared
    rw [hmid, hid'] at heq
    exact ⟨e.scope, hCs ▸ hn,
      hdeclared.symm.trans (heq.trans (declaration?_declaration hd hC))⟩
  obtain ⟨n, hn, hfirst⟩ := hown hb rfl (if_pos rfl)
  obtain ⟨n', hn', hfirst'⟩ := hown hO hscope (by rw [if_neg hob, hname])
  rw [hn] at hn'
  cases hn'
  have hdeclarations := Option.some.inj (hfirst.symm.trans hfirst')
  -- two bindings with one declaration are one
  have hB := (hs.lists.member B.declaration b).2 ⟨B, hb, .inl rfl⟩
  have hO' := (hs.lists.member O.declaration o).2 ⟨O, hO, .inl rfl⟩
  rw [hdeclarations, hO'] at hB
  exact hob (Option.some.inj hB)

/-- A name that is bound between a binding and a reference to it takes the reference away. -/
theorem changed_of_shadowed (hr : r ∈ B.references)
    (hshadowed : (ofDocument d).isShadowed r B.scope y) :
    ¬d.SamePartition ((ofDocument d).rename b y).document := by
  have hs := sound_ofDocument hd
  rw [isShadowed, List.any_eq_true] at hshadowed
  obtain ⟨s, hin, hbound⟩ := hshadowed
  obtain ⟨o, ho⟩ := Option.isSome_iff_exists.1 hbound
  obtain ⟨O, hO, hscope, hname⟩ := (hs.lists.bound_iff _ _ _).1 ho
  have hof := (hs.lists.member r b).2 ⟨B, hb, .inr hr⟩
  cases hdecl : (ofDocument d).scopes.declared.lookup r with
  | some c =>
    obtain ⟨rest, hrest⟩ := scopesAround_of_redeclared hd hb hr (by rw [hdecl]; rfl)
    rw [hrest, List.takeWhile_cons, if_neg (by simp)] at hin
    cases hin
  | none =>
    obtain ⟨u, hu, rfl⟩ := exists_use_of_undeclared hd hdecl (.inl (by rw [hof]; rfl))
    obtain ⟨e, he, hn, hename, -⟩ := exists_renamed_declaration (y := y) hd hi hb hO
    have hey : e.name = y := by rw [hename, hname, ite_self]
    have hsome := firstDeclaration_isSome he
    rw [hey] at hsome
    exact not_samePartition_of_nearer hd hi hb hu hdecl hof hb (if_pos hof) hin (hscope ▸ hn) hsome

/-- A binding between another one of its new name and a reference to that takes the reference. -/
theorem changed_of_captured (ho : (ofDocument d).scopes.bindings[o]? = some O)
    (hname : O.name = y) (hr : r ∈ O.references)
    (hcaptured : (ofDocument d).isCaptured r B.scope (some O.scope)) :
    ¬d.SamePartition ((ofDocument d).rename b y).document := by
  have hs := sound_ofDocument hd
  have hof := (hs.lists.member r o).2 ⟨O, ho, .inr hr⟩
  rw [isCaptured] at hcaptured
  split at hcaptured
  · next candidate hfind =>
    have hne : candidate ≠ O.scope := by simpa using hcaptured
    have hself : candidate = B.scope := by simpa [hne] using List.find?_some hfind
    subst hself
    have hin := mem_takeWhile_of_find? hfind (by simp) hne
    cases hdecl : (ofDocument d).scopes.declared.lookup r with
    | some c =>
      obtain ⟨rest, hrest⟩ := scopesAround_of_redeclared hd ho hr (by rw [hdecl]; rfl)
      rw [hrest, List.takeWhile_cons, if_neg (by simp)] at hin
      cases hin
    | none =>
      obtain ⟨u, hu, rfl⟩ := exists_use_of_undeclared hd hdecl (.inl (by rw [hof]; rfl))
      obtain ⟨e, he, hn, hename, -⟩ := exists_renamed_declaration (y := y) hd hi hb hb
      have hey : e.name = y := by rw [hename, if_pos rfl]
      have huy : u.name = y := (hs.spelled u hu hdecl o O hof ho).trans hname
      have hnew : (ofDocument d).scopes.newName b y u.identifier u.name = y := by
        rw [ScopeTable.newName, huy, ite_self]
      have hsome := firstDeclaration_isSome he
      rw [hey] at hsome
      exact not_samePartition_of_nearer hd hi hb hu hdecl hof ho hnew hin hn hsome
  · cases hcaptured

/-- An unexplained name inside the scope of a binding that gets the name is explained then. -/
theorem changed_of_capturedGlobal (hr : r ∈ (ofDocument d).scopes.unresolved)
    (hname : (d.node? r).map (·.text) = some y) (hcaptured : (ofDocument d).isCaptured r B.scope none) :
    ¬d.SamePartition ((ofDocument d).rename b y).document := by
  intro hsame
  have hs := sound_ofDocument hd
  have hof := hs.lists.unresolved r hr
  have hdecl := (Option.or_eq_none_iff.1 hof).1
  obtain ⟨u, hu, rfl⟩ := exists_use_of_undeclared hd hdecl (.inr hr)
  obtain ⟨above, m, hp, hm, hid, htext, -⟩ := Document.exists_of_mem_uses hu
  have huy : u.name = y := by
    rw [← hid, hd.node?_eq hp.mem_walk, Option.map_some, Option.some.injEq, htext] at hname
    exact hname
  have hnew : (ofDocument d).scopes.newName b y u.identifier u.name = y := by
    rw [ScopeTable.newName, huy, ite_self]
  have heq := (hsame m hp.mem_walk hm).1
  have hnone : (ScopeTable.resolve d.root).declaration? u.identifier = none :=
    hs.lists.declaration?_eq_none.2 hof
  rw [hid, hnone, declaration?_renamed_use hd hi hb hu hdecl, hnew, List.findSome?_eq_none_iff] at heq
  rw [isCaptured] at hcaptured
  split at hcaptured
  · next candidate hfind =>
    have hself : candidate = B.scope := by simpa using List.find?_some hfind
    subst hself
    -- the scope of the binding is among those around the use
    obtain ⟨region, hregion, hscope⟩ := exists_of_forall₂ (scopesAround_of_use hd hu hdecl).flip
      (List.mem_of_find?_eq_some hfind)
    obtain ⟨e, he, hn, hename, -⟩ := exists_renamed_declaration (y := y) hd hi hb hb
    have hsome := firstDeclaration_isSome he
    rw [ScopeTable.nodeOf?, hscope] at hn
    rw [hename, if_pos rfl, ← Option.some.inj hn, heq region hregion] at hsome
    cases hsome
  · cases hcaptured

include hi hb in
/-- A binding may get a name when no identifier changes its declaration by that. -/
theorem renameConflict?_iff_samePartition (hne : y ≠ B.name) :
    (ofDocument d).renameConflict? b y = none ↔
      d.SamePartition ((ofDocument d).rename b y).document := by
  constructor
  · intro hc m _ _
    have hreordered := resolve_rename hd hi hb hc
    rw [rename_eq hb] at hreordered ⊢
    constructor
    · exact (hreordered.declaration? m.id).trans (rename_declaration? ..)
    · rw [hreordered.unresolved]
      exact Iff.rfl
  · intro hsame
    rw [renameConflict?_eq_none_iff hb]
    refine ⟨?_, fun r hr => ?_, fun o _ O hO _ hname r hr => ?_, fun r hr hname => ?_⟩
    · cases ho : (ofDocument d).scopes.bound? B.scope y with
      | none => rfl
      | some o => exact absurd hsame (changed_of_bound hd hi hb hne ho)
    · by_contra h
      exact changed_of_shadowed hd hi hb hr (Bool.not_eq_false _ ▸ h) hsame
    · by_contra h
      exact changed_of_captured hd hi hb hO hname hr (Bool.not_eq_false _ ▸ h) hsame
    · by_contra h
      exact changed_of_capturedGlobal hd hi hb hr hname (Bool.not_eq_false _ ▸ h) hsame

end Changes

/-! ### Renamings one after the other -/

/-- The workspaces that renamings without a conflict lead to, with the scopes of the bindings that
got other names. -/
inductive Renamings (start : Workspace) : List ScopeId → Workspace → Prop
  | none : Renamings start [] start
  | rename {ss : List ScopeId} {w : Workspace} {b : BindingId} {B : Binding} {y : String}
    (h : Renamings start ss w) (hb : w.scopes.bindings[b]? = some B)
    (hc : w.renameConflict? b y = none) : Renamings start (B.scope :: ss) (w.rename b y)

/-- What holds of a workspace after renamings without a conflict. -/
structure Fresh (ss : List ScopeId) (w : Workspace) : Prop where
  formed : w.document.WellFormed
  identifiers : w.document.DeclaresIdentifiers
  /-- The table is the one of the tree, up to the order of the names in some scopes. -/
  table : ScopeTable.Reordered ss w.scopes (ScopeTable.resolve w.document.root)

theorem Fresh.distinct (h : w.Fresh ss) : w.scopes.Distinct :=
  h.table.symm.distinct (ScopeTable.resolve_filled w.document.root).kept.keys

theorem Fresh.renameConflict? (h : w.Fresh ss) (b : BindingId) (y : String) :
    (ofDocument w.document).renameConflict? b y = none ↔ w.renameConflict? b y = none := by
  have hdocument : (ofDocument w.document).document = w.document := rfl
  exact renameConflict?_congr hdocument h.table h.distinct b y

section Fresh

variable (h : w.Fresh ss) (hb : w.scopes.bindings[b]? = some B)

include h hb

theorem Fresh.getElem? : (ofDocument w.document).scopes.bindings[b]? = some B :=
  (congrArg (·[b]?) h.table.bindings).trans hb

/-- A renaming does the same to the document as on a fresh table. -/
theorem Fresh.rename_document :
    (w.rename b y).document = ((ofDocument w.document).rename b y).document := by
  rw [rename_eq hb, rename_eq (h.getElem? hb)]
  rfl

/-- The table stays the one of the tree under a renaming without a conflict. -/
theorem Fresh.rename (hc : w.renameConflict? b y = none) :
    (w.rename b y).Fresh (B.scope :: ss) := by
  have hb' := h.getElem? hb
  have hc' := (h.renameConflict? b y).2 hc
  have hrelabelled := rename_relabelled (y := y) h.formed h.identifiers hb'
  have hdocument := h.rename_document (y := y) hb
  rw [← hdocument] at hrelabelled
  refine ⟨hrelabelled.formed, hrelabelled.identifiers h.identifiers, ?_⟩
  obtain ⟨hbound, -⟩ := (renameConflict?_eq_none_iff hb).1 hc
  have hrenamed := h.table.rename b B y hbound h.distinct
  have hresolved := resolve_rename h.formed h.identifiers hb' hc'
  rw [← hdocument, rename_eq hb'] at hresolved
  have htable : (w.rename b y).scopes = w.scopes.rename b B y := by rw [rename_eq hb]
  rw [htable]
  exact hrenamed.trans hresolved

end Fresh

theorem Renamings.fresh (hd : d.WellFormed) (hi : d.DeclaresIdentifiers)
    (h : Renamings (ofDocument d) ss w) : w.Fresh ss := by
  induction h with
  | none => exact ⟨hd, hi, .refl _⟩
  | rename _ hb hc ih => exact ih.rename hb hc

/-- After any renamings without a conflict, a binding may get another name exactly when resolving
the renamed tree afresh gives every identifier the declaration that it had, or leaves it unresolved
as it was. The table that is left then is the fresh one: the same scopes with the same names, of
which only those in the scopes of renamed bindings may come in another order, the same bindings
with the same references, and the same unresolved identifiers. -/
theorem renameConflict?_exact (hd : d.WellFormed) (hi : d.DeclaresIdentifiers)
    (h : Renamings (ofDocument d) ss w) (hb : w.scopes.bindings[b]? = some B) (hne : y ≠ B.name) :
    ScopeTable.Reordered ss w.scopes (ScopeTable.resolve w.document.root) ∧
      (w.renameConflict? b y = none ↔ w.document.SamePartition (w.rename b y).document) ∧
      (w.renameConflict? b y = none → ScopeTable.Reordered (B.scope :: ss) (w.rename b y).scopes
        (ScopeTable.resolve (w.rename b y).document.root)) := by
  have hfresh := h.fresh hd hi
  refine ⟨hfresh.table, ?_, fun hc => (hfresh.rename hb hc).table⟩
  rw [hfresh.rename_document hb, ← hfresh.renameConflict?]
  exact renameConflict?_iff_samePartition hfresh.formed hfresh.identifiers (hfresh.getElem? hb) hne

end Workspace

/-! ### A constant that is renamed -/

namespace Concrete

/-- The tree of `const a = b;`. -/
def constant : Concrete :=
  rule "program" 0 13 none
    [rule "lexical_declaration" 0 12 none
      [token "const" 0 5,
        rule "variable_declarator" 6 11 none
          [rule "identifier" 6 7 (some "name") [], token "=" 8 9,
            rule "identifier" 10 11 (some "value") []],
        token ";" 11 12]]

end Concrete

namespace Workspace

/-- A constant `a` may be called `c`, and then not `b`, which is not explained where it is used. -/
theorem constant_exact : ∃ d B C,
    Document.read (fun _ _ => Concrete.constant) "A.js" "const a = b;\n" = .ok d ∧
    d.WellFormed ∧ d.DeclaresIdentifiers ∧
    (ofDocument d).scopes.bindings[0]? = some B ∧ (ofDocument d).renameConflict? 0 "c" = none ∧
    ((ofDocument d).rename 0 "c").scopes.bindings[0]? = some C ∧ "b" ≠ C.name ∧
    ((ofDocument d).rename 0 "c").renameConflict? 0 "b" = some (.capturedGlobal "b" 1) ∧
    ¬((ofDocument d).rename 0 "c").document.SamePartition
      (((ofDocument d).rename 0 "c").rename 0 "b").document := by
  have hfacts : (Document.read (fun _ _ => Concrete.constant) "A.js" "const a = b;\n").map (fun d =>
      (decide d.DeclaresIdentifiers, (ofDocument d).scopes.bindings[0]?.map (·.name),
        (ofDocument d).renameConflict? 0 "c",
        ((ofDocument d).rename 0 "c").scopes.bindings[0]?.map (·.name),
        ((ofDocument d).rename 0 "c").renameConflict? 0 "b")) =
      .ok (true, some "a", none, some "c", some (.capturedGlobal "b" 1)) := by decide +kernel
  obtain ⟨d, hd, hvalues⟩ := Reading.map_eq_ok.1 hfacts
  simp only [Prod.mk.injEq, decide_eq_true_eq] at hvalues
  obtain ⟨hi, hB, hc, hC, hconflict⟩ := hvalues
  obtain ⟨B, hB, -⟩ := Option.map_eq_some_iff.1 hB
  obtain ⟨C, hC, hname⟩ := Option.map_eq_some_iff.1 hC
  have hne : "b" ≠ C.name := by rw [hname]; decide
  have hformed := Reading.read_wellFormed (by decide +kernel) hd
  obtain ⟨-, hiff, -⟩ := renameConflict?_exact hformed hi (.rename .none hB hc) hC hne
  refine ⟨d, B, C, hd, hformed, hi, hB, hc, hC, hne, hconflict, fun hsame => ?_⟩
  rw [hiff.2 hsame] at hconflict
  cases hconflict

end Workspace

end JsxLint
