import JsxLint.Proofs.Scope.Resolution
import JsxLint.Scope.Workspace

/-!
# Sound workspaces

A round of repairs works on one table of scopes, which the repairs edit together with the tree. In
a sound workspace the table still says what a fresh resolution of the tree would say, for every
identifier that was there when the round began.

* `Document.declarations`, `uses`, `regions`: what the tree of a document declares, uses and opens;
* `Document.Follows`: a document whose nodes come from those of another one;
* `Workspace.Sound`: the invariant;
* `Workspace.Sound.declaration?_congr`: two sound tables of a document agree;
* `Workspace.Step`: what a repair keeps.
-/

namespace JsxLint

open Node

/-! ### Documents -/

namespace Document

/-- What the tree of a document declares. -/
def declarations (d : Document) : List Declaration :=
  d.root.declarations false d.root.program

/-- The uses of names in the tree of a document. -/
def uses (d : Document) : List Use :=
  d.root.uses false d.root.program

/-- The scopes of a document. -/
def regions (d : Document) : List Region :=
  d.root.program ++ d.root.regions false d.root.program

/-- Whether the older nodes of a document come from nodes of another one of the same form. -/
structure Follows (d d' : Document) : Prop where
  fresh : d.fresh ≤ d'.fresh
  node : ∀ m' ∈ d'.root.walk, m'.id < d.fresh → ∃ m ∈ d.root.walk, m.id = m'.id ∧
    m'.label.form = m.label.form ∧ (m.isEmptyContainer → m'.isEmptyContainer)

variable {d d' d'' : Document}

theorem Follows.refl (d : Document) : d.Follows d :=
  ⟨Nat.le_refl _, fun m hm _ => ⟨m, hm, rfl, rfl, id⟩⟩

theorem Follows.trans (h : d.Follows d') (h' : d'.Follows d'') : d.Follows d'' where
  fresh := Nat.le_trans h.fresh h'.fresh
  node m'' hm'' hlt := by
    obtain ⟨m', hm', hid', hform', he'⟩ := h'.node m'' hm'' (Nat.lt_of_lt_of_le hlt h.fresh)
    obtain ⟨m, hm, hid, hform, he⟩ := h.node m' hm' (hid' ▸ hlt)
    exact ⟨m, hm, hid.trans hid', hform'.trans hform, he' ∘ he⟩

/-- A declaring identifier stands in the tree under its name. -/
theorem exists_of_mem_declarations {e : Declaration} (h : e ∈ d.declarations) :
    ∃ m ∈ d.root.walk, m.id = e.identifier ∧ m.text = e.name :=
  let ⟨_, hk, m, hm, he⟩ := Node.exists_of_mem_declarations h
  ⟨m, mem_walk_trans hm.1 hk, congrArg Prod.fst he, congrArg Prod.snd he⟩

/-- A use is an identifier in the tree, below the nodes that open the scopes around it. -/
theorem exists_of_mem_uses {u : Use} (h : u ∈ d.uses) : ∃ above m, d.root.Path above m ∧
    m.label.isIdentifier ∧ m.id = u.identifier ∧ m.text = u.name ∧
    u.around = regionsAbove above ++ d.root.program := by
  obtain ⟨above, m, hp, hi, rfl⟩ := exists_path_of_uses h
  exact ⟨above, m, hp, hi, rfl, rfl, rfl⟩

/-- Every identifier in the tree is a use. -/
theorem exists_use {m : Node} (hm : m ∈ d.root.walk) (hi : m.label.isIdentifier) :
    ∃ u ∈ d.uses, u.identifier = m.id ∧ u.name = m.text := by
  obtain ⟨above, hp⟩ := exists_path hm
  have hspot := mem_spots_of_path d.root.program hp
  refine ⟨⟨m.id, m.text, regionsAbove above ++ d.root.program⟩, ?_, rfl, rfl⟩
  exact List.mem_filterMap.2 ⟨_, hspot, by rw [use?, if_pos hi]⟩

end Document

theorem Label.isIdentifier_iff (l : Label) : l.isIdentifier ↔ l.form = "Identifier" := by
  cases l <;> simp [isIdentifier, form]

theorem Label.name?_isSome_iff (l : Label) :
    l.name?.isSome ↔ l.form = "Identifier" ∨ l.form = "JSXName" := by
  cases l <;> simp [name?, form]

/-! ### Sound workspaces -/

namespace Workspace

/-- What holds of a workspace in a round of repairs, in terms of the name that was the next free one
when the round began. -/
structure Sound (w : Workspace) (start : NodeId) : Prop where
  formed : w.document.WellFormed
  fresh : start ≤ w.document.fresh
  lists : w.scopes.Lists w.document.declarations
  regions : w.scopes.regions = w.document.regions
  knows : ∀ u ∈ w.document.uses, u.identifier < start →
    w.scopes.declared.lookup u.identifier = none → w.scopes.Knows u
  lt_fresh : ∀ i, (w.scopes.bindingOf? i).isSome ∨ i ∈ w.scopes.unresolved →
    i < w.document.fresh
  named : ∀ m ∈ w.document.root.walk, (w.scopes.bindingOf? m.id).isSome →
    (w.scopes.declared.lookup m.id).isSome ∨ m.label.isIdentifier
  /-- References are spelled like their bindings, those to made nodes too. -/
  spelled : ∀ u ∈ w.document.uses, w.scopes.declared.lookup u.identifier = none →
    ∀ b B, w.scopes.bindingOf? u.identifier = some b → w.scopes.bindings[b]? = some B →
      u.name = B.name

variable {d : Document} {w w' w'' : Workspace} {start start' : NodeId} {u : Use} {i : NodeId}

/-- A document with its scopes resolved afresh is sound. -/
theorem sound_ofDocument (h : d.WellFormed) : (ofDocument d).Sound d.fresh := by
  obtain ⟨hres, hregions, -⟩ := ScopeTable.resolve_resolved h.root.nodup
    (fun n hn => (h.root.shaped n hn).parameters) h.root.program
  have huse : ∀ i, (ofDocument d).scopes.declared.lookup i = none →
      ((ofDocument d).scopes.bindingOf? i).isSome ∨ i ∈ (ofDocument d).scopes.unresolved →
      ∃ u ∈ d.uses, u.identifier = i := by
    intro i hd hi
    by_contra hno
    obtain ⟨h1, -, h3⟩ := hres.unused i hd fun u hu he => hno ⟨u, hu, he⟩
    rcases hi with hi | hi
    · rw [show (ofDocument d).scopes.bindingOf? i = none from h1] at hi
      cases hi
    · exact h3 hi
  refine ⟨h, Nat.le_refl _, hres.lists, hregions, fun u hu _ hd => hres.knows u hu hd,
    fun i hi => ?_, fun m hm hi => ?_, fun u hu hd b B hb hB => ?_⟩
  · cases hd : (ofDocument d).scopes.declared.lookup i with
    | some b =>
      obtain ⟨e, he, rfl⟩ := hres.lists.declared i (by
        rw [show (ScopeTable.resolve d.root).declared.lookup i = some b from hd]
        rfl)
      obtain ⟨m, hm, hid, -⟩ := Document.exists_of_mem_declarations he
      exact hid ▸ h.root.lt_fresh _ (id_mem_ids hm)
    | none =>
      obtain ⟨u, hu, rfl⟩ := huse i hd hi
      obtain ⟨above, m, hp, -, hid, -⟩ := Document.exists_of_mem_uses hu
      exact hid ▸ h.root.lt_fresh _ (id_mem_ids hp.mem_walk)
  · cases hd : (ofDocument d).scopes.declared.lookup m.id with
    | some b => exact .inl rfl
    | none =>
      obtain ⟨u, hu, he⟩ := huse m.id hd (.inl hi)
      obtain ⟨above, l, hp, hl, hid, -⟩ := Document.exists_of_mem_uses hu
      cases eq_of_id_eq h.root.nodup hp.mem_walk hm (hid.trans he)
      exact .inr hl
  · obtain ⟨s, hs⟩ := hres.knows u hu hd
    exact (hres.lists.name_of_lookup? (hs.binding.symm.trans hb) hB).symm

namespace Sound

/-- In a sound workspace the identifiers with a declaration of their own are those that declare. -/
theorem declared_iff (h : w.Sound start) : (w.scopes.declared.lookup i).isSome ↔
    ∃ e ∈ w.document.declarations, e.identifier = i := by
  refine ⟨h.lists.declared i, ?_⟩
  rintro ⟨e, he, rfl⟩
  obtain ⟨b, B, hb, -⟩ := h.lists.complete e he
  rw [hb]
  rfl

/-- Two sound tables of a document give an identifier the same declaration. -/
theorem declaration?_congr (h : w.Sound start) (h' : w'.Sound start')
    (hd : w'.document = w.document) (hu : u ∈ w.document.uses) (hs : u.identifier < start)
    (hs' : u.identifier < start') :
    w'.scopes.declaration? u.identifier = w.scopes.declaration? u.identifier := by
  have hlists := h'.lists
  have hiff := h'.declared_iff (i := u.identifier)
  rw [hd] at hlists hiff
  cases hdecl : w.scopes.declared.lookup u.identifier with
  | some b =>
    obtain ⟨e, he, hi⟩ := h.declared_iff.1 (by rw [hdecl]; rfl)
    rw [← hi, h.lists.declaration?_of_mem he, hlists.declaration?_of_mem he]
  | none =>
    have hnone : w'.scopes.declared.lookup u.identifier = none := by
      rw [← Option.not_isSome_iff_eq_none, hiff, ← h.declared_iff, hdecl]
      exact Bool.false_ne_true
    obtain ⟨s, hs⟩ := h.knows u hu hs hdecl
    obtain ⟨s', hs'⟩ := h'.knows u (hd ▸ hu) hs' hnone
    rw [ScopeTable.declaration?, hs'.binding, hlists.lookup?_bind hs'.around,
      ScopeTable.declaration?, hs.binding, h.lists.lookup?_bind hs.around]

/-- Two sound tables of a document give every node the same declaration. -/
theorem declaration?_node {m : Node} (h : w.Sound start) (h' : w'.Sound start')
    (hd : w'.document = w.document) (hm : m ∈ w.document.root.walk) (hs : m.id < start)
    (hs' : m.id < start') : w'.scopes.declaration? m.id = w.scopes.declaration? m.id := by
  have hlists := h'.lists
  have hiff := h'.declared_iff (i := m.id)
  rw [hd] at hlists hiff
  by_cases hi : m.label.isIdentifier
  · obtain ⟨u, hu, he, -⟩ := Document.exists_use hm hi
    exact he ▸ h.declaration?_congr h' hd hu (he ▸ hs) (he ▸ hs')
  · by_cases hdecl : (w.scopes.declared.lookup m.id).isSome
    · obtain ⟨e, he, hid⟩ := h.declared_iff.1 hdecl
      rw [← hid, h.lists.declaration?_of_mem he, hlists.declaration?_of_mem he]
    · -- what neither declares nor is an identifier belongs to no binding
      have hnone : w.scopes.bindingOf? m.id = none := by
        by_contra hsome
        exact (h.named m hm (Option.isSome_iff_ne_none.2 hsome)).elim hdecl hi
      have hnone' : w'.scopes.bindingOf? m.id = none := by
        by_contra hsome
        refine (h'.named m (hd ▸ hm) (Option.isSome_iff_ne_none.2 hsome)).elim (fun hdecl' => ?_) hi
        exact hdecl (h.declared_iff.2 (hiff.1 hdecl'))
      rw [h.lists.declaration?_eq_none.2 hnone, hlists.declaration?_eq_none.2 hnone']

/-- In a sound workspace the unresolved identifiers are those without a declaration. -/
theorem unresolved_iff (h : w.Sound start) (hu : u ∈ w.document.uses) (hs : u.identifier < start) :
    u.identifier ∈ w.scopes.unresolved ↔ w.scopes.declaration? u.identifier = none := by
  rw [h.lists.declaration?_eq_none]
  refine ⟨h.lists.unresolved _, fun hn => ?_⟩
  obtain ⟨s, hs⟩ := h.knows u hu hs (Option.or_eq_none_iff.1 hn).1
  exact (hs.unresolved hn).2

/-- A workspace stays sound when an edit of its document keeps what the table says of it. -/
theorem edit (h : w.Sound start) (hd : d.WellFormed) (hf : w.document.Follows d)
    (hdeclarations : d.declarations = w.document.declarations)
    (hregions : d.regions = w.document.regions)
    (huses : ∀ u ∈ d.uses, w.document.fresh ≤ u.identifier ∨ u ∈ w.document.uses) :
    { w with document := d }.Sound start where
  formed := hd
  fresh := Nat.le_trans h.fresh hf.fresh
  lists := hdeclarations ▸ h.lists
  regions := h.regions.trans hregions.symm
  knows u hu hs hn := by
    rcases huses u hu with hu | hu
    · exact absurd (Nat.lt_of_lt_of_le hs h.fresh) (Nat.not_lt.2 hu)
    · exact h.knows u hu hs hn
  lt_fresh i hi := Nat.lt_of_lt_of_le (h.lt_fresh i hi) hf.fresh
  named m hm hi := by
    obtain ⟨l, hl, hid, hform, -⟩ := hf.node m hm (h.lt_fresh m.id (.inl hi))
    rw [← hid] at hi ⊢
    refine (h.named l hl hi).imp_right fun hl => ?_
    rw [Label.isIdentifier_iff] at hl ⊢
    exact hform.trans hl
  spelled u hu hd b B hb hB := by
    rcases huses u hu with hu | hu
    · exact absurd (h.lt_fresh _ (.inl (by rw [hb]; rfl))) (Nat.not_lt.2 hu)
    · exact h.spelled u hu hd b B hb hB

end Sound

/-! ### Repairs -/

/-- What a repair keeps: the workspace stays sound, its nodes come from those that were there, and
no older identifier gets another declaration. -/
structure Step (start : NodeId) (w w' : Workspace) : Prop where
  sound : w'.Sound start
  follows : w.document.Follows w'.document
  declaration? : ∀ i < start, w'.scopes.declaration? i = w.scopes.declaration? i

theorem Step.refl (h : w.Sound start) : Step start w w :=
  ⟨h, .refl _, fun _ _ => rfl⟩

theorem Step.trans (h : Step start w w') (h' : Step start w' w'') : Step start w w'' :=
  ⟨h'.sound, h.follows.trans h'.follows,
    fun i hi => (h'.declaration? i hi).trans (h.declaration? i hi)⟩

end Workspace
end JsxLint
