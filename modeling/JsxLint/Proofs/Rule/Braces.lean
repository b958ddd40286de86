import JsxLint.Proofs.Rule.Effects
import JsxLint.Proofs.Rule.Survival

/-!
# Braces

Only the removal of empty braces takes braces out of a tree, and it takes those that it is made for.
So the empty braces in the content of elements and fragments are after a repair what they were
before it, but for these.

* `Node.emptyContent`: the empty braces in the content of elements and fragments;
* `Rule.Effect.braces_site?`: braces stay what they are, and where they are;
* `Rule.Effect.length_emptyContent`: how many empty ones are left in content.
-/

namespace JsxLint

/-! ### Empty content -/

namespace Node

/-- Whether a node of a tree is a pair of empty braces in the content of an element or a fragment. -/
def isEmptyContent (root m : Node) : Bool :=
  m.isEmptyContainer && (m.parent.bind root.find?).any (·.label.isMarkup)

/-- The empty braces in the content of elements and fragments. -/
def emptyContent (root : Node) : List Node :=
  root.walk.filter root.isEmptyContent

variable {root m m' : Node}

theorem isEmptyContainer_congr (h : m'.site = m.site) :
    m'.isEmptyContainer = m.isEmptyContainer := by
  have hl : m'.label = m.label := congrArg Site.label h
  have hids : m'.children.map (·.id) = m.children.map (·.id) := congrArg Site.children h
  have hempty : m'.children.isEmpty = m.children.isEmpty := by
    rw [← List.isEmpty_map, hids, List.isEmpty_map]
  rw [isEmptyContainer.eq_def, isEmptyContainer.eq_def m, hl, hempty]

theorem nodup_emptyContent (h : root.ids.Nodup) : (root.emptyContent.map (·.id)).Nodup :=
  h.sublist (List.filter_sublist.map _)

end Node

open Node

/-- Empty braces are in content when an element or a fragment has them for a child. -/
theorem Document.WellFormed.mem_emptyContent_iff {d : Document} {m : Node} (h : d.WellFormed) :
    m ∈ d.root.emptyContent ↔
      m.isEmptyContainer ∧ ∃ p ∈ d.root.walk, p.label.isMarkup ∧ m ∈ p.children := by
  rw [emptyContent, List.mem_filter, isEmptyContent, Bool.and_eq_true, Option.any_eq_true]
  constructor
  · rintro ⟨hm, he, p, hp, hmarkup⟩
    obtain ⟨i, hparent, hfind⟩ := Option.bind_eq_some_iff.1 hp
    obtain ⟨hpw, rfl⟩ := (find?_eq_some_iff h.root.nodup).1 hfind
    exact ⟨he, p, hpw, hmarkup, h.mem_children hm hpw hparent⟩
  · rintro ⟨he, p, hp, hmarkup, hm⟩
    refine ⟨mem_walk_trans (child_mem_walk hm) hp, he, p, ?_, hmarkup⟩
    rw [h.root.linked p hp m hm, Option.bind_some]
    exact (find?_eq_some_iff h.root.nodup).2 ⟨hp, rfl⟩

namespace Rule

variable {cuts : Prop} {w w' : Workspace} {start i : NodeId} {rule : Rule} {m m' : Node}

/-! ### What repairs leave of braces -/

theorem Effect.removal (he : Effect w w' i rule) (hr : rule = Rule.emptyExpression) :
    Nonempty (Removal w w' i) := by
  cases he with
  | emptyExpression e => exact ⟨e⟩
  | _ => exact absurd hr (ne_of_id_ne (by decide))

/-- The braces that are taken out are empty ones in content. -/
theorem Removal.mem_emptyContent (e : Removal w w' i) (h : w.Sound start) :
    i ∈ w.document.root.emptyContent.map (·.id) :=
  List.mem_map.2 ⟨e.taken, h.formed.mem_emptyContent_iff.2
    ⟨e.isEmpty, e.owner, e.owner_mem, e.isMarkup, e.mem⟩, e.id⟩

theorem Removal.not_mem (e : Removal w w' i) (h : w.Sound start) :
    i ∉ w'.document.root.ids := by
  refine site?_eq_none_iff.1 ?_
  rw [e.site?, if_neg, if_pos rfl]
  intro he
  have hmarkup := e.isMarkup
  obtain ⟨⟨_, hl⟩, -⟩ := emptyContainer_leaf e.isEmpty
  rw [eq_of_id_eq h.formed.root.nodup e.owner_mem e.taken_mem (he.symm.trans e.id.symm), hl]
    at hmarkup
  cases hmarkup

section

variable (he : Effect w w' i rule) (h : w.Sound start) (hbare : w.document.root.TagsBare)

include he h hbare

/-- Braces stay what they are and where they are, but for empty ones that are taken out. -/
theorem Effect.braces_site? {hasComment : Bool} (hm : m ∈ w.document.root.walk)
    (hl : m.label = .container hasComment) (h' : w'.Sound start)
    (hi : ¬(rule = Rule.emptyExpression ∧ m.id = i)) :
    w'.document.root.site? m.id = some m.site := by
  have hstays : m.id ∈ w'.document.root.ids := by
    by_contra hgone
    rcases he.gone h hm hgone with ⟨hr, hid, -⟩ | ⟨-, e, t, ht, hmt⟩
    · exact hi ⟨hr, hid⟩
    · have htw := (e.idle h ht).1
      rcases List.mem_append.1 ht with ht | ht
      · -- blank text has nothing below it
        have hblank := List.all_eq_true.1 e.blank t ht
        rw [isBlankText.eq_def] at hblank
        split at hblank
        · next text htext =>
          rw [walk_eq, (h.formed.root.shaped t htw).text _ htext] at hmt
          cases List.mem_singleton.1 hmt
          cases hl.symm.trans htext
        · cases hblank
      · have hclosing := closingTag_of_form ((h.formed.root.shaped _ e.mem).closing _ e.element? t
          (Option.mem_toList.1 ht)).1
        have hbraces := hbare t htw hclosing m hmt
        rw [hl] at hbraces
        cases hbraces
  obtain ⟨m', hm', hid⟩ := mem_ids.1 hstays
  rw [← hid, site?_of_mem h'.formed.root.nodup hm',
    he.site_eq h h' hm hm' hid (by rw [hl]; exact Bool.false_ne_true)]

variable (h' : w'.Sound start) (ha : Alters cuts w.document.root w'.document.root)

include h' ha

/-- The empty braces in content after a repair are those before it, but for the ones that are taken
out. -/
theorem Effect.mem_emptyContent_iff (k : NodeId) :
    k ∈ w'.document.root.emptyContent.map (·.id) ↔
      k ∈ w.document.root.emptyContent.map (·.id) ∧ ¬(rule = Rule.emptyExpression ∧ k = i) := by
  simp only [List.mem_map]
  constructor
  · rintro ⟨m', hm', rfl⟩
    obtain ⟨hempty, p', hp', hmarkup, hc'⟩ := h'.formed.mem_emptyContent_iff.1 hm'
    obtain ⟨⟨_, hl⟩, -⟩ := emptyContainer_leaf hempty
    obtain ⟨p, hp, hmarkup, c, hc, hid⟩ := ha.container_child hp' hmarkup hc' hl
    have hcw := mem_walk_trans (child_mem_walk hc) hp
    have hcw' := mem_walk_trans (child_mem_walk hc') hp'
    have hfixed : ¬c.label.isAlterable := by
      rw [← Label.isAlterable_of_form (he.form h h' hcw hcw' hid.symm), hl]
      exact Bool.false_ne_true
    have hsite := he.site_eq h h' hcw hcw' hid.symm hfixed
    rw [isEmptyContainer_congr hsite] at hempty
    refine ⟨⟨c, h.formed.mem_emptyContent_iff.2 ⟨hempty, p, hp, hmarkup, hc⟩, hid⟩, ?_⟩
    rintro ⟨hr, hi⟩
    obtain ⟨e⟩ := he.removal hr
    exact e.not_mem h (hi ▸ id_mem_ids hcw')
  · rintro ⟨⟨m, hm, rfl⟩, hi⟩
    obtain ⟨hempty, p, hp, hmarkup, hc⟩ := h.formed.mem_emptyContent_iff.1 hm
    obtain ⟨⟨_, hl⟩, -⟩ := emptyContainer_leaf hempty
    obtain ⟨m', hm', hid, hsite⟩ := (site?_eq_some_iff h'.formed.root.nodup).1
      (he.braces_site? h hbare (mem_walk_trans (child_mem_walk hc) hp) hl h' hi)
    obtain ⟨p', hp', hpid⟩ := he.exists_of_not_isIdle h hp (Label.not_isIdle_of_isMarkup hmarkup)
    have hparent : m'.parent = some p'.id := by
      rw [show m'.parent = m.parent from congrArg Site.parent hsite, h.formed.root.linked p hp m hc,
        hpid]
    refine ⟨m', h'.formed.mem_emptyContent_iff.2 ⟨?_, p', hp', ?_, ?_⟩, hid⟩
    · rw [isEmptyContainer_congr hsite, hempty]
    · rwa [isMarkup_iff, he.form h h' hp hp' hpid, ← isMarkup_iff]
    · exact h'.formed.mem_children hm' hp' hparent

/-- One pair of empty braces less is in content when one was taken out, and else as many as before. -/
theorem Effect.length_emptyContent (hrule : rule ∈ all) :
    w'.document.root.emptyContent.length + (if rule.id = Rule.emptyExpression.id then 1 else 0) =
      w.document.root.emptyContent.length := by
  have hmem := he.mem_emptyContent_iff h hbare h' ha
  have hd := nodup_emptyContent h.formed.root.nodup
  have hd' := nodup_emptyContent h'.formed.root.nodup
  rw [← List.length_map (·.id), ← @List.length_map _ _ w.document.root.emptyContent (·.id)]
  split_ifs with hid
  · have hr : rule = Rule.emptyExpression := id_inj hrule (by simp [all]) hid
    obtain ⟨e⟩ := he.removal hr
    have hi : i ∉ w'.document.root.emptyContent.map (·.id) := fun hi =>
      ((hmem i).1 hi).2 ⟨hr, rfl⟩
    have hperm : (i :: w'.document.root.emptyContent.map (·.id)).Perm
        (w.document.root.emptyContent.map (·.id)) := by
      refine (List.perm_ext_iff_of_nodup (List.nodup_cons.2 ⟨hi, hd'⟩) hd).2 fun k => ?_
      rw [List.mem_cons, hmem]
      by_cases hk : k = i
      · simp [hk, e.mem_emptyContent h]
      · simp [hk]
    exact hperm.length_eq
  · refine ((List.perm_ext_iff_of_nodup hd' hd).2 fun k => ?_).length_eq
    rw [hmem, and_iff_left fun hk => hid (by rw [hk.1])]

end

end Rule
end JsxLint
