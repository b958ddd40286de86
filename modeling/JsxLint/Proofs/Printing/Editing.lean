import Mathlib.Data.List.Induction
import JsxLint.Proofs.Printing.Patches
import JsxLint.Proofs.Reading.WellFormed
import JsxLint.Proofs.Rule.Markup

/-!
# Printing an edited tree

Names are given and content is taken out, in any order; what is printed afterwards is the source
with other bytes just where the edits were.

* `Edit`, `Document.edited`: the edits of a tree;
* `Node.patches`: the patches of the source that they make, read off the tree before the edits;
* `Revised`: what the edits leave of a tree, one step for each edit in `Revised.step`;
* `revised_printsAs`: what they leave is printed as the source under the patches;
* `print_edited`, `edited_print`: the same of documents.
-/

namespace JsxLint

/-- An edit of a tree. -/
inductive Edit
  /-- Give another name to an identifier or a markup name. -/
  | rename (id : NodeId) (name : String)
  /-- Take a child out of the content of an element or a fragment. -/
  | remove (parent child : NodeId)
  deriving DecidableEq, Repr

namespace Edit

/-- The node that an edit is made at. -/
def owner : Edit → NodeId
  | .rename id _ => id
  | .remove parent _ => parent

/-- The name that an edit gives to a node. -/
def name? (id : NodeId) : Edit → Option String
  | .rename i name => if i = id then some name else none
  | .remove .. => none

/-- What an edit makes of its node. -/
def change : Edit → Node → Node
  | .rename _ name, n => { n with label := n.label.rename name }
  | .remove _ child, n =>
    match n.content.find? (·.id == child) with
    | some taken => Rule.without taken n
    | none => n

end Edit

namespace Document

/-- Make one edit; a child that is not there cannot be taken out. -/
def apply (d : Document) : Edit → Document
  | .rename id name => d.rename id name
  | .remove parent child => (d.removeChild? parent child).getD d

/-- Make edits, one after the other. -/
def edited (d : Document) (es : List Edit) : Document :=
  es.foldl apply d

end Document

/-! ### What edits say about a tree -/

/-- The text of a name that is printed where one was read. -/
def Label.spelling? : Label → Option String
  | .identifier name written shorthand => some (Printer.identifierText false name written shorthand)
  | .markupName name => some name
  | _ => none

/-- The last name that edits give to a node. -/
def lastName? (es : List Edit) (id : NodeId) : Option String :=
  (es.filterMap (Edit.name? id)).getLast?

namespace Node

/-- Whether every exported name at or below a node that edits leave alone is all that stands in its
place. -/
def ExactBut (s : Source) (es : List Edit) (n : Node) : Prop :=
  ∀ m ∈ n.walk, m.label.isExported → lastName? es m.id = none →
    (m.place.span.map s.text).getD "" = m.text

/-- The label of a node under the name that edits give to it. -/
def relabelled (es : List Edit) (n : Node) : Label :=
  match lastName? es n.id with
  | some name => n.label.rename name
  | none => n.label

/-- The text that is printed in the place of a node because of the name that edits give to it. -/
def newText? (es : List Edit) (n : Node) : Option String :=
  (lastName? es n.id).bind fun name => (n.label.rename name).spelling?

/-- Whether edits take a child out of a node. -/
def isGone (es : List Edit) (n c : Node) : Bool :=
  n.content.any (·.id == c.id) && es.contains (.remove n.id c.id)

mutual

/-- The patches that edits make at or below a node: another text for a name that has another one,
and nothing for a child that is gone, whatever the edits are below it. -/
def patches (es : List Edit) : Node → List Patch
  | ⟨id, parent, place, label, children⟩ =>
    match newText? es ⟨id, parent, place, label, children⟩ with
    | some text => [⟨span ⟨id, parent, place, label, children⟩, Utf8.encode text⟩]
    | none => patchesBelow es (isGone es ⟨id, parent, place, label, children⟩) children

/-- The patches that edits make at or below children, some of which are gone. -/
def patchesBelow (es : List Edit) (gone : Node → Bool) : List Node → List Patch
  | [] => []
  | n :: ns => (if gone n then [.cut n.span] else n.patches es) ++ patchesBelow es gone ns

end

theorem patchesBelow_eq (es : List Edit) (gone : Node → Bool) (ns : List Node) :
    patchesBelow es gone ns = patchesOf gone (patches es) ns := by
  induction ns with
  | nil => rfl
  | cons n ns ih => rw [patchesBelow, ih, patchesOf, patchesOf, List.flatMap_cons]

theorem patches_eq (es : List Edit) (n : Node) : n.patches es =
    match n.newText? es with
    | some text => [⟨n.span, Utf8.encode text⟩]
    | none => patchesOf (n.isGone es) (patches es) n.children := by
  rw [← patchesBelow_eq]
  cases n
  rw [patches]

end Node

/-- The label of a node that removed spans are noted at. -/
def noteAll (spans : List Span) (label : Label) : Label :=
  spans.foldl (fun label span => Document.noteRemoved span label) label

/-- What edits leave of a tree. -/
inductive Revised (es : List Edit) : Node → Node → Prop
  | mk {n : Node} {spans : List Span} {kids : List Node}
    (hs : spans.Perm ((n.children.filter (n.isGone es)).filterMap (·.place.span)))
    (hk : List.Forall₂ (Revised es) (n.children.filter (!n.isGone es ·)) kids) :
    Revised es n ⟨n.id, n.parent, n.place, noteAll spans (n.relabelled es), kids⟩

open Node

section Revised

variable {es : List Edit} {e : Edit} {n n' c : Node} {spans : List Span} {label : Label}

theorem Revised.id_eq (h : Revised es n n') : n'.id = n.id := by
  cases h
  rfl

theorem Revised.place_eq (h : Revised es n n') : n'.place = n.place := by
  cases h
  rfl

theorem Revised.children (h : Revised es n n') :
    List.Forall₂ (Revised es) (n.children.filter (!n.isGone es ·)) n'.children := by
  cases h with
  | mk _ hk => exact hk

theorem Revised.label_eq (h : Revised es n n') : ∃ spans : List Span,
    spans.Perm ((n.children.filter (n.isGone es)).filterMap (·.place.span)) ∧
      n'.label = noteAll spans (n.relabelled es) := by
  cases h with
  | mk hs _ => exact ⟨_, hs, rfl⟩

theorem isGone_nil (n c : Node) : n.isGone [] c = false := by
  simp [isGone]

/-- No edits leave a tree as it is. -/
theorem Revised.nil (n : Node) : Revised [] n n := by
  induction n using Node.induct with
  | step n ih =>
    have hkept : n.children.filter (!n.isGone [] ·) = n.children :=
      List.filter_eq_self.2 fun c _ => by simp [isGone_nil]
    have hgone : n.children.filter (n.isGone []) = [] :=
      List.filter_eq_nil_iff.2 fun c _ => by simp [isGone_nil]
    have hk : List.Forall₂ (Revised []) (n.children.filter (!n.isGone [] ·)) n.children := by
      rw [hkept]
      exact List.forall₂_same.2 ih
    have hs : ([] : List Span).Perm
        ((n.children.filter (n.isGone [])).filterMap (·.place.span)) := by rw [hgone]; exact .refl _
    have h := Revised.mk hs hk
    cases n
    exact h

/-- What edits leave of a tree has no names of nodes that were not there. -/
theorem Revised.ids_sublist (h : Revised es n n') : n'.ids.Sublist n.ids := by
  induction n using Node.induct generalizing n' with
  | step n ih =>
    have hkids : ∀ {l l' : List Node}, (∀ m ∈ l, m ∈ n.children) → List.Forall₂ (Revised es) l l' →
        (l'.flatMap ids).Sublist (l.flatMap ids) := by
      intro l l' hl hk
      induction hk with
      | nil => exact .refl _
      | cons hm _ ih' =>
        obtain ⟨h1, h2⟩ := List.forall_mem_cons.1 hl
        exact (ih _ h1 hm).append (ih' h2)
    have hchildren := hkids (fun m hm => List.mem_of_mem_filter hm) h.children
    rw [ids_eq, ids_eq n, h.id_eq]
    exact (hchildren.trans (List.filter_sublist.flatMap ids)).cons_cons _

/-! ### Labels -/

theorem noteAll_of_not_isMarkup (h : label.isMarkup = false) : noteAll spans label = label := by
  induction spans with
  | nil => rfl
  | cons span spans ih =>
    have hnote : Document.noteRemoved span label = label := by
      cases label <;> first | rfl | cases h
    rw [noteAll, List.foldl_cons, hnote]
    exact ih

theorem noteAll_element (isClosed : Bool) (removed : List Span) :
    noteAll spans (.element isClosed removed) = .element isClosed (removed ++ spans) := by
  induction spans generalizing removed with
  | nil => rw [List.append_nil]; rfl
  | cons span spans ih => exact (ih _).trans (by rw [List.append_assoc, List.singleton_append])

theorem noteAll_fragment (removed : List Span) :
    noteAll spans (.fragment removed) = .fragment (removed ++ spans) := by
  induction spans generalizing removed with
  | nil => rw [List.append_nil]; rfl
  | cons span spans ih => exact (ih _).trans (by rw [List.append_assoc, List.singleton_append])

theorem noteAll_rename (name : String) :
    (noteAll spans label).rename name = noteAll spans (label.rename name) := by
  by_cases h : label.isMarkup = true
  · cases label <;> first
      | exact absurd h Bool.false_ne_true
      | simp only [Label.rename, noteAll_element, noteAll_fragment]
  · have h' : (label.rename name).isMarkup = false := by
      cases label <;> simp_all [Label.rename, Label.isMarkup]
    rw [noteAll_of_not_isMarkup h', noteAll_of_not_isMarkup (by simpa using h)]

/-! ### Content -/

/-- The content of a node, from its label and its children. -/
theorem content_eq (n : Node) : n.content =
    match n.label with
    | .fragment _ => n.children
    | .element true _ => n.children.tail.dropLast
    | .element false _ => n.children.tail
    | _ => [] := by
  obtain ⟨id, parent, place, label, children⟩ := n
  cases label with
  | element isClosed removed => cases isClosed <;> cases children <;> rfl
  | _ => rfl

theorem isGone_of_not_mem (hc : ∀ k ∈ n.content, k.id ≠ c.id) : n.isGone es c = false := by
  have hany : n.content.any (·.id == c.id) = false := by
    rw [List.any_eq_false]
    exact fun k hk => by simpa using hc k hk
  rw [isGone, hany, Bool.false_and]

theorem isGone_of_not_isMarkup (h : n.label.isMarkup = false) : n.isGone es c = false := by
  refine isGone_of_not_mem fun k hk => ?_
  rw [content_eq] at hk
  cases hl : n.label <;> rw [hl] at h hk <;> first
    | cases hk
    | cases h

theorem relabelled_eq (h : ∀ name, n.label.rename name = n.label) : n.relabelled es = n.label := by
  rw [relabelled]
  split
  · exact h _
  · rfl

theorem filter_tail {p : Node → Bool} {l : List Node} (h : ∀ a ∈ l.head?, p a) :
    (l.filter p).tail = l.tail.filter p := by
  cases l with
  | nil => rfl
  | cons a l => rw [List.filter_cons_of_pos (h a rfl), List.tail_cons, List.tail_cons]

theorem filter_dropLast {p : Node → Bool} {l : List Node} (h : ∀ a ∈ l.getLast?, p a) :
    (l.filter p).dropLast = l.dropLast.filter p := by
  rcases List.eq_nil_or_concat l with rfl | ⟨l, a, rfl⟩
  · rfl
  · rw [List.concat_eq_append, List.getLast?_concat] at h
    simp [h a rfl]

/-- The opening tag of an element is no content, and stays. -/
theorem isGone_opening {isClosed : Bool} {removed : List Span} {opening : Node} {rest : List Node}
    (hd : n.ids.Nodup) (hl : n.label = .element isClosed removed)
    (hc : n.children = opening :: rest) : n.isGone es opening = false := by
  refine isGone_of_not_mem fun k hk => ?_
  have hdc : n.children.Pairwise fun b c => b.id ≠ c.id := List.pairwise_map.1 (nodup_children hd)
  rw [hc] at hdc
  have hkr : k ∈ rest := by
    rw [content_eq, hl, hc] at hk
    cases isClosed
    · exact hk
    · exact (List.dropLast_sublist _).subset hk
  exact ((List.pairwise_cons.1 hdc).1 k hkr).symm

/-- The content that is left corresponds to the content that was there and is not gone. -/
theorem Revised.content (h : Revised es n n') (hd : n.ids.Nodup) :
    List.Forall₂ (Revised es) (n.content.filter (!n.isGone es ·)) n'.content := by
  obtain ⟨spans, -, hl⟩ := h.label_eq
  have hk := h.children
  cases hn : n.label with
  | fragment removed =>
    rw [relabelled_eq (fun _ => by rw [hn]; rfl), hn, noteAll_fragment] at hl
    rw [content_eq n, content_eq n', hl, hn]
    exact hk
  | element isClosed removed =>
    rw [relabelled_eq (fun _ => by rw [hn]; rfl), hn, noteAll_element] at hl
    have hcontent := content_eq n
    rw [hn] at hcontent
    have hhead : ∀ c ∈ n.children.head?, !n.isGone es c := by
      intro c hc
      obtain ⟨rest, hs⟩ := List.head?_eq_some_iff.1 hc
      rw [isGone_opening hd hn hs]
      rfl
    have htail : List.Forall₂ (Revised es) (n.children.tail.filter (!n.isGone es ·))
        n'.children.tail := by
      rw [← filter_tail hhead, ← List.drop_one, ← List.drop_one]
      exact List.forall₂_drop 1 hk
    rw [content_eq n', hl]
    cases isClosed with
    | false =>
      rw [hcontent]
      exact htail
    | true =>
      have hlast : ∀ c ∈ n.children.tail.getLast?, !n.isGone es c := by
        intro c hc
        rw [isGone_of_not_mem]
        · rfl
        · intro k hk
          rw [hcontent] at hk
          have hs := List.dropLast_append_getLast? c hc
          have hdt : n.children.tail.Pairwise fun b c => b.id ≠ c.id :=
            (List.pairwise_map.1 (nodup_children hd)).sublist (List.tail_sublist _)
          rw [← hs] at hdt
          exact (List.pairwise_append.1 hdt).2.2 k hk c List.mem_cons_self
      rw [hcontent]
      show List.Forall₂ _ _ n'.children.tail.dropLast
      rw [← filter_dropLast hlast, List.dropLast_eq_take, List.dropLast_eq_take, htail.length_eq]
      exact List.forall₂_take _ htail
  | _ =>
    have hform : n'.label.isMarkup = false := by
      rw [hl, noteAll_of_not_isMarkup] <;>
        · rw [relabelled, hn]
          split <;> rfl
    have hnil : n.content = [] ∧ n'.content = [] := by
      rw [content_eq n, content_eq n', hn]
      refine ⟨rfl, ?_⟩
      cases hl' : n'.label <;> rw [hl'] at hform <;> first | rfl | cases hform
    rw [hnil.1, hnil.2]
    exact .nil

/-! ### One more edit -/

theorem lastName?_concat (h : e.owner ≠ n.id) : lastName? (es ++ [e]) n.id = lastName? es n.id := by
  have hname : e.name? n.id = none := by
    cases e with
    | rename id name => exact if_neg h
    | remove parent child => rfl
  rw [lastName?, lastName?, List.filterMap_append, List.filterMap_cons, hname, List.filterMap_nil,
    List.append_nil]

theorem isGone_concat_of_ne (h : ∀ child, e ≠ .remove n.id child) :
    n.isGone (es ++ [e]) c = n.isGone es c := by
  have he : (e == .remove n.id c.id) = false := beq_eq_false_iff_ne.2 (h c.id)
  rw [isGone, isGone, List.contains_eq_mem, List.contains_eq_mem]
  simp [Ne.symm (h c.id)]

/-- Edits elsewhere say nothing about a node. -/
theorem Revised.concat_kids {kids : List Node} (h : Revised es n n') (hne : e.owner ≠ n.id)
    (hk : List.Forall₂ (Revised (es ++ [e])) (n.children.filter (!n.isGone es ·)) kids) :
    Revised (es ++ [e]) n { n' with children := kids } := by
  have hgone : n.isGone (es ++ [e]) = n.isGone es := by
    funext c
    refine isGone_concat_of_ne fun child he => hne ?_
    rw [he]
    rfl
  have hlabel : n.relabelled (es ++ [e]) = n.relabelled es := by
    rw [relabelled, relabelled, lastName?_concat hne]
  cases h with
  | mk hs _ =>
    rw [← hlabel]
    rw [← hgone] at hs hk
    exact .mk hs hk

theorem Revised.forall₂ {l l' : List Node} {R : Node → Node → Prop}
    (h : List.Forall₂ (Revised es) l l') (hR : ∀ m ∈ l, ∀ m', Revised es m m' → R m m') :
    List.Forall₂ R l l' := by
  induction h with
  | nil => exact .nil
  | cons hm _ ih =>
    obtain ⟨h1, h2⟩ := List.forall_mem_cons.1 hR
    exact .cons (h1 _ hm) (ih h2)

/-- An edit of a node that is not there leaves a tree as it was. -/
theorem Revised.concat_of_not_mem (h : Revised es n n') (he : e.owner ∉ n.ids) :
    Revised (es ++ [e]) n n' := by
  induction n using Node.induct generalizing n' with
  | step n ih =>
    rw [ids_eq, List.mem_cons, not_or] at he
    have hkids := Revised.forall₂ h.children fun m hm m' hm' =>
      ih m (List.mem_of_mem_filter hm) hm' fun hi =>
        he.2 (List.mem_flatMap.2 ⟨m, List.mem_of_mem_filter hm, hi⟩)
    have hr := h.concat_kids he.1 hkids
    cases n'
    exact hr

/-- A name that is given to a node is its last. -/
theorem Revised.rename (h : Revised es n n') (hd : n.ids.Nodup) (name : String) :
    Revised (es ++ [.rename n.id name]) n { n' with label := n'.label.rename name } := by
  have hgone : n.isGone (es ++ [.rename n.id name]) = n.isGone es :=
    funext fun c => isGone_concat_of_ne fun child he => by cases he
  have hlabel : (n.relabelled es).rename name = n.relabelled (es ++ [.rename n.id name]) := by
    have hlast : lastName? (es ++ [.rename n.id name]) n.id = some name := by
      simp [lastName?, Edit.name?]
    rw [relabelled, relabelled, hlast]
    split
    · cases n.label <;> rfl
    · rfl
  have hkids := Revised.forall₂ h.children fun m hm m' hm' =>
    hm'.concat_of_not_mem (e := .rename n.id name)
      (id_not_mem_child hd (List.mem_of_mem_filter hm))
  cases h with
  | mk hs _ =>
    show Revised _ n ⟨n.id, n.parent, n.place, (noteAll _ _).rename name, _⟩
    rw [noteAll_rename, hlabel]
    rw [← hgone] at hs hkids
    exact .mk hs hkids

theorem isGone_concat (child : NodeId) : n.isGone (es ++ [.remove n.id child]) c =
    (n.isGone es c || (n.content.any (·.id == c.id) && c.id == child)) := by
  have he : (Edit.remove n.id c.id == Edit.remove n.id child) = (c.id == child) := by
    rw [Bool.eq_iff_iff, beq_iff_eq, beq_iff_eq]
    simp
  rw [isGone, isGone, ← Bool.and_or_distrib_left, List.contains_append, List.contains_cons,
    List.contains_nil, Bool.or_false, he]

theorem noteAll_concat (span : Option Span) : noteAll (spans ++ span.toList) label =
    match span with
    | some span => Document.noteRemoved span (noteAll spans label)
    | none => noteAll spans label := by
  cases span with
  | none => rw [Option.toList_none, List.append_nil]
  | some span => rw [Option.toList_some, noteAll, List.foldl_append]; rfl

/-- The children that are gone when one more is. -/
theorem filter_or_perm {p : Node → Bool} (hd : n.ids.Nodup) (hc : c ∈ n.children) (hp : p c = false) :
    (n.children.filter fun b => p b || b.id == c.id).Perm (n.children.filter p ++ [c]) := by
  obtain ⟨before, after, hs, hrest⟩ := filter_children hd hc
  have hother : ∀ b ∈ before ++ after, (p b || b.id == c.id) = p b := by
    intro b hb
    rw [← hrest] at hb
    rw [beq_eq_false_iff_ne.2 (bne_iff_ne.1 (List.mem_filter.1 hb).2), Bool.or_false]
  have hbefore := List.filter_congr fun b hb => hother b (List.mem_append_left after hb)
  have hafter := List.filter_congr fun b hb => hother b (List.mem_append_right before hb)
  rw [hs, List.filter_append, List.filter_append, List.filter_cons_of_pos (by simp),
    List.filter_cons_of_neg (by simp [hp]), hbefore, hafter]
  exact List.perm_middle.trans (List.perm_append_singleton _ _).symm

/-- A child that is no content, or was taken out before, cannot be taken out. -/
theorem isGone_concat_absent {child : NodeId} (h : Revised es n n') (hd : n.ids.Nodup)
    (hf : ∀ k ∈ n'.content, k.id ≠ child) :
    n.isGone (es ++ [.remove n.id child]) = n.isGone es := by
  funext c
  rw [isGone_concat]
  by_cases hc : c.id = child
  · cases hg : n.isGone es c with
    | true => rfl
    | false =>
      have hany : n.content.any (·.id == c.id) = false := by
        refine List.any_eq_false.2 fun k hk hkid => ?_
        rw [beq_iff_eq] at hkid
        have hkept : k ∈ n.content.filter (!n.isGone es ·) := by
          refine List.mem_filter.2 ⟨hk, ?_⟩
          rw [isGone, hkid, ← isGone, hg]
          rfl
        obtain ⟨k', hk', hr⟩ := exists_of_forall₂ (h.content hd).flip hkept
        exact hf k' hk' (hr.id_eq.trans (hkid.trans hc))
      rw [hany]
      rfl
  · rw [beq_eq_false_iff_ne.2 hc, Bool.and_false, Bool.or_false]

theorem isGone_concat_content (hc : c ∈ n.content) : n.isGone (es ++ [.remove n.id c.id]) =
    fun b => n.isGone es b || b.id == c.id := by
  funext b
  rw [isGone_concat]
  by_cases hb : b.id = c.id
  · have hany : n.content.any (·.id == b.id) :=
      List.any_eq_true.2 ⟨c, hc, beq_iff_eq.2 hb.symm⟩
    rw [hany, Bool.true_and]
  · rw [beq_eq_false_iff_ne.2 hb, Bool.and_false]

/-- A child that is taken out of a node is gone. -/
theorem Revised.remove (h : Revised es n n') (hd : n.ids.Nodup) (child : NodeId) :
    Revised (es ++ [.remove n.id child]) n ((Edit.remove n.id child).change n') := by
  have hlabel : n.relabelled (es ++ [.remove n.id child]) = n.relabelled es := by
    have hlast : lastName? (es ++ [.remove n.id child]) n.id = lastName? es n.id := by
      simp [lastName?, Edit.name?]
    rw [relabelled, relabelled, hlast]
  have hkids := Revised.forall₂ h.children fun m hm m' hm' =>
    hm'.concat_of_not_mem (e := .remove n.id child)
      (id_not_mem_child hd (List.mem_of_mem_filter hm))
  rw [Edit.change]
  cases hf : n'.content.find? (·.id == child) with
  | none =>
    have hgone := isGone_concat_absent h hd fun k hk => by simpa using List.find?_eq_none.1 hf k hk
    cases h with
    | mk hs _ =>
      rw [← hlabel]
      rw [← hgone] at hs hkids
      exact .mk hs hkids
  | some taken =>
    have hid : taken.id = child := by simpa using List.find?_some hf
    obtain ⟨b, hb, hr⟩ := exists_of_forall₂ (h.content hd) (List.mem_of_find?_eq_some hf)
    obtain ⟨hbc, hkept⟩ := List.mem_filter.1 hb
    obtain rfl : b.id = child := hr.id_eq.symm.trans hid
    have hgone : n.isGone (es ++ [.remove n.id b.id]) = _ := isGone_concat_content hbc
    have hsame : n.children.filter (!n.isGone (es ++ [.remove n.id b.id]) ·) =
        (n.children.filter (!n.isGone es ·)).filter (·.id != taken.id) := by
      rw [hgone, List.filter_filter, hid]
      exact List.filter_congr fun c _ => by rw [Bool.not_or, Bool.and_comm]; rfl
    have hkids' : List.Forall₂ (Revised (es ++ [.remove n.id b.id]))
        (n.children.filter (!n.isGone (es ++ [.remove n.id b.id]) ·))
        (n'.children.filter (·.id != taken.id)) := by
      rw [hsame]
      refine List.rel_filter (fun m m' hm => ?_) hkids
      show (m.id != taken.id) = true ↔ (m'.id != taken.id) = true
      rw [hm.id_eq]
    have hperm := (filter_or_perm hd (content_subset b hbc) (by simpa using hkept)).filterMap
      (·.place.span)
    rw [← hgone, List.filterMap_append] at hperm
    cases h with
    | @mk _ spans kids hs _ =>
      have hspan : taken.place.span.toList.Perm ([b].filterMap (·.place.span)) := by
        rw [hr.place_eq, List.filterMap_cons]
        cases b.place.span <;> exact .refl _
      have hmk := Revised.mk ((hs.append hspan).trans hperm.symm) hkids'
      rw [noteAll_concat, hlabel] at hmk
      exact hmk

/-- What is left of a tree after one more edit. -/
theorem Revised.step (h : Revised es n n') (hd : n.ids.Nodup) (e : Edit) :
    Revised (es ++ [e]) n (n'.modify e.owner e.change) := by
  induction n using Node.induct generalizing n' with
  | step n ih =>
    by_cases hid : n.id = e.owner
    · rw [modify_eq, if_pos (h.id_eq.trans hid)]
      cases e with
      | rename id name =>
        cases hid
        exact h.rename hd name
      | remove parent child =>
        cases hid
        exact h.remove hd child
    · rw [modify_eq, if_neg (h.id_eq ▸ hid)]
      refine h.concat_kids (Ne.symm hid) (List.forall₂_map_right_iff.2 ?_)
      refine Revised.forall₂ h.children fun m hm m' hm' => ?_
      have hmc := List.mem_of_mem_filter hm
      exact ih m hmc hm' (nodup_of_child hd hmc)

end Revised

/-! ### What is printed -/

namespace Reading

section

variable {path text : String} {es : List Edit} {n n' : Node} {p : Part} {c : Concrete}

theorem spelled_print {m : Node} {source : Bytes} {t : String} (hm : m.isMade = false)
    (ht : m.label.spelling? = some t) : m.print source = .ok (Utf8.encode t) := by
  rw [Node.print_eq, Printer.assemble]
  cases hl : m.label <;> rw [hl] at ht <;> cases ht
  · rw [hm]
  · rfl

theorem label_of_spelled {t : String} (h : Revised es n n') (hl : n.label.spelling? = some t) :
    n'.label = n.relabelled es := by
  obtain ⟨spans, -, hl'⟩ := h.label_eq
  rw [hl', noteAll_of_not_isMarkup]
  rw [relabelled]
  cases hln : n.label <;> rw [hln] at hl <;> first
    | (cases lastName? es n.id <;> rfl)
    | cases hl

/-- A name that is given another one prints as that, whatever was written in its place. -/
theorem renamed_printsAs {span : Span} {source : Bytes} {t name : String} (h : Revised es n n')
    (hsp : n.place.span = some span) (hle : span.start ≤ span.stop)
    (hl : n.label.spelling? = some t) (hname : lastName? es n.id = some name) :
    PrintsAs source (patches es) n n' := by
  have hspan : n.span = span := by rw [Node.span, hsp]; rfl
  have hplace : n'.place.span = some n.span := by rw [h.place_eq, hsp, hspan]
  have hlabel : n'.label = n.label.rename name := by
    rw [label_of_spelled h hl, relabelled, hname]
  obtain ⟨t', ht⟩ : ∃ t', (n.label.rename name).spelling? = some t' := by
    cases hln : n.label <;> rw [hln] at hl <;> first
      | exact ⟨_, rfl⟩
      | cases hl
  have hpatches : n.patches es = [⟨n.span, Utf8.encode t'⟩] := by
    rw [patches_eq, newText?, hname]
    show (match (n.label.rename name).spelling? with | some t => _ | none => _) = _
    rw [ht]
  refine ⟨hplace, ?_, ?_⟩
  · rw [hpatches]
    exact ⟨le_rfl, hspan ▸ hle, le_rfl⟩
  · rw [hpatches, spelled_print (by rw [Node.isMade, hplace]; rfl) (hlabel ▸ ht)]
    simp [patched, slice]

/-- Names without children stand alone in their place: they print as the text that they are given,
or as they were read. -/
theorem spelled_printsAs (h : Revised es n n') (hsp : n.place.span = some p.span)
    (hw : p.span.Whole text) (hc : n.children = [])
    (hl : n.label.spelling? = some ((Source.ofString path text).text p.span)) :
    PrintsAs (Utf8.encode text) (patches es) n n' := by
  cases hname : lastName? es n.id with
  | some name => exact renamed_printsAs h hsp hw.2.2 hl hname
  | none =>
    have hspan : n.span = p.span := by rw [Node.span, hsp]; rfl
    have hplace : n'.place.span = some n.span := by rw [h.place_eq, hsp, hspan]
    have hlabel : n'.label = n.label := by rw [label_of_spelled h hl, relabelled, hname]
    have hpatches : n.patches es = [] := by
      rw [patches_eq, newText?, hname, hc]
      rfl
    refine ⟨hplace, ?_, ?_⟩
    · rw [hpatches]
      exact hspan ▸ hw.2.2
    · rw [hpatches, spelled_print (by rw [Node.isMade, hplace]; rfl) (hlabel ▸ hl),
        hw.encode_text path, hspan]
      rfl

/-! ### Nodes with their children -/

theorem rename_of_spelling? {label : Label} (h : label.spelling? = none) (name : String) :
    label.rename name = label := by
  cases label <;> first | rfl | cases h

theorem label_of_spelling? (h : Revised es n n') (hl : n.label.spelling? = none) :
    ∃ spans : List Span, spans.Perm ((n.children.filter (n.isGone es)).filterMap (·.place.span)) ∧
      n'.label = noteAll spans n.label := by
  obtain ⟨spans, hs, hl'⟩ := h.label_eq
  exact ⟨spans, hs, by rw [hl', relabelled_eq (rename_of_spelling? hl)]⟩

theorem patches_of_spelling? (hl : n.label.spelling? = none) :
    n.patches es = patchesOf (n.isGone es) (patches es) n.children := by
  have hnone : n.newText? es = none := by
    rw [newText?, Option.bind_eq_none_iff]
    intro name _
    rw [rename_of_spelling? hl, hl]
  rw [patches_eq, hnone]

/-- Markup has noted the spans of the children that are gone; other nodes have lost none. -/
theorem removed_perm (h : Revised es n n') (hl : n.label.spelling? = none)
    (hr : n.label.removed = []) (hsp : ∀ m ∈ n.children, m.place.span = some m.span) :
    n'.label.removed.Perm ((n.children.filter (n.isGone es)).map Node.span) := by
  obtain ⟨spans, hs, hl'⟩ := label_of_spelling? h hl
  have hmap : (n.children.filter (n.isGone es)).filterMap (·.place.span) =
      (n.children.filter (n.isGone es)).map Node.span := by
    rw [← List.filterMap_eq_map]
    exact List.filterMap_congr fun m hm => hsp m (List.mem_of_mem_filter hm)
  rw [hmap] at hs
  by_cases hm : n.label.isMarkup = true
  · cases hln : n.label <;> rw [hln] at hm hr hl' <;> first
      | (cases hr; rw [hl', noteAll_element]; exact hs)
      | (cases hr; rw [hl', noteAll_fragment]; exact hs)
      | cases hm
  · have hnil : n.children.filter (n.isGone es) = [] := by
      refine List.filter_eq_nil_iff.2 fun m _ => ?_
      rw [isGone_of_not_isMarkup (by simpa using hm)]
      exact Bool.false_ne_true
    rw [hl', noteAll_of_not_isMarkup (by simpa using hm), hr, hnil]
    exact .refl _

/-- Whether the children of a node print, as edits left them, as their spans under patches. -/
def KidsPrint (source : Bytes) (es : List Edit) (n : Node) : Prop :=
  ∀ m ∈ n.children, m.place.span = some m.span ∧
    ∀ m', Revised es m m' → PrintsAs source (patches es) m m'

theorem KidsPrint.forall₂ {source : Bytes} (hk : KidsPrint source es n) (h : Revised es n n') :
    List.Forall₂ (PrintsAs source (patches es)) (n.children.filter (!n.isGone es ·)) n'.children :=
  Revised.forall₂ h.children fun m hm => (hk m (List.mem_of_mem_filter hm)).2

theorem splice_printsAs {span : Span} {source : Bytes} (h : Revised es n n')
    (hsp : n.place.span = some span) (hl : n.label.spelling? = none) (hr : n.label.removed = [])
    (hrow : Row span.start span.stop (n.children.map Node.span)) (hk : KidsPrint source es n)
    (hprint : n'.print source =
      Printer.splice source n' (n'.children.map fun c => (c, c.print source))) :
    PrintsAs source (patches es) n n' := by
  have hspan : n.span = span := by rw [Node.span, hsp]; rfl
  have hkids := hk.forall₂ h
  have hsp' : n'.place.span = some span := by rw [h.place_eq, hsp]
  refine ⟨hspan ▸ hsp', ?_, ?_⟩
  · rw [patches_of_spelling? hl, hspan]
    exact patchesOf_row hrow hkids
  · rw [patches_of_spelling? hl, hspan, hprint]
    exact splice_patched hsp' (removed_perm h hl hr fun m hm => (hk m hm).1) hrow hkids

theorem spliced_printsAs {span : Span} {source : Bytes} (h : Revised es n n')
    (hsp : n.place.span = some span) (hl : n.label.isSpliced) (hr : n.label.removed = [])
    (hrow : Row span.start span.stop (n.children.map Node.span)) (hk : KidsPrint source es n) :
    PrintsAs source (patches es) n n' := by
  have hnone : n.label.spelling? = none := by
    cases hln : n.label <;> rw [hln] at hl <;> first | rfl | cases hl
  refine splice_printsAs h hsp hnone hr hrow hk ?_
  obtain ⟨spans, -, hl'⟩ := label_of_spelling? h hnone
  have hspliced : n'.label.isSpliced := by
    rw [hl']
    by_cases hm : n.label.isMarkup = true
    · cases hln : n.label <;> rw [hln] at hm hl <;> first
        | exact absurd hm Bool.false_ne_true
        | exact absurd hl Bool.false_ne_true
        | (rw [noteAll_fragment]; rfl)
    · rw [noteAll_of_not_isMarkup (by simpa using hm)]
      exact hl
  rw [Node.print_eq, assemble_eq_splice hspliced (by rw [Node.isMade, h.place_eq, hsp]; rfl)]
  intro m hm
  obtain ⟨l, -, hlm⟩ := exists_of_forall₂ (hk.forall₂ h) hm
  exact hlm.isMade_eq_false

/-- A leaf that is no name prints as it was read. -/
theorem leaf_printsAs {span : Span} {source : Bytes} (h : Revised es n n')
    (hsp : n.place.span = some span) (hc : n.children = []) (hle : span.start ≤ span.stop)
    (hl : (∃ value quote, n.label = .stringLiteral value quote) ∨ ∃ t, n.label = .markupText t) :
    PrintsAs source (patches es) n n' := by
  have hspan : n.span = span := by rw [Node.span, hsp]; rfl
  have hnone : n.label.spelling? = none := by
    rcases hl with ⟨value, quote, hl⟩ | ⟨t, hl⟩ <;> rw [hl] <;> rfl
  have hlabel : n'.label = n.label := by
    obtain ⟨spans, -, hl'⟩ := label_of_spelling? h hnone
    rw [hl', noteAll_of_not_isMarkup]
    rcases hl with ⟨value, quote, hl⟩ | ⟨t, hl⟩ <;> rw [hl] <;> rfl
  have hpatches : n.patches es = [] := by
    rw [patches_of_spelling? hnone, hc]
    rfl
  have hm : n'.isMade = false := by rw [Node.isMade, h.place_eq, hsp]; rfl
  refine ⟨by rw [h.place_eq, hsp, hspan], ?_, ?_⟩
  · rw [hpatches, hspan]
    exact hle
  · rw [hpatches, hspan, Node.print_eq, Printer.assemble, hlabel]
    rcases hl with ⟨value, quote, hl⟩ | ⟨t, hl⟩ <;> rw [hl] <;>
      simp [Printer.leaf, Printer.bytesRead, hm, h.place_eq, hsp, patched]

/-! ### What was read -/

/-- The nodes that fill sound parts stand in a row. -/
theorem row_of_readAs {s : Source} {span : Span} {parts : List Part} {kids : List Node}
    (hf : Fits text span parts) (hr : List.Forall₂ (ReadAs s) parts kids) :
    Row span.start span.stop (kids.map Node.span) ∧
      ∀ m ∈ kids, m.place.span = some m.span := by
  refine ⟨spans_of_readAs hr hf.sound ▸ hf.row, fun m hm => ?_⟩
  obtain ⟨q, hq, hqm⟩ := exists_of_forall₂ hr hm
  rw [span_of_readAs hqm (hf.sound q hq), hqm.place_eq, (hf.sound q hq).place]

/-- An element keeps its opening tag, which closes itself when it did. -/
theorem opening_revised {isClosed selfClosing : Bool} {opening : Node} {rest : List Node}
    (h : Revised es n n') (hd : n.ids.Nodup) (hl : n.label = .element isClosed [])
    (hc : n.children = opening :: rest) (ho : opening.label = .openingTag selfClosing) :
    ∃ opening' rest', n'.children = opening' :: rest' ∧ Revised es opening opening' ∧
      n'.label = .element isClosed n'.label.removed ∧ n'.isSelfClosing = selfClosing := by
  obtain ⟨spans, -, hl'⟩ := label_of_spelling? h (by rw [hl]; rfl)
  rw [hl, noteAll_element] at hl'
  have hk := h.children
  rw [hc, List.filter_cons_of_pos (by rw [isGone_opening hd hl hc]; rfl)] at hk
  obtain ⟨opening', rest', hopening, -, hc'⟩ := List.forall₂_cons_left_iff.1 hk
  obtain ⟨spans', -, ho'⟩ := label_of_spelling? hopening (by rw [ho]; rfl)
  rw [ho, noteAll_of_not_isMarkup rfl] at ho'
  exact ⟨opening', rest', hc', hopening, by rw [hl']; rfl, isSelfClosing_element hl' hc' ho'⟩

/-- An element with an opening tag of its own splices its parts. -/
theorem element_printsAs {span : Span} {source : Bytes} {isClosed : Bool} {opening : Node}
    {rest : List Node} (h : Revised es n n') (hd : n.ids.Nodup) (hsp : n.place.span = some span)
    (hl : n.label = .element isClosed []) (hc : n.children = opening :: rest)
    (ho : opening.label = .openingTag false)
    (hrow : Row span.start span.stop (n.children.map Node.span)) (hk : KidsPrint source es n) :
    PrintsAs source (patches es) n n' := by
  obtain ⟨opening', rest', hc', -, hlabel, hself⟩ := opening_revised h hd hl hc ho
  have hnone : n.label.spelling? = none := by rw [hl]; rfl
  refine splice_printsAs h hsp hnone (by rw [hl]; rfl) hrow hk ?_
  rw [Node.print_eq, Printer.assemble, hlabel]
  dsimp only
  rw [Printer.element, hself]
  rfl

/-- An element that closes itself is its opening tag. -/
theorem selfClosing_printsAs {span : Span} {source : Bytes} {opening : Node}
    (h : Revised es n n') (hd : n.ids.Nodup) (hsp : n.place.span = some span)
    (hl : n.label = .element false []) (hc : n.children = [opening])
    (ho : opening.label = .openingTag true) (hosp : opening.place.span = some span)
    (hk : KidsPrint source es n) : PrintsAs source (patches es) n n' := by
  obtain ⟨opening', rest', hc', hopening, hlabel, hself⟩ := opening_revised h hd hl hc ho
  have hnone : n.label.spelling? = none := by rw [hl]; rfl
  have hspan : n.span = opening.span := by rw [Node.span, Node.span, hsp, hosp]
  have hpatches : n.patches es = opening.patches es := by
    rw [patches_of_spelling? hnone, hc, patchesOf, List.flatMap_singleton, isGone_opening hd hl hc]
    rfl
  obtain ⟨hplace, hrow, hprint⟩ := (hk opening (hc ▸ List.mem_cons_self)).2 opening' hopening
  refine ⟨by rw [h.place_eq, hsp, Node.span, hsp]; rfl, ?_, ?_⟩
  · rw [hpatches, hspan]
    exact hrow
  · rw [hpatches, hspan, ← hprint, Node.print_eq, Printer.assemble, hlabel, hc']
    dsimp only
    rw [Printer.element, hself]
    rfl

/-- The step of the induction for nodes that are read by their kind. -/
theorem node_printsAs (hc : c.Readable text) (h : Revised es n n') (hd : n.ids.Nodup)
    (hsp : n.place.span = some c.span)
    (hl : n.label = (nodeOutline (.ofString path text) c).1)
    (hr : List.Forall₂ (ReadAs (.ofString path text)) (nodeOutline (.ofString path text) c).2
      n.children)
    (hx : n.ExactBut (.ofString path text) es) (hk : KidsPrint (Utf8.encode text) es n) :
    PrintsAs (Utf8.encode text) (patches es) n n' := by
  have hw := hc.shape.whole
  have hspelled : n.children = [] → n.label.spelling? =
      some ((Source.ofString path text).text c.span) →
      PrintsAs (Utf8.encode text) (patches es) n n' := fun hnil hl' =>
    spelled_printsAs (p := .node c) h hsp hw hnil hl'
  have hrow := (row_of_readAs (nodeOutline_fits (s := .ofString path text) hc) hr).1
  have hform := nodeOutline_form (.ofString path text) c
  have hm : n.isMade = false := by rw [Node.isMade, hsp]; rfl
  generalize nodeOutline (.ofString path text) c = o at hl hr hform
  cases hform with
  | spliced hs hrm => exact spliced_printsAs h hsp (hl ▸ hs) (hl ▸ hrm) hrow hk
  | name hs =>
    refine hspelled (List.forall₂_nil_left_iff.1 hr) ?_
    rw [hl]
    exact congrArg some (identifierText_self _ _ _)
  | exported hb =>
    cases hname : lastName? es n.id with
    | some name => exact renamed_printsAs h hsp hw.2.2 (by rw [hl]; rfl) hname
    | none =>
      refine hspelled (List.forall₂_nil_left_iff.1 hr) ?_
      have hn := hx n n.self_mem_walk (by rw [hl]; rfl) hname
      rw [hsp, Node.text, hl] at hn
      rw [hl]
      exact congrArg some ((identifierText_self _ _ _).trans hn.symm)
  | string value quote =>
    exact leaf_printsAs h hsp (List.forall₂_nil_left_iff.1 hr) hw.2.2 (.inl ⟨value, quote, hl⟩)
  | text t =>
    exact leaf_printsAs h hsp (List.forall₂_nil_left_iff.1 hr) hw.2.2 (.inr ⟨t, hl⟩)
  | element isClosed tag parts =>
    obtain ⟨opening, rest, ho, -, hcs⟩ := List.forall₂_cons_left_iff.1 hr
    exact element_printsAs h hd hsp hl hcs ho.label_eq hrow hk
  | selfClosing _ =>
    obtain ⟨opening, rest, ho, hrest, hcs⟩ := List.forall₂_cons_left_iff.1 hr
    cases hrest
    exact selfClosing_printsAs h hd hsp hl hcs ho.label_eq (by rw [ho.place_eq]; rfl) hk

/-- The step of the induction for opening tags. -/
theorem opening_printsAs {selfClosing : Bool} (hp : (Part.opening selfClosing c).Sound text)
    (h : Revised es n n') (hsp : n.place.span = some c.span) (hl : n.label = .openingTag selfClosing)
    (hr : List.Forall₂ (ReadAs (.ofString path text))
      ((Part.opening selfClosing c).outline (.ofString path text)).2 n.children)
    (hrow : Row (Part.opening selfClosing c).inside.start (Part.opening selfClosing c).inside.stop
      (n.children.map Node.span))
    (hk : KidsPrint (Utf8.encode text) es n) : PrintsAs (Utf8.encode text) (patches es) n n' := by
  obtain ⟨hc, hname, hkind⟩ := hp
  have hw := hc.shape.whole
  have hnone : n.label.spelling? = none := by rw [hl]; rfl
  have hspan : n.span = c.span := by rw [Node.span, hsp]; rfl
  have hgone : n.isGone es = fun _ => false := funext fun m => isGone_of_not_isMarkup (by rw [hl]; rfl)
  have hkids : List.Forall₂ (PrintsAs (Utf8.encode text) (patches es)) n.children n'.children := by
    have hkept := hk.forall₂ h
    rw [hgone] at hkept
    simpa using hkept
  have hpatches : n.patches es = n.children.flatMap (patches es) := by
    rw [patches_of_spelling? hnone, patchesOf, hgone]
    rfl
  have hne : n.children ≠ [] := by
    intro hnil
    rw [hnil] at hr
    have hparts := List.forall₂_nil_right_iff.1 hr
    rw [Part.outline, List.append_eq_nil_iff, List.map_eq_nil_iff,
      Option.toList_eq_nil_iff] at hparts
    rw [hparts.1] at hname
    cases hname
  have hlabel : n'.label = .openingTag selfClosing := by
    obtain ⟨spans, -, hl'⟩ := label_of_spelling? h hnone
    rw [hl', hl, noteAll_of_not_isMarkup rfl]
  have hstart : (Part.opening selfClosing c).inside.start = c.span.start := by
    cases selfClosing <;> rfl
  have hstop : (Part.opening selfClosing c).inside.stop ≤ c.span.stop := by
    cases selfClosing
    · exact le_rfl
    · exact Nat.sub_le _ 2
  have hsp' : n'.place.span = some c.span := by rw [h.place_eq, hsp]
  rw [hstart] at hrow
  refine ⟨by rw [hsp', hspan], ?_, ?_⟩
  · have hrow' : PatchRow _ _ (patchesOf (fun _ => false) _ _) :=
      patchesOf_row hrow (by simpa using hkids)
    rw [hpatches, hspan]
    exact Row.mono hrow' le_rfl hstop
  · rw [hpatches, hspan, Node.print_eq, Printer.assemble, hlabel]
    refine openingTag_patched hne hsp' hkids hrow hstop fun hsc => ?_
    subst hsc
    exact (hc.shape.selfClosing hkind).2.2 ▸ List.suffix_rfl

/-- What edits leave of a tree that was read prints as its span under the patches of the edits. -/
theorem revised_printsAs (h : ReadAs (.ofString path text) p n) (hp : p.Sound text)
    (hd : n.ids.Nodup) (hx : n.ExactBut (.ofString path text) es) (hr : Revised es n n') :
    PrintsAs (Utf8.encode text) (patches es) n n' := by
  refine h.induct (P := fun p n => p.Sound text → n.ids.Nodup →
    n.ExactBut (.ofString path text) es → ∀ n', Revised es n n' →
      PrintsAs (Utf8.encode text) (patches es) n n') ?_ hp hd hx n' hr
  intro p id parent kids _ hkids hp hd hx n' h
  generalize hn : (⟨id, parent, p.place (.ofString path text), (p.outline (.ofString path text)).1,
    kids⟩ : Node) = n at hd hx h
  have hf : Fits text p.inside (p.outline (.ofString path text)).2 := hp.fits
  have hread : List.Forall₂ (ReadAs (.ofString path text)) (p.outline (.ofString path text)).2
    n.children := hn ▸ hkids.imp fun q m h => h.1
  obtain ⟨hrow, hspans⟩ := row_of_readAs hf hread
  have hk : KidsPrint (Utf8.encode text) es n := by
    intro m hm
    have hmk : m ∈ kids := by
      rw [← hn] at hm
      exact hm
    obtain ⟨q, hq, -, hqm⟩ := exists_of_forall₂ hkids hmk
    exact ⟨hspans m hm, hqm (hf.sound q hq) (nodup_of_child hd hm) fun l hl =>
      hx l (mem_walk_of_child hm hl)⟩
  have hsp : n.place.span = some p.span := hn ▸ hp.place _
  have hl : n.label = (p.outline (.ofString path text)).1 := by rw [← hn]
  clear hn hkids
  cases p with
  | node c => exact node_printsAs hp h hd hsp hl hread hx hk
  | name c | markupName c =>
    exact spelled_printsAs h hsp hp.shape.whole (List.forall₂_nil_left_iff.1 hread) (by rw [hl]; rfl)
  | className named c =>
    obtain ⟨hnamed, hc, -⟩ := hp
    by_cases hk' : isNamed c = true
    · rw [Part.outline, if_pos hk'] at hl hread
      rw [Part.span, Part.concrete?, if_pos hk'] at hsp
      exact node_printsAs hc h hd hsp hl hread hx hk
    · rw [Part.outline, if_neg hk'] at hl hread
      rw [Part.span, Part.concrete?, if_neg hk'] at hsp
      exact spelled_printsAs (p := .node named) h hsp hnamed.shape.whole
        (List.forall₂_nil_left_iff.1 hread) (by rw [hl]; rfl)
  | parameters c =>
    have hsplice : n.label.isSpliced ∧ n.label.removed = [] := by
      rw [hl, Part.outline]
      split_ifs <;> exact ⟨rfl, rfl⟩
    exact spliced_printsAs h hsp hsplice.1 hsplice.2 hrow hk
  | noParameters => exact hp.elim
  | opening selfClosing c => exact opening_printsAs hp h hsp hl hread hrow hk
  | closing c | spread c inner | nothing c =>
    exact spliced_printsAs h hsp (by rw [hl]; rfl) (by rw [hl]; rfl) hrow hk

end

end Reading

/-! ### Documents -/

section Documents

variable {grammar : Grammar} {path text : String} {d : Document} {es : List Edit}

/-- An edit of a document is an edit of its tree. -/
theorem apply_root (h : d.root.ids.Nodup) (e : Edit) :
    (d.apply e).root = d.root.modify e.owner e.change ∧ (d.apply e).source = d.source := by
  cases e with
  | rename id name => exact ⟨rfl, rfl⟩
  | remove parent child =>
    show ((d.removeChild? parent child).getD d).root = d.root.modify parent _ ∧
      ((d.removeChild? parent child).getD d).source = d.source
    rw [Document.removeChild?]
    cases hn : d.node? parent with
    | none =>
      have hnot : parent ∉ d.root.ids := by
        rw [Document.node?, List.findSome?_eq_none_iff] at hn
        exact find?_eq_none_iff.1 (hn d.root List.mem_cons_self)
      exact ⟨(modify_of_not_mem hnot).symm, rfl⟩
    | some owner =>
      -- a node that was taken out has the name of none in the tree
      have howner : ∀ m ∈ d.root.walk, m.id = parent → m = owner := by
        intro m hm hid
        have hfind := (find?_eq_some_iff h).2 ⟨hm, hid⟩
        rw [Document.node?, List.findSome?_cons, hfind] at hn
        exact Option.some.inj hn
      cases hf : owner.content.find? (·.id == child) with
      | none =>
        simp only [Option.bind_eq_bind, Option.bind_some, hf, Option.bind_none, Option.getD_none]
        refine ⟨(modify_eq_self fun m hm hid => ?_).symm, trivial⟩
        rw [howner m hm hid, Edit.change, hf]
      | some taken =>
        have hid : taken.id = child := by simpa using List.find?_some hf
        simp only [Option.bind_eq_bind, Option.bind_some, hf, Option.getD_some, Option.pure_def]
        refine ⟨modify_congr fun m hm hm' => ?_, rfl⟩
        subst hid
        rw [howner m hm hm', Edit.change, hf]
        exact (rfl : _ = Rule.without taken owner)

theorem edited_revised (h : d.root.ids.Nodup) :
    Revised es d.root (d.edited es).root ∧ (d.edited es).source = d.source := by
  induction es using List.reverseRecOn with
  | nil => exact ⟨.nil _, rfl⟩
  | append_singleton es e ih =>
    obtain ⟨hr, hs⟩ := ih
    have hd : (d.edited es).root.ids.Nodup := hr.ids_sublist.nodup h
    obtain ⟨hroot, hsource⟩ := apply_root hd e
    rw [Document.edited, List.foldl_append]
    show Revised _ _ ((d.edited es).apply e).root ∧ ((d.edited es).apply e).source = _
    rw [hroot, hsource]
    exact ⟨hr.step h e, hs⟩

/-- What is printed after names were given and content was taken out is the source under the patches
of the edits. The names that double as exported ones, and that get no other name, must be all that
was written in their places. -/
theorem print_edited (hs : (grammar (.ofPath path) text).Readable text)
    (hz : (grammar (.ofPath path) text).span.stop = 0 → text = "")
    (h : Document.read grammar path text = .ok d)
    (hx : ∀ n ∈ d.root.walk, n.label.isExported → lastName? es n.id = none → d.textOf n = n.text) :
    PatchRow 0 (Utf8.encode text).length (d.root.patches es) ∧
      (d.edited es).print =
        .ok (patched (Utf8.encode text) 0 (Utf8.encode text).length (d.root.patches es)) := by
  obtain ⟨hsrc, hr⟩ := Reading.read_readAs h
  have hd := (Reading.read_ids h).1
  obtain ⟨hrev, hsource⟩ : Revised es d.root (d.edited es).root ∧ _ := edited_revised hd
  have hexact : d.root.ExactBut (.ofString path text) es := by
    intro n hn he hname
    rw [← hsrc, ← textOf_eq]
    exact hx n hn he hname
  generalize grammar (.ofPath path) text = c at hs hz hr
  have hw := hs.shape.whole
  rw [hsrc] at hr hsource
  obtain ⟨hplace, hrow, hprint⟩ := Reading.revised_printsAs hr hs hd hexact hrev
  have hspan : d.root.span = c.span := by rw [Node.span, hr.place_eq]; rfl
  rw [hspan] at hplace hrow hprint
  have hhead : PatchRow 0 c.span.start [] := .nil (Nat.zero_le _)
  have htail : PatchRow c.span.stop (Utf8.encode text).length [] := .nil hw.stop_le
  have hall := (hhead.append hrow).append htail
  rw [List.nil_append, List.append_nil] at hall
  have hparts : patched (Utf8.encode text) _ _ _ ++ _ = _ :=
    patched_append (hhead.append hrow) htail
  rw [← patched_append hhead hrow, List.nil_append, List.append_nil] at hparts
  have hsrc' : (d.edited es).source.bytes = Utf8.encode text := by
    rw [hsource, Reading.bytes_ofString]
  exact ⟨hall, (print_eq_ok hsrc' hplace hz hprint).trans (congrArg _ hparts)⟩

/-- Edits are local: what is printed after names were given and content was taken out is the source
under the patches of the edits, which stand in a row. The names that double as exported ones must
be all that was written in their places. -/
theorem edited_print (hs : (grammar (.ofPath path) text).Readable text)
    (hz : (grammar (.ofPath path) text).span.stop = 0 → text = "")
    (h : Document.read grammar path text = .ok d)
    (hx : ∀ n ∈ d.root.walk, n.label.isExported → d.textOf n = n.text) (es : List Edit) :
    PatchRow 0 (Utf8.encode text).length (d.root.patches es) ∧
      (d.edited es).print =
        .ok (patched (Utf8.encode text) 0 (Utf8.encode text).length (d.root.patches es)) :=
  print_edited hs hz h fun n hn he _ => hx n hn he

end Documents

/-! ### A shorthand property, a tag and braces -/

namespace Concrete

/-- The tree of `f({ a }, <b>é{}{x}</b>);`. -/
def boldCall : Concrete :=
  rule "program" 0 26 none
    [rule "expression_statement" 0 25 none
      [rule "call_expression" 0 24 none
        [rule "identifier" 0 1 (some "function") [],
          rule "arguments" 1 24 (some "arguments")
            [token "(" 1 2,
              rule "object" 2 7 none
                [token "\x7b" 2 3, rule "shorthand_property_identifier" 4 5 none [],
                  token "\x7d" 6 7],
              token "," 7 8,
              rule "jsx_element" 9 23 none
                [rule "jsx_opening_element" 9 12 (some "open_tag")
                    [token "<" 9 10, rule "identifier" 10 11 (some "name") [], token ">" 11 12],
                  rule "jsx_text" 12 14 none [],
                  rule "jsx_expression" 14 16 none [token "\x7b" 14 15, token "\x7d" 15 16],
                  rule "jsx_expression" 16 19 none
                    [token "\x7b" 16 17, rule "identifier" 17 18 none [], token "\x7d" 18 19],
                  rule "jsx_closing_element" 19 23 (some "close_tag")
                    [token "</" 19 21, rule "identifier" 21 22 (some "name") [],
                      token ">" 22 23]],
              token ")" 23 24]],
        token ";" 24 25]]

end Concrete

/-- The text of `Concrete.boldCall`. -/
def boldText : String :=
  "f(\x7b a \x7d, <b>é\x7b\x7d\x7bx\x7d</b>);\n"

/-- Other names for the property and the tags of `boldText`, and none of its braces, in one of which
a name was given before. -/
def boldEdits : List Edit :=
  [.remove 6 10, .rename 12 "y", .rename 8 "i", .rename 5 "c", .rename 14 "em", .remove 6 11,
    .rename 14 "i"]

/-- The property keeps its key, the tags are other ones and the braces are gone. -/
theorem boldCall_edited_print : ∃ d,
    Document.read (fun _ _ => Concrete.boldCall) "A.jsx" boldText = .ok d ∧
      (d.edited boldEdits).print = .ok (Utf8.encode "f(\x7b a: c \x7d, <i>é</i>);\n") := by
  have hread : (Document.read (fun _ _ => Concrete.boldCall) "A.jsx" boldText).map
      (fun d => (d.root.walk.all (fun n => !n.label.isExported),
        patched (Utf8.encode boldText) 0 (Utf8.encode boldText).length
          (d.root.patches boldEdits))) =
        .ok (true, Utf8.encode "f(\x7b a: c \x7d, <i>é</i>);\n") := by decide +kernel
  obtain ⟨d, hd, hx⟩ := Reading.map_eq_ok.1 hread
  rw [Prod.mk.injEq] at hx
  have hprint := (@edited_print (fun _ _ => Concrete.boldCall) "A.jsx" boldText d (by decide +kernel)
    (fun h => absurd h (by decide)) hd (fun n hn he => by
      have hn' := List.all_eq_true.1 hx.1 n hn
      rw [he] at hn'
      cases hn') boldEdits).2
  exact ⟨d, hd, by rw [hprint, hx.2]⟩

end JsxLint
