import Mathlib.Data.List.Sort
import JsxLint.Proofs.Printing.Gaps
import JsxLint.Proofs.Printing.RoundTrip

/-!
# Patches of a source

A patch puts other bytes in the place of one span. A source with patches is what the printer gives
when all that it does not copy is known span by span.

* `Patch`, `patched`: a range of the source under patches that stand in a row;
* `gapFrom_eq_patched`: a gap is the range under patches that cut the removed spans in it;
* `spliceFrom_patched`, `openingTag_patched`: children that print as their spans under patches.
-/

namespace JsxLint

/-- Other bytes for a span of the source. -/
structure Patch where
  span : Span
  bytes : Bytes
  deriving DecidableEq, Repr

/-- The patch that leaves nothing of a span. -/
def Patch.cut (span : Span) : Patch :=
  ⟨span, []⟩

/-- The source from `cursor` to `stop` under patches that stand in a row. -/
def patched (source : Bytes) (cursor stop : Nat) : List Patch → Bytes
  | [] => slice source cursor stop
  | p :: ps => slice source cursor p.span.start ++ p.bytes ++ patched source p.span.stop stop ps

/-- Whether patches stand one behind the other in the range from `start` to `stop`. -/
def PatchRow (start stop : Nat) (ps : List Patch) : Prop :=
  Row start stop (ps.map (·.span))

instance (start stop : Nat) (ps : List Patch) : Decidable (PatchRow start stop ps) :=
  decidableRow ..

section Patched

variable {source : Bytes} {a b c cursor stop : Nat} {ps qs : List Patch}

theorem PatchRow.nil (h : a ≤ b) : PatchRow a b [] :=
  h

theorem PatchRow.append (h : PatchRow a b ps) (h' : PatchRow b c qs) : PatchRow a c (ps ++ qs) := by
  rw [PatchRow, List.map_append]
  exact Row.append h h'

/-- What stands before the first patch may be copied apart. -/
theorem slice_append_patched (hab : a ≤ b) (h : PatchRow b c ps) :
    slice source a b ++ patched source b c ps = patched source a c ps := by
  cases ps with
  | nil => exact slice_append hab h
  | cons p ps =>
    have hp : b ≤ p.span.start := h.1
    rw [patched, patched, ← List.append_assoc, ← List.append_assoc, slice_append hab hp]

/-- Ranges that meet are patched one behind the other. -/
theorem patched_append (h : PatchRow a b ps) (h' : PatchRow b c qs) :
    patched source a b ps ++ patched source b c qs = patched source a c (ps ++ qs) := by
  induction ps generalizing a with
  | nil => exact slice_append_patched h h'
  | cons p ps ih =>
    have hrest : PatchRow p.span.stop b ps := h.2.2
    rw [patched, List.append_assoc, ih hrest, List.cons_append, patched]

/-- A patch of an empty span by nothing does nothing. -/
theorem patched_cut_empty {span : Span} (hs : span.start = span.stop) (hc : cursor ≤ span.start)
    (h : PatchRow span.stop stop ps) :
    patched source cursor stop (.cut span :: ps) = patched source cursor stop ps := by
  rw [patched, Patch.cut, List.append_nil, hs]
  exact slice_append_patched (hs ▸ hc) h

end Patched

/-! ### Gaps -/

section Gaps

variable {source : Bytes} {cursor stop : Nat} {before pending later : List Span}

theorem map_cut_row (h : Row cursor stop pending) : PatchRow cursor stop (pending.map .cut) := by
  rw [PatchRow, List.map_map]
  exact (List.map_id pending).symm ▸ h

/-- Removed spans before and behind a range are of no concern to it. -/
theorem gapFrom_eq_patched (hb : ∀ span ∈ before, span.stop ≤ cursor)
    (hp : Row cursor stop pending) (hl : ∀ span ∈ later, stop ≤ span.start) :
    Printer.gapFrom source cursor stop (before ++ pending ++ later) =
      patched source cursor stop (pending.map .cut) := by
  induction before with
  | cons span before ih =>
    have hskip : span.stop ≤ cursor := hb span List.mem_cons_self
    rw [List.cons_append, List.cons_append, Printer.gapFrom, if_pos (by simp [hskip])]
    exact ih fun s hs => hb s (List.mem_cons_of_mem _ hs)
  | nil =>
    clear hb
    induction pending generalizing cursor with
    | nil =>
      induction later with
      | nil => rfl
      | cons span later ih =>
        have hskip : stop ≤ span.start := hl span List.mem_cons_self
        rw [List.nil_append, List.nil_append, Printer.gapFrom, if_pos (by simp [hskip])]
        exact ih fun s hs => hl s (List.mem_cons_of_mem _ hs)
    | cons span pending ih =>
      obtain ⟨h1, h2, h3⟩ := hp
      have h4 := h3.le
      rw [List.nil_append] at ih ⊢
      rw [List.cons_append, Printer.gapFrom, List.map_cons]
      split_ifs with hskip
      · -- a span that leaves the range where it is has no bytes
        simp only [Bool.or_eq_true, decide_eq_true_eq] at hskip
        have hs : span.start = span.stop := by omega
        rw [patched_cut_empty hs h1 (map_cut_row h3)]
        exact ih (h3.mono (by omega) le_rfl)
      · rw [patched, Patch.cut, List.append_nil]
        exact congrArg _ (ih h3)

theorem row_pairwise {start stop : Nat} {spans : List Span} (h : Row start stop spans) :
    spans.Pairwise fun a b => Printer.spanLe a b := by
  induction spans generalizing start with
  | nil => exact .nil
  | cons span spans ih =>
    refine List.pairwise_cons.2 ⟨fun b hb => ?_, ih h.2.2⟩
    have h1 : span.start ≤ span.stop := h.2.1
    obtain ⟨h2, h3, -⟩ := Row.mem h.2.2 hb
    rw [Printer.spanLe_iff]
    omega

theorem spanLe_antisymm {a b : Span} (h : Printer.spanLe a b) (h' : Printer.spanLe b a) : a = b := by
  obtain ⟨a1, a2⟩ := a
  obtain ⟨b1, b2⟩ := b
  rw [Printer.spanLe_iff] at h h'
  dsimp only at h h'
  have h1 : a1 = b1 := by omega
  have h2 : a2 = b2 := by omega
  rw [h1, h2]

/-- Spans in a row are the sorted form of all their orders. -/
theorem mergeSort_eq_of_row {start stop : Nat} {spans removed : List Span}
    (h : Row start stop spans) (hp : removed.Perm spans) :
    removed.mergeSort Printer.spanLe = spans := by
  exact List.Perm.eq_of_pairwise (fun _ _ _ _ => spanLe_antisymm)
    (Printer.pairwise_mergeSort removed) (row_pairwise h)
    ((List.mergeSort_perm removed _).trans hp)

end Gaps

/-! ### Children -/

/-- Whether a node that was read prints, as edits left it, as its span under patches. -/
structure PrintsAs (source : Bytes) (patches : Node → List Patch) (n n' : Node) : Prop where
  place : n'.place.span = some n.span
  row : PatchRow n.span.start n.span.stop (patches n)
  print : n'.print source = .ok (patched source n.span.start n.span.stop (patches n))

/-- The patches of children some of which are gone. -/
def patchesOf (gone : Node → Bool) (patches : Node → List Patch) (kids : List Node) : List Patch :=
  kids.flatMap fun n => if gone n then [.cut n.span] else patches n

section Children

variable {source : Bytes} {start stop cursor : Nat} {patches : Node → List Patch}
  {gone : Node → Bool} {kids kids' : List Node}

theorem PrintsAs.isMade_eq_false {n n' : Node} (h : PrintsAs source patches n n') :
    n'.isMade = false := by
  rw [Node.isMade, h.place]
  rfl

theorem patchesOf_row (hr : Row start stop (kids.map Node.span))
    (hkids : List.Forall₂ (PrintsAs source patches) (kids.filter (!gone ·)) kids') :
    PatchRow start stop (patchesOf gone patches kids) := by
  rw [PatchRow, patchesOf, List.map_flatMap]
  refine Row.flatMap hr fun n hn => ?_
  split_ifs with hg
  · exact ⟨le_rfl, (hr.mem (List.mem_map_of_mem hn)).2.1, le_rfl⟩
  · have hkept : n ∈ kids.filter (!gone ·) := List.mem_filter.2 ⟨hn, by simp [hg]⟩
    obtain ⟨n', -, hn'⟩ := exists_of_forall₂ hkids.flip hkept
    exact hn'.row

/-- Copying the source around children leaves out the removed spans, each from the one gap that it
lies in. -/
theorem spliceFrom_patched {owner : Label} {before pending : List Span}
    (hremoved : owner.removed.mergeSort Printer.spanLe =
      before ++ pending ++ (kids.filter gone).map Node.span)
    (hb : ∀ span ∈ before, span.stop ≤ cursor) (hp : Row cursor start pending)
    (hr : Row start stop (kids.map Node.span))
    (hkids : List.Forall₂ (PrintsAs source patches) (kids.filter (!gone ·)) kids') :
    Printer.spliceFrom source owner cursor stop (kids'.map fun n => (n, n.print source)) =
      .ok (patched source cursor stop (pending.map .cut ++ patchesOf gone patches kids)) := by
  -- `pending` are the children that are gone since the last one that was printed
  induction kids generalizing start cursor before pending kids' with
  | nil =>
    cases hkids
    have hlater : ∀ span ∈ ([] : List Span), stop ≤ span.start := fun span hs => by cases hs
    rw [List.map_nil, Printer.spliceFrom, Printer.gap, hremoved, List.filter_nil, List.map_nil,
      gapFrom_eq_patched hb (hp.mono le_rfl hr) hlater, patchesOf, List.flatMap_nil,
      List.append_nil]
  | cons n kids ih =>
    obtain ⟨h1, h2, h3⟩ := hr
    cases hg : gone n with
    | true =>
      rw [List.filter_cons_of_pos hg, List.map_cons] at hremoved
      rw [List.filter_cons_of_neg (by simp [hg])] at hkids
      have hpending : Row cursor n.span.stop (pending ++ [n.span]) := hp.append ⟨h1, h2, le_rfl⟩
      rw [ih (by rw [hremoved]; simp) hb hpending h3 hkids]
      simp [patchesOf, hg]
    | false =>
      rw [List.filter_cons_of_neg (by simp [hg])] at hremoved
      rw [List.filter_cons_of_pos (by simp [hg])] at hkids
      cases hkids with
      | @cons _ n' _ kids' hn hkids =>
        have hlater : ∀ span ∈ (kids.filter gone).map Node.span, n.span.start ≤ span.start := by
          intro span hs
          obtain ⟨m, hm, rfl⟩ := List.mem_map.1 hs
          exact h2.trans (h3.mem (List.mem_map_of_mem (List.mem_of_mem_filter hm))).1
        have hpn : Row cursor n.span.start pending := hp.mono le_rfl h1
        have hbefore : ∀ span ∈ before ++ pending, span.stop ≤ n.span.stop := by
          intro span hs
          rcases List.mem_append.1 hs with hs | hs
          · exact (hb span hs).trans (hp.le.trans (h1.trans h2))
          · exact (hpn.mem hs).2.2.trans h2
        have htail := ih (by rw [hremoved, List.append_nil]) hbefore (show Row _ _ [] from le_rfl)
          h3 hkids
        rw [List.map_cons, Printer.spliceFrom, hn.place]
        dsimp only
        rw [hn.print, htail, Printer.gap, hremoved, gapFrom_eq_patched hb hpn hlater]
        show Except.ok _ = _
        congr 1
        rw [patched_append (map_cut_row hpn) hn.row, List.map_nil, List.nil_append,
          patched_append ((map_cut_row hpn).append hn.row) (patchesOf_row h3 hkids)]
        simp [patchesOf, hg]

/-- A node whose children are spliced prints as its span under their patches. -/
theorem splice_patched {n' : Node} {span : Span} (hsp : n'.place.span = some span)
    (hremoved : n'.label.removed.Perm ((kids.filter gone).map Node.span))
    (hr : Row span.start span.stop (kids.map Node.span))
    (hkids : List.Forall₂ (PrintsAs source patches) (kids.filter (!gone ·)) n'.children) :
    Printer.splice source n' (n'.children.map fun c => (c, c.print source)) =
      .ok (patched source span.start span.stop (patchesOf gone patches kids)) := by
  have hrow : Row span.start span.stop ((kids.filter gone).map Node.span) :=
    hr.sublist (List.filter_sublist.map _)
  have hsort : n'.label.removed.mergeSort Printer.spanLe =
      [] ++ [] ++ (kids.filter gone).map Node.span := mergeSort_eq_of_row hrow hremoved
  rw [Printer.splice, hsp]
  exact spliceFrom_patched hsort (fun span hs => by cases hs) (show Row _ _ [] from le_rfl) hr hkids

/-! ### Opening tags -/

theorem madeAttributes_patched (hkids : List.Forall₂ (PrintsAs source patches) kids kids') :
    Printer.madeAttributes (kids'.map fun n => (n, n.print source)) = .ok [] := by
  induction hkids with
  | nil => rfl
  | cons hn _ ih =>
    rw [List.map_cons, Printer.madeAttributes, hn.isMade_eq_false]
    exact ih

/-- The attributes of a tag print, up to the end of the last of them, as the source under their
patches. -/
theorem readAttributes_patched (hkids : List.Forall₂ (PrintsAs source patches) kids kids')
    (hr : Row start stop (kids.map Node.span)) :
    ∃ last, start ≤ last ∧ last ≤ stop ∧ PatchRow start last (kids.flatMap patches) ∧
      Printer.readAttributes source start (kids'.map fun n => (n, n.print source)) =
        .ok (patched source start last (kids.flatMap patches), last) := by
  induction hkids generalizing start with
  | nil =>
    refine ⟨start, le_rfl, hr, PatchRow.nil le_rfl, ?_⟩
    simp [Printer.readAttributes, patched, slice]
  | @cons n n' kids kids' hn _ ih =>
    obtain ⟨h1, h2, h3⟩ := hr
    obtain ⟨last, hl1, hl2, hrow, hread⟩ := ih h3
    have hhead : PatchRow start n.span.stop (patches n) := hn.row.mono h1 le_rfl
    refine ⟨last, (h1.trans h2).trans hl1, hl2, hhead.append hrow, ?_⟩
    rw [List.map_cons, Printer.readAttributes, hn.place]
    dsimp only
    rw [hn.print, hread]
    show Except.ok (_, last) = _
    rw [slice_append_patched h1 hn.row, patched_append hhead hrow, List.flatMap_cons]

/-- An opening tag prints as its span under the patches of its name and its attributes; one that
closes itself must be written so, behind its attributes. -/
theorem openingTag_patched {n' : Node} {selfClosing : Bool} {span : Span}
    (hne : kids ≠ []) (hsp : n'.place.span = some span)
    (hkids : List.Forall₂ (PrintsAs source patches) kids n'.children)
    (hr : Row span.start stop (kids.map Node.span)) (hs : stop ≤ span.stop)
    (hz : selfClosing → [0x2F, 0x3E] <:+ slice source stop span.stop) :
    Printer.openingTag source n' selfClosing (n'.children.map fun c => (c, c.print source)) =
      .ok (patched source span.start span.stop (kids.flatMap patches)) := by
  generalize n'.children = kids' at hkids
  cases hkids with
  | nil => exact absurd rfl hne
  | @cons name name' attributes attributes' hname hattributes =>
    obtain ⟨h1, h2, h3⟩ := hr
    obtain ⟨last, hl1, hl2, hrow, hread⟩ := readAttributes_patched hattributes h3
    have hclose : selfClosing → [0x2F, 0x3E] <:+ slice source last span.stop := by
      intro hsc
      rw [← slice_append hl2 hs]
      exact (hz hsc).trans (List.suffix_append _ _)
    have hhead : PatchRow span.start name.span.stop (patches name) := hname.row.mono h1 le_rfl
    have htail : PatchRow last span.stop [] := .nil (hl2.trans hs)
    rw [List.map_cons, Printer.openingTag, hname.print, madeAttributes_patched hattributes]
    simp only [Printer.startOf, Printer.openingTag.startOf', Printer.openingTag.nameEnd,
      Printer.stopOf, hsp, hname.place, Option.map_some, Option.getD_some, hread]
    simp only [Bind.bind, Except.bind, closeTag_eq_append hclose, List.append_nil]
    show Except.ok _ = _
    congr 1
    rw [slice_append_patched h1 hname.row, patched_append hhead hrow]
    exact (patched_append (hhead.append hrow) htail).trans (by rw [List.append_nil, List.flatMap_cons])

end Children

end JsxLint
