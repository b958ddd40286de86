import Mathlib.Data.List.Intervals
import JsxLint.Proofs.Source.Span
import JsxLint.Syntax.Printer

/-!
# Bytes of a gap

Removed spans may overlap, lie in one another or reach beyond a gap. Since they are passed in the
order of their starts, what is behind the cursor is never needed again, and a gap holds the bytes
at exactly those of its offsets that are in no removed span.

* `bytesAt`: the bytes of a source at given offsets; a slice is those at the offsets of its range;
* `filter_outside_cons`: a range without a span that meets it;
* `gapFrom_eq_bytesAt`, `gap_eq_bytesAt`: the bytes of a gap, by their offsets;
* `gap_exact`: all offsets of a gap that are in no removed span, and no other.
-/

namespace JsxLint

/-- Whether an offset is in a span. -/
def Span.Holds (span : Span) (offset : Nat) : Prop :=
  span.start ≤ offset ∧ offset < span.stop

instance (span : Span) (offset : Nat) : Decidable (span.Holds offset) :=
  inferInstanceAs (Decidable (_ ∧ _))

namespace Printer

/-! ### Bytes at offsets -/

/-- The bytes of a source at offsets. -/
def bytesAt (source : Bytes) (offsets : List Nat) : Bytes :=
  offsets.filterMap (source[·]?)

theorem bytesAt_append (source : Bytes) (as bs : List Nat) :
    bytesAt source (as ++ bs) = bytesAt source as ++ bytesAt source bs :=
  List.filterMap_append

theorem slice_eq_bytesAt (source : Bytes) (start stop : Nat) :
    slice source start stop = bytesAt source (List.Ico start stop) := by
  rw [slice, List.Ico]
  generalize stop - start = n
  induction n generalizing start with
  | zero => rfl
  | succ n ih =>
    rw [List.range'_succ, bytesAt, List.filterMap_cons]
    by_cases h : start < source.length
    · rw [List.getElem?_eq_getElem h, List.drop_eq_getElem_cons h, List.take_succ_cons, ih]
      rfl
    · have hdrop : source.drop start = [] := List.drop_eq_nil_of_le (by omega)
      have hnext : source.drop (start + 1) = [] := List.drop_eq_nil_of_le (by omega)
      have hrest := ih (start + 1)
      rw [hnext, List.take_nil] at hrest
      rw [List.getElem?_eq_none (by omega), hdrop, List.take_nil]
      exact hrest

/-- Offsets inside of a source have one byte each. -/
theorem map_some_bytesAt {source : Bytes} {offsets : List Nat}
    (h : ∀ i ∈ offsets, i < source.length) :
    (bytesAt source offsets).map some = offsets.map (source[·]?) := by
  induction offsets with
  | nil => rfl
  | cons i offsets ih =>
    obtain ⟨hi, hrest⟩ := List.forall_mem_cons.1 h
    have hbytes : bytesAt source (i :: offsets) = source[i] :: bytesAt source offsets := by
      rw [bytesAt, List.filterMap_cons, List.getElem?_eq_getElem hi]
      rfl
    rw [hbytes, List.map_cons, List.map_cons, ih hrest, List.getElem?_eq_getElem hi]

/-! ### Ranges -/

section Ranges

variable {a b c : Nat}

theorem Ico_append_max (h : b ≤ c) : List.Ico a b ++ List.Ico (max a b) c = List.Ico a c := by
  rcases Nat.le_total a b with hab | hba
  · rw [Nat.max_eq_right hab, List.Ico.append_consecutive hab h]
  · rw [Nat.max_eq_left hba, List.Ico.eq_nil_of_le hba, List.nil_append]

theorem Ico_min_append (h : a ≤ b) : List.Ico a (min b c) ++ List.Ico b c = List.Ico a c := by
  rcases Nat.le_total b c with hbc | hcb
  · rw [Nat.min_eq_left hbc, List.Ico.append_consecutive h hbc]
  · rw [Nat.min_eq_right hcb, List.Ico.eq_nil_of_le hcb, List.append_nil]

end Ranges

/-! ### Gaps -/

section Gaps

variable {source : Bytes} {span : Span} {spans : List Span} {cursor stop : Nat}

/-- The offsets of a range outside of a span that does not meet it. -/
theorem filter_outside_of_skip (h : span.stop ≤ cursor ∨ stop ≤ span.start) :
    (List.Ico cursor stop).filter (fun i => ∀ s ∈ span :: spans, ¬ s.Holds i) =
      (List.Ico cursor stop).filter (fun i => ∀ s ∈ spans, ¬ s.Holds i) := by
  refine List.filter_congr fun i hi => decide_eq_decide.2 ?_
  have hrange := List.Ico.mem.1 hi
  have hout : ¬ span.Holds i := by
    rw [Span.Holds]
    omega
  simp [hout]

/-- The offsets of a range outside of a span that meets it, and of spans that start no earlier:
those before the span, and those behind it that are in none of the others. -/
theorem filter_outside_cons (hs : span.start ≤ span.stop) (hc : cursor < span.stop)
    (hstop : span.start < stop) (hl : ∀ s ∈ spans, span.start ≤ s.start) :
    (List.Ico cursor stop).filter (fun i => ∀ s ∈ span :: spans, ¬ s.Holds i) =
      List.Ico cursor span.start ++
        (List.Ico span.stop stop).filter (fun i => ∀ s ∈ spans, ¬ s.Holds i) := by
  have hmiddle : max cursor span.start ≤ span.stop := by omega
  rw [← Ico_append_max hstop.le, ← Ico_min_append hmiddle, List.filter_append, List.filter_append]
  have hbefore : (List.Ico cursor span.start).filter
      (fun i => ∀ s ∈ span :: spans, ¬ s.Holds i) = List.Ico cursor span.start := by
    refine List.filter_eq_self.2 fun i hi => decide_eq_true fun s hmem => ?_
    have hrange := List.Ico.mem.1 hi
    have hstart : span.start ≤ s.start := by
      rcases List.mem_cons.1 hmem with rfl | hmem
      · exact le_rfl
      · exact hl s hmem
    rw [Span.Holds]
    omega
  have hinside : (List.Ico (max cursor span.start) (min span.stop stop)).filter
      (fun i => ∀ s ∈ span :: spans, ¬ s.Holds i) = [] := by
    refine List.filter_eq_nil_iff.2 fun i hi hkept => ?_
    have hrange := List.Ico.mem.1 hi
    exact of_decide_eq_true hkept span List.mem_cons_self ⟨by omega, by omega⟩
  rw [hbefore, hinside, List.nil_append, filter_outside_of_skip (.inl le_rfl)]

/-- Passing spans in the order of their starts leaves out what is in one of them. -/
theorem gapFrom_eq_bytesAt (hs : ∀ span ∈ spans, span.start ≤ span.stop)
    (hsorted : spans.Pairwise fun a b => a.start ≤ b.start) :
    gapFrom source cursor stop spans =
      bytesAt source ((List.Ico cursor stop).filter fun i => ∀ s ∈ spans, ¬ s.Holds i) := by
  induction spans generalizing cursor with
  | nil => simp [gapFrom, slice_eq_bytesAt]
  | cons span spans ih =>
    obtain ⟨hspan, hrest⟩ := List.forall_mem_cons.1 hs
    obtain ⟨hlater, hsorted⟩ := List.pairwise_cons.1 hsorted
    rw [gapFrom]
    split_ifs with hskip
    · rw [Bool.or_eq_true, decide_eq_true_eq, decide_eq_true_eq] at hskip
      rw [ih hrest hsorted, filter_outside_of_skip hskip]
    · simp only [Bool.or_eq_true, decide_eq_true_eq, not_or, Nat.not_le] at hskip
      rw [ih hrest hsorted, filter_outside_cons hspan hskip.1 hskip.2 hlater, bytesAt_append,
        slice_eq_bytesAt]

theorem spanLe_iff {a b : Span} :
    spanLe a b ↔ a.start < b.start ∨ a.start = b.start ∧ a.stop ≤ b.stop := by
  simp [spanLe]

theorem pairwise_mergeSort (removed : List Span) :
    (removed.mergeSort spanLe).Pairwise fun a b => spanLe a b := by
  have htrans : ∀ a b c, spanLe a b → spanLe b c → spanLe a c := by
    intro a b c
    rw [spanLe_iff, spanLe_iff, spanLe_iff]
    omega
  have htotal : ∀ a b, spanLe a b || spanLe b a := by
    intro a b
    rw [Bool.or_eq_true, spanLe_iff, spanLe_iff]
    omega
  exact List.pairwise_mergeSort htrans htotal removed

theorem pairwise_start_mergeSort (removed : List Span) :
    (removed.mergeSort spanLe).Pairwise fun a b => a.start ≤ b.start := by
  refine (pairwise_mergeSort removed).imp fun {a b} h => ?_
  have hle := spanLe_iff.1 h
  omega

/-- The bytes of a gap, whatever the order of the removed spans. -/
theorem gap_eq_bytesAt {removed : List Span} (hs : ∀ span ∈ removed, span.start ≤ span.stop)
    (start stop : Nat) :
    gap source removed start stop =
      bytesAt source ((List.Ico start stop).filter fun i => ∀ s ∈ removed, ¬ s.Holds i) := by
  have hs' : ∀ span ∈ removed.mergeSort spanLe, span.start ≤ span.stop := fun span h =>
    hs span (List.mem_mergeSort.1 h)
  rw [gap, gapFrom_eq_bytesAt hs' (pairwise_start_mergeSort removed)]
  simp only [List.mem_mergeSort]

end Gaps

/-- The source between two offsets without removed spans, in any order and however they lie: its
bytes are those at the offsets of the range that are in none of the spans, one each and in order. -/
theorem gap_exact {source : Bytes} {removed : List Span} {start stop : Nat}
    (hs : ∀ span ∈ removed, span.start ≤ span.stop) (hstop : stop ≤ source.length) :
    (gap source removed start stop).map some =
      ((List.Ico start stop).filter fun i => ∀ span ∈ removed, ¬ span.Holds i).map
        (source[·]?) := by
  rw [gap_eq_bytesAt hs]
  refine map_some_bytesAt fun i hi => ?_
  have hrange := List.Ico.mem.1 (List.mem_filter.1 hi).1
  exact hrange.2.trans_le hstop

/-- A span twice, one inside of another, an empty one, and two across the ends of the gap. -/
theorem gap_exact_overlapping :
    (∀ span ∈ ([⟨4, 6⟩, ⟨4, 5⟩, ⟨0, 2⟩, ⟨3, 3⟩, ⟨7, 20⟩, ⟨4, 6⟩] : List Span),
      span.start ≤ span.stop) ∧
    8 ≤ [10, 11, 12, 13, 14, 15, 16, 17, 18].length ∧
    (gap [10, 11, 12, 13, 14, 15, 16, 17, 18]
      [⟨4, 6⟩, ⟨4, 5⟩, ⟨0, 2⟩, ⟨3, 3⟩, ⟨7, 20⟩, ⟨4, 6⟩] 1 8).map some =
        [some 12, some 13, some 16] :=
  ⟨by decide, by decide, (gap_exact (by decide) (by decide)).trans (by decide)⟩

end Printer

end JsxLint
