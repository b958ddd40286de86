import Mathlib.Order.Nat
import JsxLint.Proofs.Text.Utf8
import JsxLint.Source.Basic

/-!
# Spans of a text

* `slice_append`, `length_slice`: ranges of bytes that meet;
* `Row`: spans one behind the other within a range;
* `boundariesFrom`, `Span.Whole`: spans that begin and end between the characters of a text;
* `Span.Whole.encode_text`: the bytes of such a span are those of its text.
-/

namespace JsxLint

/-! ### Ranges of bytes -/

theorem slice_append {bs : Bytes} {a b c : Nat} (hab : a ≤ b) (hbc : b ≤ c) :
    slice bs a b ++ slice bs b c = slice bs a c := by
  have hd : bs.drop b = (bs.drop a).drop (b - a) := by
    rw [List.drop_drop, Nat.add_sub_cancel' hab]
  have hc : c - a = b - a + (c - b) := by omega
  rw [slice, slice, slice, hd, hc, List.take_add]

theorem length_slice {bs : Bytes} {a b : Nat} (h : b ≤ bs.length) :
    (slice bs a b).length = b - a := by
  rw [slice, List.length_take, List.length_drop]
  omega

theorem slice_zero (bs : Bytes) (b : Nat) : slice bs 0 b = bs.take b :=
  rfl

theorem slice_length (bs : Bytes) (a : Nat) : slice bs a bs.length = bs.drop a :=
  List.take_of_length_le List.length_drop.le

theorem slice_middle (l m r : Bytes) : slice (l ++ m ++ r) l.length (l ++ m).length = m := by
  have hm : (l ++ m).length - l.length = m.length := by
    rw [List.length_append, Nat.add_sub_cancel_left]
  rw [slice, hm, List.append_assoc, List.drop_left, List.take_left]

/-! ### Spans in a row -/

/-- Whether spans lie one behind the other in the range from `start` to `stop`. -/
def Row (start stop : Nat) : List Span → Prop
  | [] => start ≤ stop
  | span :: spans => start ≤ span.start ∧ span.start ≤ span.stop ∧ Row span.stop stop spans

instance decidableRow (start stop : Nat) : ∀ spans, Decidable (Row start stop spans)
  | [] => inferInstanceAs (Decidable (start ≤ stop))
  | span :: spans =>
    have := decidableRow span.stop stop spans
    inferInstanceAs (Decidable (_ ∧ _ ∧ Row span.stop stop spans))

namespace Row

variable {start stop : Nat} {spans : List Span}

theorem le (h : Row start stop spans) : start ≤ stop := by
  induction spans generalizing start with
  | nil => exact h
  | cons span spans ih => exact (h.1.trans h.2.1).trans (ih h.2.2)

theorem mono {start' stop' : Nat} (h : Row start stop spans) (h1 : start' ≤ start)
    (h2 : stop ≤ stop') : Row start' stop' spans := by
  induction spans generalizing start start' with
  | nil => exact (h1.trans h).trans h2
  | cons span spans ih => exact ⟨h1.trans h.1, h.2.1, ih h.2.2 le_rfl⟩

theorem sublist {spans' : List Span} (h : Row start stop spans) (hs : spans'.Sublist spans) :
    Row start stop spans' := by
  induction hs generalizing start with
  | slnil => exact h
  | cons span _ ih => exact ih (h.2.2.mono (h.1.trans h.2.1) le_rfl)
  | cons_cons span _ ih => exact ⟨h.1, h.2.1, ih h.2.2⟩

theorem mem {span : Span} (h : Row start stop spans) (hm : span ∈ spans) :
    start ≤ span.start ∧ span.start ≤ span.stop ∧ span.stop ≤ stop := by
  have hs : Row start stop [span] := h.sublist (List.singleton_sublist.2 hm)
  exact hs

theorem append {middle : Nat} {spans' : List Span} (h : Row start middle spans)
    (h' : Row middle stop spans') : Row start stop (spans ++ spans') := by
  induction spans generalizing start with
  | nil => exact h'.mono h le_rfl
  | cons span spans ih => exact ⟨h.1, h.2.1, ih h.2.2⟩

theorem append_cons_iff {span : Span} {spans' : List Span} :
    Row start stop (spans ++ span :: spans') ↔
      Row start span.stop (spans ++ [span]) ∧ Row span.stop stop spans' := by
  induction spans generalizing start with
  | nil => simp [Row, and_assoc]
  | cons _ spans ih => simp only [List.cons_append, Row, ih, and_assoc]

theorem within {span : Span} {spans' : List Span} (h : Row start stop (spans ++ [span]))
    (h' : Row span.start span.stop spans') : Row start stop (spans ++ spans') := by
  induction spans generalizing start with
  | nil => exact h'.mono h.1 h.2.2
  | cons _ _ ih => exact ⟨h.1, h.2.1, ih h.2.2⟩

theorem eq_or_apart {α : Type} {l : List α} {f : α → Span} {a b : α}
    (h : Row start stop (l.map f)) (ha : a ∈ l) (hb : b ∈ l) :
    a = b ∨ (f a).stop ≤ (f b).start ∨ (f b).stop ≤ (f a).start := by
  induction l generalizing start with
  | nil => cases ha
  | cons c l ih =>
    rcases List.mem_cons.1 ha with rfl | ha' <;> rcases List.mem_cons.1 hb with rfl | hb'
    · exact .inl rfl
    · exact .inr (.inl (mem h.2.2 (List.mem_map_of_mem hb')).1)
    · exact .inr (.inr (mem h.2.2 (List.mem_map_of_mem ha')).1)
    · exact ih h.2.2 ha' hb'

/-- Rows within spans in a row are together in a row. -/
theorem flatMap {α : Type} {l : List α} {f : α → Span} {g : α → List Span}
    (h : Row start stop (l.map f)) (hg : ∀ a ∈ l, Row (f a).start (f a).stop (g a)) :
    Row start stop (l.flatMap g) := by
  induction l generalizing start with
  | nil => exact h
  | cons a l ih =>
    have ha : Row start (f a).stop (g a) := (hg a List.mem_cons_self).mono h.1 le_rfl
    exact ha.append (ih h.2.2 fun b hb => hg b (List.mem_cons_of_mem a hb))

end Row

/-! ### Whole characters -/

/-- The offsets between characters whose bytes start at offset `n`, both ends included. -/
def boundariesFrom (n : Nat) : List Char → List Nat
  | [] => [n]
  | c :: cs => n :: boundariesFrom (n + (String.utf8EncodeChar c).length) cs

/-- Whether a span begins and ends between the characters of a text. -/
def Span.Whole (text : String) (span : Span) : Prop :=
  span.start ∈ boundariesFrom 0 text.toList ∧ span.stop ∈ boundariesFrom 0 text.toList ∧
    span.start ≤ span.stop

instance (text : String) (span : Span) : Decidable (span.Whole text) :=
  inferInstanceAs (Decidable (_ ∧ _ ∧ _))

theorem mem_boundariesFrom {cs : List Char} {n k : Nat} (h : k ∈ boundariesFrom n cs) :
    ∃ l r, cs = l ++ r ∧ k = n + (l.flatMap String.utf8EncodeChar).length := by
  induction cs generalizing n with
  | nil =>
    rw [boundariesFrom, List.mem_singleton] at h
    exact ⟨[], [], rfl, h⟩
  | cons c cs ih =>
    rcases List.mem_cons.1 h with rfl | h
    · exact ⟨[], c :: cs, rfl, rfl⟩
    · obtain ⟨l, r, rfl, hk⟩ := ih h
      refine ⟨c :: l, r, rfl, ?_⟩
      rw [List.flatMap_cons, List.length_append]
      omega

namespace Span.Whole

variable {text : String} {span : Span}

/-- A span of whole characters holds a part of the text. -/
theorem exists_split (h : span.Whole text) : ∃ before inside after : String,
    text = before ++ inside ++ after ∧
      span = ⟨(Utf8.encode before).length, (Utf8.encode (before ++ inside)).length⟩ := by
  obtain ⟨h1, h2, hle⟩ := h
  obtain ⟨l1, r1, e1, k1⟩ := mem_boundariesFrom h1
  obtain ⟨l2, r2, e2, k2⟩ := mem_boundariesFrom h2
  rw [Nat.zero_add] at k1 k2
  have ht : text = .ofList (l1 ++ r1) := by rw [← e1, String.ofList_toList]
  rcases List.append_eq_append_iff.1 (e1.symm.trans e2) with ⟨m, rfl, rfl⟩ | ⟨m, rfl, rfl⟩
  · refine ⟨.ofList l1, .ofList m, .ofList r2, ?_, ?_⟩
    · rw [ht, ← String.ofList_append, ← String.ofList_append, List.append_assoc]
    · rw [← String.ofList_append, Utf8.encode_ofList, Utf8.encode_ofList, ← k1, ← k2]
  · -- the end lies before the start, so nothing is between them
    refine ⟨.ofList (l2 ++ m), "", .ofList r1, ?_, ?_⟩
    · rw [ht, String.append_empty, ← String.ofList_append]
    · rw [String.append_empty, Utf8.encode_ofList, ← k1]
      rw [List.flatMap_append, List.length_append] at k1
      exact congrArg (Span.mk span.start) (by omega)

/-- The bytes of a span of whole characters are those of the text of the span. -/
theorem encode_text (h : span.Whole text) (path : String) :
    Utf8.encode ((Source.ofString path text).text span) =
      slice (Utf8.encode text) span.start span.stop := by
  obtain ⟨before, inside, after, rfl, rfl⟩ := h.exists_split
  have hs : slice (Utf8.encode (before ++ inside ++ after)) (Utf8.encode before).length
      (Utf8.encode (before ++ inside)).length = Utf8.encode inside := by
    rw [Utf8.encode_append, Utf8.encode_append, slice_middle]
  rw [Source.text, Source.characters, Source.ofString, hs, Utf8.decodeLossy_encode,
    String.ofList_toList]

theorem stop_le (h : span.Whole text) : span.stop ≤ (Utf8.encode text).length := by
  obtain ⟨before, inside, after, rfl, rfl⟩ := h.exists_split
  rw [Utf8.encode_append (before ++ inside), List.length_append]
  exact Nat.le_add_right _ _

end Span.Whole
end JsxLint
