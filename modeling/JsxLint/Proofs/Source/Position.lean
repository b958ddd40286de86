import Mathlib.Data.List.Induction
import Mathlib.Data.Prod.Lex
import Mathlib.Data.Set.Function
import JsxLint.Proofs.Source.Span

/-!
# Places of offsets

The lines that start up to an offset are the lines of the text before it, so the line of an offset
counts the line feeds before it, and its column counts the characters behind the last of them.
Places are in the order of the offsets.

* `takeWhile_lineStarts`: the lines that start up to an offset;
* `EndsLine`, `exists_line`: a text, divided where its last line starts;
* `position_of_line`: the place of an offset that ends a text divided so;
* `position_strictMonoOn`: offsets between characters have places in their order;
* `position_exact`: both for all offsets between characters.
-/

namespace JsxLint

/-! ### Lines -/

/-- A line feed is a character of its own. -/
theorem utf8EncodeChar_of_mem {c : Char} (h : 0x0A ∈ String.utf8EncodeChar c) :
    String.utf8EncodeChar c = [0x0A] := by
  have hhigh : ∀ v : Nat, 0x80 ≤ v → v < 256 → 0x0A ≠ UInt8.ofNat v := by
    intro v hle hlt he
    have hv : 0x0A = (UInt8.ofNat v).toNat := congrArg UInt8.toNat he
    rw [UInt8.toNat_ofNat_of_lt' hlt] at hv
    omega
  rw [String.utf8EncodeChar] at h ⊢
  generalize c.val.toNat = v at h ⊢
  split_ifs at h ⊢ <;> simp only [List.mem_cons, List.not_mem_nil, or_false] at h
  · rw [← h]
  · rcases h with h | h <;> exact absurd h (hhigh _ (by omega) (by omega))
  · rcases h with h | h | h <;> exact absurd h (hhigh _ (by omega) (by omega))
  · rcases h with h | h | h | h <;> exact absurd h (hhigh _ (by omega) (by omega))

/-- The bytes of a text have a line feed just when its characters have one. -/
theorem mem_encode_iff {text : String} : 0x0A ∈ Utf8.encode text ↔ '\n' ∈ text.toList := by
  rw [Utf8.encode, List.mem_flatMap]
  constructor
  · rintro ⟨c, hc, h⟩
    have hbytes : String.utf8EncodeChar c = String.utf8EncodeChar '\n' := utf8EncodeChar_of_mem h
    have htext : Utf8.encode (String.singleton c) = Utf8.encode (String.singleton '\n') := by
      simpa [Utf8.encode] using hbytes
    have hsame := congrArg String.toList (Utf8.encode_injective htext)
    simp only [String.toList_singleton, List.cons.injEq, and_true] at hsame
    exact hsame ▸ hc
  · intro h
    exact ⟨'\n', h, List.mem_singleton.2 rfl⟩

theorem lineStartsFrom_append (n : Nat) (as bs : Bytes) :
    lineStartsFrom n (as ++ bs) = lineStartsFrom n as ++ lineStartsFrom (n + as.length) bs := by
  induction as generalizing n with
  | nil => rfl
  | cons a as ih =>
    rw [List.cons_append, lineStartsFrom, lineStartsFrom, ih, List.length_cons,
      Nat.add_right_comm n 1, Nat.add_assoc n]
    split_ifs <;> rfl

theorem lineStartsFrom_eq_nil {n : Nat} {bs : Bytes} (h : 0x0A ∉ bs) :
    lineStartsFrom n bs = [] := by
  induction bs generalizing n with
  | nil => rfl
  | cons b bs ih =>
    rw [List.mem_cons, not_or] at h
    rw [lineStartsFrom, if_neg (Ne.symm h.1), ih h.2]

/-- Lines start behind bytes. -/
theorem lineStartsFrom_bounds {n start : Nat} {bs : Bytes} (h : start ∈ lineStartsFrom n bs) :
    n < start ∧ start ≤ n + bs.length := by
  induction bs generalizing n with
  | nil => cases h
  | cons b bs ih =>
    have hrest : start ∈ lineStartsFrom (n + 1) bs → n < start ∧ start ≤ n + (b :: bs).length := by
      intro h
      have := ih h
      simp only [List.length_cons]
      omega
    rw [lineStartsFrom] at h
    split_ifs at h
    · rcases List.mem_cons.1 h with rfl | h
      · simp
      · exact hrest h
    · exact hrest h

/-- Up to an offset start the lines of the text before it. -/
theorem takeWhile_lineStarts (as bs : Bytes) :
    (lineStarts (as ++ bs)).takeWhile (· ≤ as.length) = lineStarts as := by
  have hbefore : ∀ start ∈ lineStarts as, decide (start ≤ as.length) = true := by
    intro start h
    rcases List.mem_cons.1 h with rfl | h
    · simp
    · have := lineStartsFrom_bounds h
      simp
      omega
  have hbehind : (lineStartsFrom (0 + as.length) bs).takeWhile (· ≤ as.length) = [] := by
    cases hs : lineStartsFrom (0 + as.length) bs with
    | nil => rfl
    | cons start starts =>
      have := lineStartsFrom_bounds (hs ▸ List.mem_cons_self : start ∈ lineStartsFrom _ bs)
      exact List.takeWhile_cons_of_neg (by simp; omega)
  have happend : lineStarts (as ++ bs) = lineStarts as ++ lineStartsFrom (0 + as.length) bs := by
    rw [lineStarts, lineStartsFrom_append]
    rfl
  rw [happend, List.takeWhile_append_of_pos hbefore, hbehind, List.append_nil]

/-- There is a first line, and one behind each line feed. -/
theorem length_lineStarts (bs : Bytes) : (lineStarts bs).length = 1 + bs.count 0x0A := by
  have hfrom : ∀ n, (lineStartsFrom n bs).length = bs.count 0x0A := by
    induction bs with
    | nil => intro n; rfl
    | cons b bs ih =>
      intro n
      rw [lineStartsFrom, List.count_cons]
      by_cases hb : b = 0x0A <;> simp [hb, ih]
  rw [lineStarts, List.length_cons, hfrom, Nat.add_comm]

/-! ### Parts of a text -/

/-- Whether a text ends where a line starts: it is empty, or ends in a line feed. -/
def EndsLine (text : String) : Prop :=
  text = "" ∨ ∃ rest, text = rest ++ "\n"

/-- Every text can be divided where its last line starts. -/
theorem exists_line (text : String) :
    ∃ before line, text = before ++ line ∧ EndsLine before ∧ '\n' ∉ line.toList := by
  suffices ∀ cs : List Char, ∃ before line : String, String.ofList cs = before ++ line ∧
      EndsLine before ∧ '\n' ∉ line.toList by
    have h := this text.toList
    rwa [String.ofList_toList] at h
  intro cs
  induction cs using List.reverseRecOn with
  | nil => exact ⟨"", "", rfl, .inl rfl, by simp⟩
  | append_singleton cs c ih =>
    obtain ⟨before, line, htext, hends, hline⟩ := ih
    rw [String.ofList_append, htext]
    by_cases hc : c = '\n'
    · subst hc
      exact ⟨before ++ line ++ "\n", "", by simp, .inr ⟨before ++ line, rfl⟩, by simp⟩
    · refine ⟨before, line ++ String.ofList [c], by rw [String.append_assoc], hends, ?_⟩
      simp [hline, Ne.symm hc]

/-- The last line of a text starts behind the part that ends a line. -/
theorem getLast?_lineStarts {before line : String} (hb : EndsLine before)
    (hl : '\n' ∉ line.toList) :
    (lineStarts (Utf8.encode (before ++ line))).getLast? = some (Utf8.encode before).length := by
  rw [Utf8.encode_append, lineStarts, lineStartsFrom_append,
    lineStartsFrom_eq_nil fun h => hl (mem_encode_iff.1 h), List.append_nil]
  rcases hb with rfl | ⟨rest, rfl⟩
  · rfl
  · have hfeed : Utf8.encode "\n" = [0x0A] := rfl
    have hlast : ∀ n, lineStartsFrom n [0x0A] = [n + 1] := fun _ => rfl
    rw [Utf8.encode_append, hfeed, lineStartsFrom_append, hlast, ← List.cons_append,
      List.getLast?_concat, List.length_append, Nat.zero_add]
    rfl

/-! ### Places -/

/-- The place of an offset: its line counts the line feeds before it, and its column the characters
behind the last of them. -/
theorem position_of_line (path : String) {before line : String} (after : String)
    (hb : EndsLine before) (hl : '\n' ∉ line.toList) :
    (Source.ofString path (before ++ line ++ after)).position
        (Utf8.encode (before ++ line)).length =
      ⟨1 + (Utf8.encode (before ++ line)).count 0x0A, line.length⟩ := by
  have hbytes : Utf8.encode (before ++ line ++ after) =
      Utf8.encode (before ++ line) ++ Utf8.encode after := Utf8.encode_append _ _
  have hslice : slice (Utf8.encode (before ++ line) ++ Utf8.encode after)
      (Utf8.encode before).length (Utf8.encode (before ++ line)).length = Utf8.encode line := by
    rw [Utf8.encode_append before line, slice_middle]
  rw [Source.position, Source.ofString]
  dsimp only
  rw [positionOf, hbytes, takeWhile_lineStarts, getLast?_lineStarts hb hl, length_lineStarts,
    Option.getD_some, hslice, Utf8.decodeLossy_encode, String.length_toList]

/-- An offset between the characters of a text ends a part of it. -/
theorem exists_part {text : String} {offset : Nat} (h : offset ∈ boundariesFrom 0 text.toList) :
    ∃ before after, text = before ++ after ∧ offset = (Utf8.encode before).length := by
  have hwhole : Span.Whole text ⟨offset, offset⟩ := ⟨h, h, le_rfl⟩
  obtain ⟨before, inside, after, htext, hspan⟩ := hwhole.exists_split
  exact ⟨before, inside ++ after, by rw [htext, String.append_assoc], congrArg Span.start hspan⟩

/-- The line of an offset counts the line feeds before it. -/
theorem line_position (path before after : String) :
    ((Source.ofString path (before ++ after)).position (Utf8.encode before).length).line =
      1 + (Utf8.encode before).count 0x0A := by
  obtain ⟨start, line, rfl, hb, hl⟩ := exists_line before
  rw [position_of_line path after hb hl]

/-- The order of places: by line, then by column. -/
def Position.key (p : Position) : ℕ ×ₗ ℕ :=
  toLex (p.line, p.column)

/-- Offsets between characters have places in their order. -/
theorem position_strictMonoOn (path text : String) :
    StrictMonoOn (fun offset => ((Source.ofString path text).position offset).key)
      {offset | offset ∈ boundariesFrom 0 text.toList} := by
  intro a ha b hb hab
  have hwhole : Span.Whole text ⟨a, b⟩ := ⟨ha, hb, hab.le⟩
  obtain ⟨before, inside, after, rfl, hspan⟩ := hwhole.exists_split
  obtain ⟨rfl, rfl⟩ := Span.mk.inj hspan
  obtain ⟨start, line, rfl, hends, hline⟩ := exists_line before
  have hfirst := position_of_line path (inside ++ after) hends hline
  rw [← String.append_assoc] at hfirst
  dsimp only
  rw [hfirst, Position.key, Position.key, Prod.Lex.toLex_lt_toLex]
  by_cases hfeed : '\n' ∈ inside.toList
  · -- the second offset is on a later line
    left
    have hcount : 0 < (Utf8.encode inside).count 0x0A :=
      List.count_pos_iff.2 (mem_encode_iff.2 hfeed)
    dsimp only
    rw [line_position, Utf8.encode_append _ inside, List.count_append]
    omega
  · -- both offsets are on one line, and what is between them has a character at least
    right
    have hlong : '\n' ∉ (line ++ inside).toList := by simp [hline, hfeed]
    have hsecond := position_of_line path after hends hlong
    rw [← String.append_assoc] at hsecond
    have hcount : (Utf8.encode inside).count 0x0A = 0 :=
      List.count_eq_zero.2 fun h => hfeed (mem_encode_iff.1 h)
    have hsome : inside.length ≠ 0 := by
      intro hzero
      rw [String.length_eq_zero_iff.1 hzero, String.append_empty] at hab
      exact lt_irrefl _ hab
    rw [hsecond, Utf8.encode_append _ inside, List.count_append, String.length_append]
    dsimp only
    exact ⟨by omega, by omega⟩

/-- Offsets between characters with the same place are the same. -/
theorem position_injective {path text : String} {a b : Nat} (ha : a ∈ boundariesFrom 0 text.toList)
    (hb : b ∈ boundariesFrom 0 text.toList)
    (h : (Source.ofString path text).position a = (Source.ofString path text).position b) :
    a = b :=
  (position_strictMonoOn path text).injOn ha hb (congrArg Position.key h)

/-- The place of every offset between characters, both ends included: the line counts the line feeds
before the offset, from one, and the column counts the characters behind the last of them, or from
the start. Places are in the order of their offsets, by line and then by column. -/
theorem position_exact (path text : String) :
    (∀ offset ∈ boundariesFrom 0 text.toList, ∃ before line after,
      text = before ++ line ++ after ∧ offset = (Utf8.encode (before ++ line)).length ∧
      EndsLine before ∧ '\n' ∉ line.toList ∧
      (Source.ofString path text).position offset =
        ⟨1 + ((Utf8.encode text).take offset).count 0x0A, line.length⟩) ∧
    StrictMonoOn (fun offset => ((Source.ofString path text).position offset).key)
      {offset | offset ∈ boundariesFrom 0 text.toList} ∧
    Set.InjOn (Source.ofString path text).position
      {offset | offset ∈ boundariesFrom 0 text.toList} := by
  refine ⟨fun offset h => ?_, position_strictMonoOn path text,
    fun a ha b hb => position_injective ha hb⟩
  obtain ⟨part, after, rfl, rfl⟩ := exists_part h
  obtain ⟨before, line, rfl, hends, hline⟩ := exists_line part
  refine ⟨before, line, after, rfl, rfl, hends, hline, ?_⟩
  rw [position_of_line path after hends hline, Utf8.encode_append _ after, List.take_left]

/-- Directly behind a line feed, in a text with a character of two bytes and no final line feed. -/
theorem position_exact_accented :
    (∃ before line after, "é\nab" = before ++ line ++ after ∧
      3 = (Utf8.encode (before ++ line)).length ∧ EndsLine before ∧ '\n' ∉ line.toList ∧
      (Source.ofString "a.jsx" "é\nab").position 3 =
        ⟨1 + ((Utf8.encode "é\nab").take 3).count 0x0A, line.length⟩) ∧
    (Source.ofString "a.jsx" "é\nab").position 2 = ⟨1, 1⟩ ∧
    (Source.ofString "a.jsx" "é\nab").position 3 = ⟨2, 0⟩ ∧
    ((Source.ofString "a.jsx" "é\nab").position 2).key <
      ((Source.ofString "a.jsx" "é\nab").position 3).key :=
  ⟨(position_exact "a.jsx" "é\nab").1 3 (by decide +kernel), by decide +kernel, by decide +kernel,
    (position_exact "a.jsx" "é\nab").2.1 (show 2 ∈ boundariesFrom 0 _ by decide +kernel)
      (show 3 ∈ boundariesFrom 0 _ by decide +kernel) (by decide)⟩

end JsxLint
