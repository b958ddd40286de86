import Mathlib.Data.List.Basic
import JsxLint.Text.Letter

/-!
# Letter case of names

A name that is capitalised starts with no small letter, unless its first character has no other
form; one that starts with a capital letter stays as it is. Both are read off the tables, run by
run: most runs of code points are apart because of where they start and end, the others because
they hold every other code point only.

* `Run.apart`: a cheap test that two runs have no code point in common;
* `upper_cases`: the upper-case forms of characters;
* `capitalise_of_startsUpper`, `capitalise_of_startsLower`: names that are already capitalised;
* `length_lower`: lower case makes no text shorter.
-/

namespace JsxLint.Letter

/-! ### Runs -/

/-- Whether two runs can be told apart by their ends, by parity or because one is a single point. -/
def Run.apart (r s : Run) : Bool :=
  Nat.blt r.last s.first || Nat.blt s.last r.first ||
    (Nat.beq (r.step % 2) 0 && Nat.beq (s.step % 2) 0 && Nat.beq ((r.first + s.first) % 2) 1) ||
    (Nat.beq r.first r.last && !s.has r.first) || (Nat.beq s.first s.last && !r.has s.first)

theorem Run.has_iff {r : Run} {c : Nat} :
    r.has c ↔ r.first ≤ c ∧ c ≤ r.last ∧ r.step ∣ c - r.first := by
  simp [Run.has, Nat.dvd_iff_mod_eq_zero, and_assoc]

theorem Run.not_has_of_apart {r s : Run} {c : Nat} (h : r.apart s) (hr : r.has c) :
    s.has c = false := by
  by_contra hs
  rw [Bool.not_eq_false] at hs
  obtain ⟨h1, h2, h3⟩ := has_iff.1 hr
  obtain ⟨h4, h5, h6⟩ := has_iff.1 hs
  simp only [apart, Nat.blt_eq, Bool.or_eq_true, Bool.and_eq_true, Nat.beq_eq,
    Bool.not_eq_true'] at h
  rcases h with (((h | h) | ⟨⟨hr2, hs2⟩, hp⟩) | ⟨he, hn⟩) | ⟨he, hn⟩
  · omega
  · omega
  · have hr3 := Nat.dvd_trans (Nat.dvd_of_mod_eq_zero hr2) h3
    have hs3 := Nat.dvd_trans (Nat.dvd_of_mod_eq_zero hs2) h6
    omega
  · have hc : c = r.first := by omega
    rw [← hc, hs] at hn
    cases hn
  · have hc : c = s.first := by omega
    rw [← hc, hr] at hn
    cases hn

/-- The code points that a shift gives. -/
def Shift.image (s : Shift) : Run :=
  ⟨(s.first + s.delta).toNat, (s.last + s.delta).toNat, s.step⟩

theorem Shift.image?_eq_some {s : Shift} {c n : Nat} (hs : 0 ≤ s.first + s.delta)
    (h : s.image? c = some n) : s.toRun.has c ∧ s.image.has n := by
  rw [image?] at h
  split_ifs at h with hc
  cases h
  refine ⟨hc, ?_⟩
  obtain ⟨h1, h2, h3⟩ := Run.has_iff.1 hc
  refine Run.has_iff.2 ⟨?_, ?_, ?_⟩
  · show (s.first + s.delta).toNat ≤ _
    omega
  · show _ ≤ (s.last + s.delta).toNat
    omega
  · have hd : (c + s.delta : Int).toNat - (s.first + s.delta).toNat = c - s.first := by omega
    exact hd ▸ h3

/-! ### The tables -/

theorem upperShifts_domain : upperShifts.all (fun s => uppercase.all s.toRun.apart) = true := by
  decide +kernel

theorem upperShifts_image : upperShifts.all (fun s =>
    decide (0 ≤ s.first + s.delta) && lowercase.all s.image.apart) = true := by
  decide +kernel

theorem upperSequences_apart : upperSequences.all (fun x => !uppercase.any (·.has x.1) &&
    x.2.head?.any fun n => !lowercase.any (·.has n)) = true := by
  decide +kernel

theorem isLower_ofNat {n : Nat} (h : lowercase.any (·.has n) = false) :
    isLower (Char.ofNat n) = false := by
  rw [isLower, Char.ofNat]
  by_cases hn : n.isValidChar
  · have hnat : (Char.ofNatAux n hn).toNat = n := rfl
    rw [dif_pos hn, hnat]
    exact h
  · rw [dif_neg hn]
    decide +kernel

/-- A character with another form is no capital letter, and the form starts with no small letter. -/
theorem upper_cases (c : Char) : upper c = [c] ∨
    isUpper c = false ∧ ∃ b bs, upper c = b :: bs ∧ isLower b = false := by
  rw [upper, mapped]
  cases hseq : upperSequences.lookup c.toNat with
  | some ns =>
    right
    obtain ⟨l, r, hl, -⟩ := List.lookup_eq_some_iff.1 hseq
    have hmem : (c.toNat, ns) ∈ upperSequences := hl ▸ List.mem_append_right l List.mem_cons_self
    have h := List.all_eq_true.1 upperSequences_apart _ hmem
    simp only [Bool.and_eq_true, Bool.not_eq_true', Option.any_eq_true] at h
    obtain ⟨hc, n, hn, hnl⟩ := h
    obtain ⟨rest, rfl⟩ := List.head?_eq_some_iff.1 hn
    exact ⟨hc, Char.ofNat n, rest.map Char.ofNat, rfl, isLower_ofNat hnl⟩
  | none =>
    dsimp only
    cases hshift : upperShifts.findSome? (·.image? c.toNat) with
    | none => exact .inl rfl
    | some n =>
      right
      obtain ⟨s, hs, hn⟩ := List.exists_of_findSome?_eq_some hshift
      have himage := List.all_eq_true.1 upperShifts_image s hs
      rw [Bool.and_eq_true, decide_eq_true_eq] at himage
      obtain ⟨hc, hn⟩ := Shift.image?_eq_some himage.1 hn
      refine ⟨?_, Char.ofNat n, [], rfl, isLower_ofNat ?_⟩
      · rw [isUpper, List.any_eq_false]
        intro r hr
        rw [Run.not_has_of_apart
          (List.all_eq_true.1 (List.all_eq_true.1 upperShifts_domain s hs) r hr) hc]
        exact Bool.false_ne_true
      · rw [List.any_eq_false]
        intro r hr
        rw [Run.not_has_of_apart (List.all_eq_true.1 himage.2 r hr) hn]
        exact Bool.false_ne_true

/-! ### Texts -/

theorem capitalise_eq_self {s : String} (h : ∀ c ∈ s.toList.head?, upper c = [c]) :
    capitalise s = s := by
  rw [capitalise]
  cases hs : s.toList with
  | nil => exact (String.toList_eq_nil_iff.1 hs).symm
  | cons c cs =>
    rw [hs] at h
    dsimp only
    rw [h c rfl, List.singleton_append, ← hs, String.ofList_toList]

theorem capitalise_of_startsUpper {s : String} (h : startsUpper s) : capitalise s = s := by
  refine capitalise_eq_self fun c hc => ?_
  rw [startsUpper, Option.mem_def.1 hc] at h
  rcases upper_cases c with hu | ⟨hu, -⟩
  · exact hu
  · rw [Option.any_some, hu] at h
    cases h

/-- A text that still starts with a small letter when it was capitalised is as it was before. -/
theorem capitalise_of_startsLower {s : String} (h : startsLower (capitalise s)) :
    capitalise s = s := by
  refine capitalise_eq_self fun c hc => ?_
  obtain ⟨cs, hs⟩ := List.head?_eq_some_iff.1 hc
  rcases upper_cases c with hu | ⟨-, b, bs, hu, hl⟩
  · exact hu
  · rw [startsLower, capitalise, hs] at h
    dsimp only at h
    rw [String.toList_ofList, hu, List.cons_append, List.head?_cons, Option.any_some, hl] at h
    cases h

/-! ### Lower case -/

theorem lowerSequences_nonempty : lowerSequences.all (fun x => !x.2.isEmpty) = true := by
  decide +kernel

theorem mapped_ne_nil {sequences : List (Nat × List Nat)} {shifts : List Shift} (c : Char)
    (h : sequences.all (fun x => !x.2.isEmpty)) : mapped sequences shifts c ≠ [] := by
  rw [mapped]
  split
  · next ns hs =>
    obtain ⟨l, r, hl, -⟩ := List.lookup_eq_some_iff.1 hs
    have hmem : (c.toNat, ns) ∈ sequences := hl ▸ List.mem_append_right l List.mem_cons_self
    simpa using List.all_eq_true.1 h _ hmem
  · split <;> exact List.cons_ne_nil _ _

theorem length_lowerAfter (before cs : List Char) : cs.length ≤ (lowerAfter before cs).length := by
  induction cs generalizing before with
  | nil => exact Nat.zero_le _
  | cons c cs ih =>
    rw [lowerAfter, List.length_append, List.length_cons]
    have hone : 0 < (if c == 'Σ' then [lowerSigma before cs]
        else mapped lowerSequences lowerShifts c).length := by
      split_ifs
      · exact Nat.zero_lt_one
      · exact List.length_pos_of_ne_nil (mapped_ne_nil c lowerSequences_nonempty)
    have := ih (c :: before)
    omega

/-- Lower case makes no text shorter. -/
theorem length_lower (s : String) : s.toList.length ≤ (lower s).toList.length := by
  rw [lower, String.toList_ofList]
  exact length_lowerAfter [] s.toList

end JsxLint.Letter
