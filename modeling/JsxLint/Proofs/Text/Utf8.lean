import Mathlib.Data.List.Basic
import JsxLint.Text.Utf8

/-!
# Encoding and decoding

What is encoded can be decoded, and gives the text back; nothing else decodes.

* `Head.of_utf8EncodeChar`, `Head.of_eq_char`: one character, whatever follows it;
* `decodeLossy_encode`, `decode?_eq_ok`: whole texts.
-/

namespace JsxLint.Utf8

/-! ### One character -/

/-- A continuation byte is read onto the value so far. -/
theorem Head.continue_cons {more part value used : Nat} {low high : UInt8} {bs : Bytes}
    (hl : low.toNat ≤ part + 0x80) (hh : part + 0x80 ≤ high.toNat) :
    Head.continue (more + 1) low high value used (.ofNat (part + 0x80) :: bs) =
      Head.continue more 0x80 0xBF (value * 64 + part) (used + 1) bs := by
  have hb : part + 0x80 < 256 := Nat.lt_of_le_of_lt hh high.toNat_lt
  have h : low ≤ .ofNat (part + 0x80) ∧ .ofNat (part + 0x80) ≤ high := by
    simp only [UInt8.le_iff_toNat_le, UInt8.toNat_ofNat_of_lt' hb]
    exact ⟨hl, hh⟩
  rw [Head.continue, if_pos h, UInt8.toNat_ofNat_of_lt' hb, Nat.add_sub_cancel]

theorem Head.continue_low {more part value used : Nat} {bs : Bytes} (h : part < 64) :
    Head.continue (more + 1) 0x80 0xBF value used (.ofNat (part + 0x80) :: bs) =
      Head.continue more 0x80 0xBF (value * 64 + part) (used + 1) bs :=
  Head.continue_cons (show 0x80 ≤ _ by omega) (show _ ≤ 0xBF by omega)

theorem Head.of_ofNat {n : Nat} (hn : n < 256) (bs : Bytes) :
    Head.of (.ofNat n) bs =
      if n < 0x80 then .char (Char.ofNat n) 0
      else if n < 0xC2 then .bad .invalidStart 0
      else if n < 0xE0 then Head.continue 1 0x80 0xBF (n - 0xC0) 0 bs
      else if n = 0xE0 then Head.continue 2 0xA0 0xBF 0 0 bs
      else if n = 0xED then Head.continue 2 0x80 0x9F 0xD 0 bs
      else if n < 0xF0 then Head.continue 2 0x80 0xBF (n - 0xE0) 0 bs
      else if n = 0xF0 then Head.continue 3 0x90 0xBF 0 0 bs
      else if n < 0xF4 then Head.continue 3 0x80 0xBF (n - 0xF0) 0 bs
      else if n = 0xF4 then Head.continue 3 0x80 0x8F 4 0 bs
      else .bad .invalidStart 0 := by
  simp only [Head.of, UInt8.lt_iff_toNat_lt, ← UInt8.toNat_inj, UInt8.toNat_ofNat_of_lt' hn]
  rfl

section Lead

variable {a b c : Nat} {rest : Bytes}

theorem Head.of_two (ha : 2 ≤ a ∧ a < 32) (hb : b < 64) :
    Head.of (.ofNat (a + 0xC0)) (.ofNat (b + 0x80) :: rest) = .char (Char.ofNat (a * 64 + b)) 1 := by
  rw [Head.of_ofNat (by omega), if_neg (by omega), if_neg (by omega), if_pos (by omega),
    Head.continue_low hb, Nat.add_sub_cancel]
  rfl

theorem Head.of_three (ha : a < 16) (hb : b < 64) (hc : c < 64)
    (hs : 0x800 ≤ (a * 64 + b) * 64 + c)
    (hr : (a * 64 + b) * 64 + c < 0xD800 ∨ 0xDFFF < (a * 64 + b) * 64 + c) :
    Head.of (.ofNat (a + 0xE0)) (.ofNat (b + 0x80) :: .ofNat (c + 0x80) :: rest) =
      .char (Char.ofNat ((a * 64 + b) * 64 + c)) 2 := by
  rw [Head.of_ofNat (by omega), if_neg (by omega), if_neg (by omega), if_neg (by omega)]
  split_ifs with h1 h2 h3
  · obtain rfl : a = 0 := by omega
    rw [Head.continue_cons (show 0xA0 ≤ _ by omega) (show _ ≤ 0xBF by omega), Head.continue_low hc]
    rfl
  · obtain rfl : a = 13 := by omega
    rw [Head.continue_cons (show 0x80 ≤ _ by omega) (show _ ≤ 0x9F by omega), Head.continue_low hc]
    rfl
  · rw [Head.continue_low hb, Head.continue_low hc, Nat.add_sub_cancel]
    rfl
  all_goals omega

theorem Head.of_four {d : Nat} (ha : a < 8) (hb : b < 64) (hc : c < 64) (hd : d < 64)
    (hs : 0x10000 ≤ ((a * 64 + b) * 64 + c) * 64 + d)
    (hr : ((a * 64 + b) * 64 + c) * 64 + d < 0x110000) :
    Head.of (.ofNat (a + 0xF0))
        (.ofNat (b + 0x80) :: .ofNat (c + 0x80) :: .ofNat (d + 0x80) :: rest) =
      .char (Char.ofNat (((a * 64 + b) * 64 + c) * 64 + d)) 3 := by
  rw [Head.of_ofNat (by omega), if_neg (by omega), if_neg (by omega), if_neg (by omega),
    if_neg (by omega), if_neg (by omega), if_neg (by omega)]
  split_ifs with h1 h2 h3
  · obtain rfl : a = 0 := by omega
    rw [Head.continue_cons (show 0x90 ≤ _ by omega) (show _ ≤ 0xBF by omega),
      Head.continue_low hc, Head.continue_low hd]
    rfl
  · rw [Head.continue_low hb, Head.continue_low hc, Head.continue_low hd, Nat.add_sub_cancel]
    rfl
  · obtain rfl : a = 4 := by omega
    rw [Head.continue_cons (show 0x80 ≤ _ by omega) (show _ ≤ 0x8F by omega),
      Head.continue_low hc, Head.continue_low hd]
    rfl
  · omega

end Lead

/-- The bytes of a character are read back as that character, whatever follows. -/
theorem Head.of_utf8EncodeChar (c : Char) : ∃ b bs, String.utf8EncodeChar c = b :: bs ∧
    ∀ rest, Head.of b (bs ++ rest) = .char c bs.length := by
  have hv : c.val.toNat < 0xD800 ∨ 0xDFFF < c.val.toNat ∧ c.val.toNat < 0x110000 := c.valid
  have hc : Char.ofNat c.val.toNat = c := Char.ofNat_toNat c
  rw [String.utf8EncodeChar]
  generalize c.val.toNat = v at hv hc
  split_ifs with h1 h2 h3
  · refine ⟨_, _, rfl, fun rest => ?_⟩
    rw [Head.of_ofNat (by omega), if_pos (by omega), hc]
    rfl
  · refine ⟨_, _, rfl, fun rest => (Head.of_two (by omega) (by omega)).trans ?_⟩
    rw [show v / 64 % 32 * 64 + v % 64 = v by omega, hc]
    rfl
  · refine ⟨_, _, rfl, fun rest => (Head.of_three (by omega) (by omega) (by omega) ?_ ?_).trans ?_⟩
    · omega
    · omega
    · rw [show (v / 4096 % 16 * 64 + v / 64 % 64) * 64 + v % 64 = v by omega, hc]
      rfl
  · refine ⟨_, _, rfl, fun rest =>
      (Head.of_four (by omega) (by omega) (by omega) (by omega) ?_ ?_).trans ?_⟩
    · omega
    · omega
    · rw [show ((v / 262144 % 8 * 64 + v / 4096 % 64) * 64 + v / 64 % 64) * 64 + v % 64 = v
        by omega, hc]
      rfl

/-! ### Back to the bytes -/

/-- Reading a continuation byte has read its part of the value. -/
theorem Head.continue_eq_char {n value used m : Nat} {low high : UInt8} {c : Char} {bs : Bytes}
    (h : Head.continue (n + 1) low high value used bs = .char c m) (hl : 0x80 ≤ low.toNat) :
    ∃ part rest, bs = .ofNat (part + 0x80) :: rest ∧ low.toNat ≤ part + 0x80 ∧
      part + 0x80 ≤ high.toNat ∧
      Head.continue n 0x80 0xBF (value * 64 + part) (used + 1) rest = .char c m := by
  cases bs with
  | nil => cases h
  | cons b rest =>
    rw [Head.continue] at h
    split_ifs at h with hb
    simp only [UInt8.le_iff_toNat_le] at hb
    have hp : b.toNat - 0x80 + 0x80 = b.toNat := Nat.sub_add_cancel (Nat.le_trans hl hb.1)
    refine ⟨b.toNat - 0x80, rest, ?_, ?_, ?_, h⟩
    · rw [hp, UInt8.ofNat_toNat]
    · rw [hp]; exact hb.1
    · rw [hp]; exact hb.2

theorem Head.continue_low_eq_char {n value used m : Nat} {c : Char} {bs : Bytes}
    (h : Head.continue (n + 1) 0x80 0xBF value used bs = .char c m) :
    ∃ part rest, bs = .ofNat (part + 0x80) :: rest ∧ part < 64 ∧
      Head.continue n 0x80 0xBF (value * 64 + part) (used + 1) rest = .char c m := by
  obtain ⟨part, rest, hbs, -, hp, h⟩ := Head.continue_eq_char h (by decide)
  have hb : part + 0x80 ≤ 0xBF := hp
  exact ⟨part, rest, hbs, by omega, h⟩

theorem utf8EncodeChar_ofNat {n : Nat} (h : n < 0xD800 ∨ 0xDFFF < n ∧ n < 0x110000) :
    String.utf8EncodeChar (Char.ofNat n) =
      if n ≤ 0x7F then [.ofNat n]
      else if n ≤ 0x7FF then [.ofNat (n / 64 % 32 + 0xC0), .ofNat (n % 64 + 0x80)]
      else if n ≤ 0xFFFF then
        [.ofNat (n / 4096 % 16 + 0xE0), .ofNat (n / 64 % 64 + 0x80), .ofNat (n % 64 + 0x80)]
      else
        [.ofNat (n / 262144 % 8 + 0xF0), .ofNat (n / 4096 % 64 + 0x80), .ofNat (n / 64 % 64 + 0x80),
          .ofNat (n % 64 + 0x80)] := by
  have hn : (Char.ofNat n).val.toNat = n := by
    have hv : n.isValidChar := h
    rw [Char.ofNat, dif_pos hv]
    rfl
  rw [String.utf8EncodeChar]
  simp only [hn]

theorem utf8EncodeChar_two {a b : Nat} (ha : 2 ≤ a ∧ a < 32) (hb : b < 64) :
    String.utf8EncodeChar (Char.ofNat (a * 64 + b)) = [.ofNat (a + 0xC0), .ofNat (b + 0x80)] := by
  rw [utf8EncodeChar_ofNat (by omega), if_neg (by omega), if_pos (by omega),
    show (a * 64 + b) / 64 % 32 = a by omega, show (a * 64 + b) % 64 = b by omega]

theorem utf8EncodeChar_three {a b c : Nat} (ha : a < 16) (hb : b < 64) (hc : c < 64)
    (hs : 0x800 ≤ (a * 64 + b) * 64 + c)
    (hr : (a * 64 + b) * 64 + c < 0xD800 ∨ 0xDFFF < (a * 64 + b) * 64 + c) :
    String.utf8EncodeChar (Char.ofNat ((a * 64 + b) * 64 + c)) =
      [.ofNat (a + 0xE0), .ofNat (b + 0x80), .ofNat (c + 0x80)] := by
  rw [utf8EncodeChar_ofNat (by omega), if_neg (by omega), if_neg (by omega), if_pos (by omega),
    show ((a * 64 + b) * 64 + c) / 4096 % 16 = a by omega,
    show ((a * 64 + b) * 64 + c) / 64 % 64 = b by omega,
    show ((a * 64 + b) * 64 + c) % 64 = c by omega]

theorem utf8EncodeChar_four {a b c d : Nat} (hb : b < 64) (hc : c < 64) (hd : d < 64)
    (hs : 0x10000 ≤ ((a * 64 + b) * 64 + c) * 64 + d)
    (hr : ((a * 64 + b) * 64 + c) * 64 + d < 0x110000) :
    String.utf8EncodeChar (Char.ofNat (((a * 64 + b) * 64 + c) * 64 + d)) =
      [.ofNat (a + 0xF0), .ofNat (b + 0x80), .ofNat (c + 0x80), .ofNat (d + 0x80)] := by
  rw [utf8EncodeChar_ofNat (by omega), if_neg (by omega), if_neg (by omega), if_neg (by omega),
    show (((a * 64 + b) * 64 + c) * 64 + d) / 262144 % 8 = a by omega,
    show (((a * 64 + b) * 64 + c) * 64 + d) / 4096 % 64 = b by omega,
    show (((a * 64 + b) * 64 + c) * 64 + d) / 64 % 64 = c by omega,
    show (((a * 64 + b) * 64 + c) * 64 + d) % 64 = d by omega]

theorem Head.three_eq_char {a m : Nat} {low high : UInt8} {c : Char} {bs : Bytes}
    (h : Head.continue 2 low high a 0 bs = .char c m) (ha : a < 16)
    (hl : 0x80 ≤ low.toNat) (hh : high.toNat ≤ 0xBF)
    (hv : ∀ v, a * 64 + low.toNat ≤ v / 64 + 0x80 → v / 64 + 0x80 ≤ a * 64 + high.toNat →
      0x800 ≤ v ∧ (v < 0xD800 ∨ 0xDFFF < v)) :
    ∃ part rest, bs = part ++ rest ∧ part.length = m ∧
      String.utf8EncodeChar c = .ofNat (a + 0xE0) :: part := by
  obtain ⟨b, r, rfl, h1, h2, h⟩ := Head.continue_eq_char h hl
  obtain ⟨d, r', rfl, hd, h⟩ := Head.continue_low_eq_char h
  cases h
  have hb : b < 64 := by omega
  obtain ⟨hs, hr⟩ := hv ((a * 64 + b) * 64 + d) (by omega) (by omega)
  exact ⟨[_, _], r', rfl, rfl, utf8EncodeChar_three ha hb hd hs hr⟩

theorem Head.four_eq_char {a m : Nat} {low high : UInt8} {c : Char} {bs : Bytes}
    (h : Head.continue 3 low high a 0 bs = .char c m)
    (hl : 0x80 ≤ low.toNat) (hh : high.toNat ≤ 0xBF)
    (hv : 0x90 ≤ a * 64 + low.toNat ∧ a * 64 + high.toNat < 0x190) :
    ∃ part rest, bs = part ++ rest ∧ part.length = m ∧
      String.utf8EncodeChar c = .ofNat (a + 0xF0) :: part := by
  obtain ⟨b, r, rfl, h1, h2, h⟩ := Head.continue_eq_char h hl
  obtain ⟨d, r', rfl, hd, h⟩ := Head.continue_low_eq_char h
  obtain ⟨e, r'', rfl, he, h⟩ := Head.continue_low_eq_char h
  cases h
  exact ⟨[_, _, _], r'', rfl, rfl, utf8EncodeChar_four (by omega) hd he (by omega) (by omega)⟩

/-- A character that is read is spelled by the bytes that it was read from. -/
theorem Head.of_eq_char {b : UInt8} {bs : Bytes} {c : Char} {m : Nat}
    (h : Head.of b bs = .char c m) :
    ∃ part rest, bs = part ++ rest ∧ part.length = m ∧ String.utf8EncodeChar c = b :: part := by
  obtain ⟨n, hn, rfl⟩ : ∃ n < 256, b = .ofNat n :=
    ⟨b.toNat, b.toNat_lt, UInt8.ofNat_toNat.symm⟩
  rw [Head.of_ofNat hn] at h
  split_ifs at h with h1 h2 h3 h4 h5 h6 h7 h8 h9
  · cases h
    exact ⟨[], bs, rfl, rfl, by rw [utf8EncodeChar_ofNat (by omega), if_pos (by omega)]⟩
  · obtain ⟨a, r, rfl, ha, h⟩ := Head.continue_low_eq_char h
    cases h
    refine ⟨[_], r, rfl, rfl, ?_⟩
    rw [utf8EncodeChar_two (by omega) ha, Nat.sub_add_cancel (by omega)]
  · subst h4
    refine Head.three_eq_char h (by omega) (by decide) (by decide) ?_
    show ∀ v, 0 * 64 + 0xA0 ≤ v / 64 + 0x80 → v / 64 + 0x80 ≤ 0 * 64 + 0xBF → _
    omega
  · subst h5
    refine Head.three_eq_char h (by omega) (by decide) (by decide) ?_
    show ∀ v, 0xD * 64 + 0x80 ≤ v / 64 + 0x80 → v / 64 + 0x80 ≤ 0xD * 64 + 0x9F → _
    omega
  · rw [← Nat.sub_add_cancel (show 0xE0 ≤ n by omega)]
    refine Head.three_eq_char h (by omega) (by decide) (by decide) ?_
    show ∀ v, (n - 0xE0) * 64 + 0x80 ≤ v / 64 + 0x80 → v / 64 + 0x80 ≤ (n - 0xE0) * 64 + 0xBF → _
    omega
  · subst h7
    exact Head.four_eq_char h (by decide) (by decide) (by decide)
  · rw [← Nat.sub_add_cancel (show 0xF0 ≤ n by omega)]
    refine Head.four_eq_char h (by decide) (by decide) ?_
    show 0x90 ≤ (n - 0xF0) * 64 + 0x80 ∧ (n - 0xF0) * 64 + 0xBF < 0x190
    omega
  · subst h9
    exact Head.four_eq_char h (by decide) (by decide) (by decide)

/-! ### Texts -/

theorem encode_ofList (cs : List Char) : encode (.ofList cs) = cs.flatMap String.utf8EncodeChar := by
  rw [encode, String.toList_ofList]

theorem encode_append (s t : String) : encode (s ++ t) = encode s ++ encode t := by
  rw [encode, String.toList_append, List.flatMap_append]
  rfl

theorem decodeLossyFrom_append (bs rest : Bytes) :
    decodeLossyFrom bs.length (bs ++ rest) = decodeLossy rest := by
  induction bs with
  | nil => rfl
  | cons b bs ih => exact ih

theorem decodeFrom_append (bs rest : Bytes) (offset : Nat) :
    decodeFrom offset bs.length (bs ++ rest) = decodeFrom (offset + bs.length) 0 rest := by
  induction bs generalizing offset with
  | nil => rfl
  | cons b bs ih =>
    rw [List.length_cons, List.cons_append, decodeFrom, ih, Nat.add_right_comm, Nat.add_assoc]

theorem decodeLossy_flatMap (cs : List Char) :
    decodeLossy (cs.flatMap String.utf8EncodeChar) = cs := by
  induction cs with
  | nil => rfl
  | cons c cs ih =>
    obtain ⟨b, bs, hc, hh⟩ := Head.of_utf8EncodeChar c
    rw [List.flatMap_cons, hc, List.cons_append, decodeLossy, decodeLossyFrom, hh]
    exact congrArg (c :: ·) ((decodeLossyFrom_append bs _).trans ih)

theorem decodeFrom_flatMap (cs : List Char) (offset : Nat) :
    decodeFrom offset 0 (cs.flatMap String.utf8EncodeChar) = .ok cs := by
  induction cs generalizing offset with
  | nil => rfl
  | cons c cs ih =>
    obtain ⟨b, bs, hc, hh⟩ := Head.of_utf8EncodeChar c
    rw [List.flatMap_cons, hc, List.cons_append, decodeFrom, hh]
    dsimp only
    rw [decodeFrom_append, ih]
    rfl

/-- A text is got back from its bytes. -/
@[simp] theorem decodeLossy_encode (s : String) : decodeLossy (encode s) = s.toList :=
  decodeLossy_flatMap s.toList

/-- The bytes of a text have no defect. -/
@[simp] theorem decode?_encode (s : String) : decode? (encode s) = .ok s := by
  rw [decode?, encode, decodeFrom_flatMap]
  exact congrArg Except.ok String.ofList_toList

theorem decodeFrom_cons_eq_ok {b : UInt8} {bs : Bytes} {offset : Nat} {cs : List Char}
    (h : decodeFrom offset 0 (b :: bs) = .ok cs) :
    ∃ c m cs', Head.of b bs = .char c m ∧ cs = c :: cs' ∧ decodeFrom (offset + 1) m bs = .ok cs' := by
  rw [decodeFrom] at h
  cases hb : Head.of b bs with
  | bad reason m =>
    rw [hb] at h
    cases h
  | char c m =>
    rw [hb] at h
    dsimp only at h
    cases hd : decodeFrom (offset + 1) m bs with
    | error e =>
      rw [hd] at h
      cases h
    | ok cs' =>
      rw [hd] at h
      cases h
      exact ⟨c, m, cs', rfl, rfl, hd⟩

/-- What decodes without a defect is the bytes of what it decodes to. -/
theorem decodeFrom_eq_ok {cs : List Char} {bs : Bytes} {offset : Nat}
    (h : decodeFrom offset 0 bs = .ok cs) : bs = cs.flatMap String.utf8EncodeChar := by
  induction cs generalizing bs offset with
  | nil =>
    cases bs with
    | nil => rfl
    | cons b bs =>
      obtain ⟨_, _, _, -, hc, -⟩ := decodeFrom_cons_eq_ok h
      cases hc
  | cons c cs ih =>
    cases bs with
    | nil => cases h
    | cons b bs =>
      obtain ⟨c', m, cs', hb, hc, h⟩ := decodeFrom_cons_eq_ok h
      cases hc
      obtain ⟨part, rest, rfl, rfl, he⟩ := Head.of_eq_char hb
      rw [decodeFrom_append] at h
      rw [List.flatMap_cons, he, ← ih h]
      rfl

/-- Bytes decode to a text just when they are its bytes. -/
theorem decode?_eq_ok {bs : Bytes} {s : String} : decode? bs = .ok s ↔ bs = encode s := by
  refine ⟨fun h => ?_, fun h => h ▸ decode?_encode s⟩
  rw [decode?] at h
  cases hd : decodeFrom 0 0 bs with
  | error e =>
    rw [hd] at h
    cases h
  | ok cs =>
    rw [hd] at h
    cases h
    rw [decodeFrom_eq_ok hd, encode_ofList]

/-- Distinct texts have distinct bytes. -/
theorem encode_injective : Function.Injective encode := fun s t h => by
  have hd := congrArg decodeLossy h
  rw [decodeLossy_encode, decodeLossy_encode] at hd
  exact String.toList_injective hd

end JsxLint.Utf8
