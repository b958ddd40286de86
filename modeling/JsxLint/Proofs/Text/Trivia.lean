import Mathlib.Data.List.Induction
import Mathlib.Data.List.TakeWhile
import JsxLint.Proofs.Text.Utf8
import JsxLint.Text.Blank

/-!
# What stands between tokens

White space and comments, read one character after the other, and what becomes of them when the
end of a tag behind them is made to close the tag: ASCII white space before the end goes, unless
a `/` stands there already.

* `Trivia.step`, `IsTrivia`: a reader of what stands between tokens, and what it accepts;
* `stripBlank`, `stripEnd_encode`: a text without the ASCII white space at its end;
* `tagEnd`, `SelfCloses`: how a tag ends, and whether that is by the token `/>`;
* `selfCloses_tagEnd`: which of the tags are closed.
-/

namespace JsxLint

/-! ### Readers -/

namespace Trivia

/-- What the characters so far are the beginning of. -/
inductive Mode
  /-- Nothing; white space and comments may follow. -/
  | code
  /-- A comment, of which there is the first `/`. -/
  | slash
  /-- The inside of a comment that ends with its line. -/
  | line
  /-- The inside of a comment between `/*` and `*/`. -/
  | block
  /-- The same, behind a `*`. -/
  | star
  deriving DecidableEq, Repr

/-- The characters that end a line. -/
def isLineEnd (c : Char) : Bool :=
  c == '\n' || c == '\r' || c.toNat == 0x2028 || c.toNat == 0x2029

/-- The white space between tokens: all but U+0085, and three characters without a width. -/
def isGap (c : Char) : Bool :=
  (Text.isSpace c && c.toNat != 0x85) || [0x200B, 0x2060, 0xFEFF].contains c.toNat

/-- Read one character; there is no way on when it belongs to a token. -/
def step : Mode → Char → Option Mode
  | .code, c => if c = '/' then some .slash else if isGap c then some .code else none
  | .slash, c => if c = '/' then some .line else if c = '*' then some .block else none
  | .line, c => some (if isLineEnd c then .code else .line)
  | .block, c => some (if c = '*' then .star else .block)
  | .star, c => some (if c = '/' then .code else if c = '*' then .star else .block)

/-- Where the reading of a text leads to. -/
def mode? (s : String) : Option Mode :=
  s.toList.foldlM step .code

theorem mode?_push (cs : List Char) (c : Char) :
    mode? (.ofList (cs ++ [c])) = (mode? (.ofList cs)).bind (step · c) := by
  rw [mode?, mode?, String.toList_ofList, String.toList_ofList, List.foldlM_append]
  refine congrArg _ (funext fun m => ?_)
  cases h : step m c <;> simp [h]

end Trivia

open Trivia

/-- Whether a text is made of white space and comments. -/
def IsTrivia (s : String) : Prop :=
  mode? s = some .code

instance (s : String) : Decidable (IsTrivia s) :=
  inferInstanceAs (Decidable (mode? s = some .code))

/-! ### White space at the end -/

/-- ASCII white space. -/
def isAsciiBlank (c : Char) : Bool :=
  c.toNat == 0x20 || (0x9 ≤ c.toNat && c.toNat ≤ 0xD)

/-- A text without the ASCII white space at its end. -/
def stripBlank (s : String) : String :=
  .ofList (Text.dropEndWhile isAsciiBlank s.toList)

theorem dropEndWhile_concat {α : Type} (p : α → Bool) (l : List α) (a : α) :
    Text.dropEndWhile p (l ++ [a]) = if p a then Text.dropEndWhile p l else l ++ [a] := by
  rw [Text.dropEndWhile, List.reverse_append, List.reverse_singleton, List.singleton_append,
    List.dropWhile_cons]
  split_ifs with ha
  · rfl
  · simp

/-- What is dropped at the end are elements that the predicate holds for. -/
theorem dropEndWhile_append {α : Type} (p : α → Bool) (l : List α) :
    ∃ dropped, l = Text.dropEndWhile p l ++ dropped ∧ ∀ a ∈ dropped, p a := by
  refine ⟨(l.reverse.takeWhile p).reverse, ?_, fun a ha => ?_⟩
  · rw [Text.dropEndWhile, ← List.reverse_append, List.takeWhile_append_dropWhile,
      List.reverse_reverse]
  · exact List.mem_takeWhile_imp (List.mem_reverse.1 ha)

/-- Nothing is dropped behind an element that the predicate does not hold for. -/
theorem dropEndWhile_append_of_last {α : Type} (p : α → Bool) {l : List α}
    (hl : ∀ a ∈ l.getLast?, p a = false) (m : List α) :
    Text.dropEndWhile p (l ++ m) = l ++ Text.dropEndWhile p m := by
  induction m using List.reverseRecOn with
  | nil =>
    rcases List.eq_nil_or_concat l with rfl | ⟨l, a, rfl⟩
    · rfl
    · rw [List.concat_eq_append] at hl ⊢
      rw [List.append_nil, dropEndWhile_concat, hl a List.getLast?_concat]
      simp [Text.dropEndWhile]
  | append_singleton m a ih =>
    rw [← List.append_assoc, dropEndWhile_concat, dropEndWhile_concat, ih]
    split_ifs
    · rfl
    · rw [List.append_assoc]

/-- The last byte of a character is the whole character, or no ASCII byte. -/
theorem utf8EncodeChar_last (c : Char) :
    (c.toNat < 0x80 ∧ String.utf8EncodeChar c = [.ofNat c.toNat]) ∨
      0x80 ≤ c.toNat ∧ ∃ l b, String.utf8EncodeChar c = l ++ [b] ∧ 0x80 ≤ b.toNat := by
  have hlast : ∀ v : Nat, 0x80 ≤ (UInt8.ofNat (v % 64 + 0x80)).toNat := by
    intro v
    rw [UInt8.toNat_ofNat_of_lt' (show _ < 256 by omega)]
    omega
  rw [String.utf8EncodeChar, Char.toNat]
  generalize c.val.toNat = v
  split_ifs
  · exact .inl ⟨by omega, rfl⟩
  · exact .inr ⟨by omega, [_], _, rfl, hlast v⟩
  · exact .inr ⟨by omega, [_, _], _, rfl, hlast v⟩
  · exact .inr ⟨by omega, [_, _, _], _, rfl, hlast v⟩

namespace Bytes

theorem isBlank_iff (b : UInt8) :
    isBlank b ↔ b.toNat = 0x20 ∨ 0x9 ≤ b.toNat ∧ b.toNat ≤ 0xD := by
  simp only [isBlank, Bool.or_eq_true, beq_iff_eq, Bool.and_eq_true, decide_eq_true_eq,
    UInt8.le_iff_toNat_le, ← UInt8.toNat_inj]
  rfl

theorem stripEnd_concat (bs : Bytes) (b : UInt8) :
    stripEnd (bs ++ [b]) = if isBlank b then stripEnd bs else bs ++ [b] :=
  dropEndWhile_concat isBlank bs b

end Bytes

theorem encode_push (cs : List Char) (c : Char) :
    Utf8.encode (.ofList (cs ++ [c])) = Utf8.encode (.ofList cs) ++ String.utf8EncodeChar c := by
  rw [Utf8.encode_ofList, List.flatMap_append, List.flatMap_singleton, Utf8.encode_ofList]

/-- The same ASCII white space stands at the end of a text and of its bytes. -/
theorem stripEnd_encode (s : String) : Bytes.stripEnd (Utf8.encode s) = Utf8.encode (stripBlank s) := by
  rw [stripBlank, ← String.ofList_toList (s := s), String.toList_ofList]
  generalize s.toList = cs
  induction cs using List.reverseRecOn with
  | nil => rfl
  | append_singleton cs c ih =>
    rw [dropEndWhile_concat, encode_push]
    rcases utf8EncodeChar_last c with ⟨hc, he⟩ | ⟨hc, l, b, he, hb⟩
    · have hb : (UInt8.ofNat c.toNat).toNat = c.toNat := UInt8.toNat_ofNat_of_lt' (show _ < 256 by omega)
      have hblank : Bytes.isBlank (.ofNat c.toNat) = isAsciiBlank c := by
        rw [Bool.eq_iff_iff, Bytes.isBlank_iff, hb]
        simp [isAsciiBlank]
      rw [he, Bytes.stripEnd_concat, hblank, ih]
      split_ifs
      · rfl
      · rw [encode_push, he]
    · have hblank : ¬Bytes.isBlank b := by
        rw [Bytes.isBlank_iff]
        omega
      have hchar : ¬isAsciiBlank c = true := by
        simp [isAsciiBlank]
        omega
      rw [he, ← List.append_assoc, Bytes.stripEnd_concat, if_neg hblank, if_neg hchar, encode_push,
        he, List.append_assoc]

/-- A text ends in `/` when its bytes do. -/
theorem getLast?_encode (s : String) :
    (Utf8.encode s).getLast? = some 0x2F ↔ s.toList.getLast? = some '/' := by
  rw [← String.ofList_toList (s := s), String.toList_ofList]
  generalize s.toList = cs
  induction cs using List.reverseRecOn with
  | nil => simp [Utf8.encode]
  | append_singleton cs c _ =>
    rw [encode_push, List.getLast?_concat, Option.some.injEq]
    rcases utf8EncodeChar_last c with ⟨hc, he⟩ | ⟨hc, l, b, he, hb⟩
    · rw [he, List.getLast?_concat, Option.some.injEq, ← UInt8.toNat_inj,
        UInt8.toNat_ofNat_of_lt' (show _ < 256 by omega), ← Char.toNat_inj]
      rfl
    · rw [he, ← List.append_assoc, List.getLast?_concat, Option.some.injEq]
      refine iff_of_false (fun h => ?_) (fun h => ?_)
      · rw [h] at hb
        exact absurd hb (by decide)
      · rw [h] at hc
        exact absurd hc (by decide)

/-! ### The end of a tag -/

/-- How a tag that closes itself is printed to end, where `trivia` stands behind its last part. -/
def tagEnd (trivia : String) : String :=
  if trivia.toList.getLast? = some '/' then trivia ++ ">" else stripBlank trivia ++ " />"

/-- Whether what stands behind the last part of a tag is white space and comments up to a token
`/>`. -/
def SelfCloses (s : String) : Prop :=
  ∃ trivia, IsTrivia trivia ∧ s = trivia ++ "/>"

variable {trivia : String}

/-- A space keeps white space and comments what they are. -/
theorem isTrivia_push_space (s : String) : IsTrivia (s ++ " ") ↔ IsTrivia s := by
  have hs : String.ofList (s.toList ++ [' ']) = s ++ " " := by
    rw [String.ofList_append, String.ofList_toList]
  rw [IsTrivia, IsTrivia, ← hs, mode?_push, String.ofList_toList]
  cases mode? s with
  | none => exact Iff.rfl
  | some m => cases m <;> decide

/-- No white space is read as the second character of a comment, nor as the last of one between
`/*` and `*/`. -/
theorem mode_of_blank {m m' : Mode} {c : Char} (hc : isAsciiBlank c) (h : step m c = some m')
    (hm : m' = .code ∨ m' = .line) : m = .code ∨ m = .line := by
  have hslash : c ≠ '/' := by
    rintro rfl
    exact absurd hc (by decide)
  have hstar : c ≠ '*' := by
    rintro rfl
    exact absurd hc (by decide)
  cases m with
  | code => exact .inl rfl
  | line => exact .inr rfl
  | slash => simp [step, hslash, hstar] at h
  | block | star =>
    simp only [step, if_neg hslash, if_neg hstar, Option.some.injEq] at h
    subst h
    simp at hm

/-- When the white space at its end is gone, nothing but a line comment can be open. -/
theorem mode?_stripBlank (h : IsTrivia trivia) :
    mode? (stripBlank trivia) = some .code ∨ mode? (stripBlank trivia) = some .line := by
  obtain ⟨m, hm, hmode⟩ : ∃ m, mode? trivia = some m ∧ (m = .code ∨ m = .line) :=
    ⟨.code, h, .inl rfl⟩
  clear h
  rw [stripBlank]
  rw [← String.ofList_toList (s := trivia)] at hm
  generalize trivia.toList = cs at hm ⊢
  induction cs using List.reverseRecOn generalizing m with
  | nil => exact .inl rfl
  | append_singleton cs c ih =>
    rw [dropEndWhile_concat]
    split_ifs with hc
    · rw [mode?_push] at hm
      obtain ⟨m', hm', hread⟩ := Option.bind_eq_some_iff.1 hm
      exact ih m' (mode_of_blank hc hread hmode) hm'
    · rw [hm]
      exact hmode.imp (congrArg some) (congrArg some)

/-- The tag is closed, unless there was a block comment right before its end, which is then taken
for closed, or there is a line comment at the end when the white space is gone. -/
theorem selfCloses_tagEnd (h : IsTrivia trivia) : SelfCloses (tagEnd trivia) ↔
    trivia.toList.getLast? ≠ some '/' ∧ mode? (stripBlank trivia) ≠ some .line := by
  rw [tagEnd]
  split_ifs with hl
  · refine iff_of_false ?_ fun hn => hn.1 hl
    -- the `/` would be read as the beginning of a comment
    rintro ⟨t, ht, he⟩
    obtain ⟨cs, hcs⟩ := List.getLast?_eq_some_iff.1 hl
    have hlist := congrArg String.toList he
    rw [String.toList_append, String.toList_append, hcs, List.append_assoc] at hlist
    have hcs' : trivia = .ofList (t.toList ++ ['/']) := by
      rw [← (List.append_inj' hlist rfl).1, ← hcs, String.ofList_toList]
    rw [IsTrivia, hcs', mode?_push, String.ofList_toList, ht] at h
    exact absurd h (by decide)
  · have hclosed : SelfCloses (stripBlank trivia ++ " />") ↔ IsTrivia (stripBlank trivia) := by
      have hspace : stripBlank trivia ++ " />" = stripBlank trivia ++ " " ++ "/>" := by
        rw [String.append_assoc]
        rfl
      rw [hspace, ← isTrivia_push_space]
      refine ⟨fun ⟨t, ht, he⟩ => ?_, fun ht => ⟨_, ht, rfl⟩⟩
      rwa [(String.append_left_inj _).1 he]
    rw [hclosed, IsTrivia]
    rcases mode?_stripBlank h with hm | hm <;> simp [hm, hl]

example : ¬SelfCloses (tagEnd " /* c */") := by
  rw [selfCloses_tagEnd (by decide)]
  decide

example : ¬SelfCloses (tagEnd "\n// c\n") := by
  rw [selfCloses_tagEnd (by decide)]
  decide

/-- What does not end in white space is still there. -/
theorem infix_tagEnd {cs : List Char} (hlast : ∀ c ∈ cs.getLast?, isAsciiBlank c = false)
    (h : cs <:+: trivia.toList) : cs <:+: (tagEnd trivia).toList := by
  rw [tagEnd]
  split_ifs
  · rw [String.toList_append]
    exact h.trans (List.prefix_append _ _).isInfix
  · rw [String.toList_append]
    refine List.IsInfix.trans ?_ (List.prefix_append _ _).isInfix
    rw [stripBlank, String.toList_ofList]
    obtain ⟨dropped, hd, hblank⟩ := dropEndWhile_append isAsciiBlank trivia.toList
    rw [hd] at h
    obtain ⟨before, after, he⟩ := h
    rcases List.append_eq_append_iff.1 he with ⟨more, hmore, -⟩ | ⟨more, hmore, hdropped⟩
    · exact ⟨before, more, hmore.symm⟩
    · -- what is beyond the part that is kept is white space
      rcases List.eq_nil_or_concat cs with rfl | ⟨cs, c, rfl⟩
      · exact List.nil_infix
      · rcases List.eq_nil_or_concat more with rfl | ⟨more, b, rfl⟩
        · rw [List.append_nil] at hmore
          exact ⟨before, [], by rw [List.append_nil, hmore]⟩
        · simp only [List.concat_eq_append, ← List.append_assoc] at hmore hdropped hlast
          have hbc : b = c := by
            have hsingle := (List.append_inj' hmore rfl).2
            exact (List.singleton_inj.1 hsingle).symm
          have hb := hblank b (by rw [hdropped]; simp)
          rw [hbc, hlast c (by simp)] at hb
          cases hb

end JsxLint
