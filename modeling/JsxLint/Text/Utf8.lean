/-!
# Text as bytes

UTF-8 between texts and byte sequences. A sequence that is not UTF-8 has a first defect: the
longest start of a character that no further byte can complete, or a byte that starts none.

* `encode`: the bytes of a text;
* `Head.of`: what stands at the head of a byte sequence, a character or a defect;
* `decode?`: the text of a sequence, or its first `Defect`;
* `decodeLossy`: the characters of a sequence, U+FFFD for every defect.
-/

namespace JsxLint

/-- The bytes of a file or of a part of it. -/
abbrev Bytes := List UInt8

namespace Utf8

/-- The bytes of a text. -/
def encode (s : String) : Bytes :=
  s.toList.flatMap String.utf8EncodeChar

/-- Why bytes are not the beginning of a character. -/
inductive Reason
  | invalidStart
  | invalidContinuation
  | unexpectedEnd
  deriving DecidableEq, Repr

/-- What a byte and its successors begin with; the count says how many of the successors belong
to it. -/
inductive Head
  | char (c : Char) (more : Nat)
  | bad (reason : Reason) (more : Nat)
  deriving DecidableEq, Repr

/-- Read `n` continuation bytes, the first of them between `low` and `high`, onto `value`; `used`
counts those already read. -/
def Head.continue : Nat → UInt8 → UInt8 → Nat → Nat → Bytes → Head
  | 0, _, _, value, used, _ => .char (Char.ofNat value) used
  | _ + 1, _, _, _, used, [] => .bad .unexpectedEnd used
  | n + 1, low, high, value, used, b :: bs =>
    if low ≤ b ∧ b ≤ high then
      Head.continue n 0x80 0xBF (value * 64 + (b.toNat - 0x80)) (used + 1) bs
    else .bad .invalidContinuation used

/-- What stands at the head of `b :: bs`. -/
def Head.of (b : UInt8) (bs : Bytes) : Head :=
  if b < 0x80 then .char (Char.ofNat b.toNat) 0
  else if b < 0xC2 then .bad .invalidStart 0
  else if b < 0xE0 then Head.continue 1 0x80 0xBF (b.toNat - 0xC0) 0 bs
  else if b = 0xE0 then Head.continue 2 0xA0 0xBF 0 0 bs
  else if b = 0xED then Head.continue 2 0x80 0x9F 0xD 0 bs
  else if b < 0xF0 then Head.continue 2 0x80 0xBF (b.toNat - 0xE0) 0 bs
  else if b = 0xF0 then Head.continue 3 0x90 0xBF 0 0 bs
  else if b < 0xF4 then Head.continue 3 0x80 0xBF (b.toNat - 0xF0) 0 bs
  else if b = 0xF4 then Head.continue 3 0x80 0x8F 4 0 bs
  else .bad .invalidStart 0

/-- How many successors of the first byte belong to the head. -/
def Head.more : Head → Nat
  | .char _ n => n
  | .bad _ n => n

/-- The character shown for a head. -/
def Head.shown : Head → Char
  | .char c _ => c
  | .bad _ _ => Char.ofNat 0xFFFD

/-- Decode after passing over the first bytes, which belong to a head already read. -/
def decodeLossyFrom : Nat → Bytes → List Char
  | _, [] => []
  | skip + 1, _ :: bs => decodeLossyFrom skip bs
  | 0, b :: bs => (Head.of b bs).shown :: decodeLossyFrom (Head.of b bs).more bs

/-- The characters of a byte sequence, with U+FFFD for every defect. -/
def decodeLossy (bs : Bytes) : List Char :=
  decodeLossyFrom 0 bs

/-- The place and kind of the first thing that is not UTF-8. -/
structure Defect where
  /-- The byte at its start. -/
  byte : UInt8
  /-- Its offset. -/
  start : Nat
  /-- The offset of its last byte. -/
  last : Nat
  reason : Reason
  deriving DecidableEq, Repr

/-- Decode from an offset, after passing over the bytes of the head already read. -/
def decodeFrom : Nat → Nat → Bytes → Except Defect (List Char)
  | _, _, [] => .ok []
  | offset, skip + 1, _ :: bs => decodeFrom (offset + 1) skip bs
  | offset, 0, b :: bs =>
    match Head.of b bs with
    | .char c more => (c :: ·) <$> decodeFrom (offset + 1) more bs
    | .bad reason more => .error ⟨b, offset, offset + more, reason⟩

/-- The text of a byte sequence, or its first defect. -/
def decode? (bs : Bytes) : Except Defect String :=
  String.ofList <$> decodeFrom 0 0 bs

/-- The words for a reason. -/
def Reason.message : Reason → String
  | .invalidStart => "invalid start byte"
  | .invalidContinuation => "invalid continuation byte"
  | .unexpectedEnd => "unexpected end of data"

/-- A byte as two lower-case hexadecimal digits. -/
def hexByte (b : UInt8) : String :=
  String.ofList [Nat.digitChar (b.toNat / 16), Nat.digitChar (b.toNat % 16)]

/-- The words for a defect: one byte is shown, of several the offsets. -/
def Defect.message (d : Defect) : String :=
  "'utf-8' codec can't decode " ++
    (if d.start = d.last then "byte 0x" ++ hexByte d.byte ++ " in position " ++ toString d.start
     else "bytes in position " ++ toString d.start ++ "-" ++ toString d.last) ++
    ": " ++ d.reason.message

example : decodeLossy [0xE6, 0x97, 0xA5, 0xE6, 0x97] = ['日', '\uFFFD'] := by decide
example : decodeFrom 0 0 [0x61, 0xC3] = .error ⟨0xC3, 1, 1, .unexpectedEnd⟩ := rfl

end Utf8
end JsxLint
