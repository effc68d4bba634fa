import CodeAtlas.Text.Basic

/-!
# UTF-8

Encoding of text as octets, and decoding that never fails: an ill-formed sequence is read up to the
first octet that cannot continue it, and each such sequence becomes one replacement character.
-/

namespace CodeAtlas

abbrev Bytes := List UInt8

/-- The octets from offset `start` up to offset `stop`. -/
def Bytes.slice (source : Bytes) (start stop : Nat) : Bytes :=
  (source.drop start).take (stop - start)

namespace Utf8

def encode (t : Text) : Bytes := t.flatMap String.utf8EncodeChar

def size (t : Text) : Nat := (encode t).length

/-- A character of which the first octets have been read: how many octets are due, the bounds of
the next one, and the value read so far. -/
structure Pending where
  due : Nat
  low : UInt8
  high : UInt8
  value : Nat

/-- What an octet at the start of a character means. -/
inductive Opening where
  | whole (c : Char)
  | start (p : Pending)
  | invalid

/-- The bounds on the second octet keep out overlong forms, surrogates and values past the last
code point. -/
def opening (b : UInt8) : Opening :=
  let n := b.toNat
  if n < 0x80 then .whole (Char.ofNat n)
  else if n < 0xC2 then .invalid
  else if n < 0xE0 then .start ⟨1, 0x80, 0xBF, n - 0xC0⟩
  else if n < 0xF0 then
    .start ⟨2, if n = 0xE0 then 0xA0 else 0x80, if n = 0xED then 0x9F else 0xBF, n - 0xE0⟩
  else if n < 0xF5 then
    .start ⟨3, if n = 0xF0 then 0x90 else 0x80, if n = 0xF4 then 0x8F else 0xBF, n - 0xF0⟩
  else .invalid

/-- The character that stands for an ill-formed sequence. -/
def replacement : Char := Char.ofNat 0xFFFD

/-- The text of a buffer of which a character may have been begun. -/
def decodeFrom : Option Pending → Bytes → Text
  | none, [] => []
  | some _, [] => [replacement]
  | none, b :: bs =>
      match opening b with
      | .whole c => c :: decodeFrom none bs
      | .start p => decodeFrom (some p) bs
      | .invalid => replacement :: decodeFrom none bs
  | some p, b :: bs =>
      if p.low ≤ b && b ≤ p.high then
        let value := p.value * 64 + (b.toNat - 0x80)
        if p.due ≤ 1 then Char.ofNat value :: decodeFrom none bs
        else decodeFrom (some ⟨p.due - 1, 0x80, 0xBF, value⟩) bs
      else
        replacement ::
          match opening b with
          | .whole c => c :: decodeFrom none bs
          | .start q => decodeFrom (some q) bs
          | .invalid => replacement :: decodeFrom none bs

/-- An octet that cannot continue a character starts a new one. -/
theorem decodeFrom_refused {p : Pending} {b : UInt8} {bs : Bytes}
    (hb : ¬(p.low ≤ b ∧ b ≤ p.high)) :
    decodeFrom (some p) (b :: bs) = replacement :: decodeFrom none (b :: bs) := by
  conv => lhs; rw [decodeFrom, if_neg (by simpa using hb)]
  rw [decodeFrom]

/-- The text of a buffer, with one replacement character per ill-formed sequence. -/
def decodeLossy (bs : Bytes) : Text := decodeFrom none bs

/-- The text of a buffer that is well-formed throughout. -/
def decode? (bs : Bytes) : Option Text :=
  let t := decodeLossy bs
  if encode t = bs then some t else none

end Utf8

end CodeAtlas
