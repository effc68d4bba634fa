import CodeAtlas.Position
import CodeAtlas.Text.Basic

/-!
# Reading numbers

Machine words, written as decimal digits with an optional plus sign, and decimal fractions, of which
it is only asked whether they lie in the range of double-precision numbers.
-/

namespace CodeAtlas.Text

private def digitsValue (t : Text) : Nat := t.foldl (fun n c => 10 * n + (c.toNat - '0'.toNat)) 0

def toWord? (t : Text) : Option Nat :=
  let digits := match t with
    | '+' :: rest => rest
    | t => t
  if digits ≠ [] ∧ digits.all Char.isDigit ∧ digitsValue digits ≤ maxWord then
    some (digitsValue digits)
  else none

/-- The number that some digits write in base ten; other characters are passed over. -/
def digitsToNat (t : Text) : Nat :=
  t.foldl (fun n c => if c.isDigit then 10 * n + (c.toNat - '0'.toNat) else n) 0

/-- The parts of an unsigned decimal: digits before the point, digits after it, and the exponent
with its sign. -/
structure Decimal where
  whole : Text
  fraction : Text
  exponent : Text
  deriving DecidableEq, Repr

namespace Decimal

/-- The parts of a decimal written as digits, `.` and digits, `e` or `E` and a signed exponent. -/
def ofText (t : Text) : Decimal :=
  let isMark (c : Char) : Bool := c == 'e' || c == 'E'
  let front := t.takeWhile (!isMark ·)
  ⟨front.takeWhile (· != '.'), (front.dropWhile (· != '.')).drop 1,
    (t.dropWhile (!isMark ·)).drop 1⟩

/-- Whether a decimal rounds to a number beyond the largest double. -/
def overflows (d : Decimal) : Bool :=
  let digits := digitsToNat (d.whole ++ d.fraction)
  let size := digitsToNat d.exponent
  let power : Int := if d.exponent.head? = some '-' then -(size : Int) else size
  let scale := power - d.fraction.length
  let bound := Nat.pow 2 1024 - Nat.pow 2 970
  if digits = 0 then false
  else if 0 ≤ scale then 400 ≤ scale || bound ≤ digits * Nat.pow 10 scale.toNat
  else bound * Nat.pow 10 (min (-scale).toNat (d.whole.length + d.fraction.length)) ≤ digits

end Decimal

end CodeAtlas.Text
