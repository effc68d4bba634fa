import CodeAtlas.Text.Number
import CodeAtlas.Toml.Basic

/-!
# Numbers, truth values and moments in TOML

Each is written as one word, which is classified as a whole.
-/

namespace CodeAtlas.Toml

/-- The value of a digit in a base up to sixteen. -/
def digit? (base : Nat) (c : Char) : Option Nat :=
  let value :=
    if c.isDigit then c.toNat - 48
    else if 'a' ≤ c ∧ c ≤ 'f' then c.toNat - 87
    else if 'A' ≤ c ∧ c ≤ 'F' then c.toNat - 55
    else base
  if value < base then some value else none

/-- Whether a text is digits of a base with single underscores between them. -/
private def areDigits (base : Nat) (t : Text) : Bool :=
  (t.splitOn '_').all fun part => part ≠ [] && part.all fun c => (digit? base c).isSome

private def digitsValue (base : Nat) (t : Text) : Nat :=
  t.foldl (fun n c => match digit? base c with | some d => base * n + d | none => n) 0

/-- Decimal digits that do not start with a zero, unless it is the only one. -/
private def isWhole (t : Text) : Bool := areDigits 10 t && (t.head? ≠ some '0' || t = ['0'])

private def splitSign (t : Text) : Option Char × Text :=
  match t with
  | '+' :: rest => (some '+', rest)
  | '-' :: rest => (some '-', rest)
  | t => (none, t)

private def inWord (n : Int) : Option Int :=
  if -0x8000000000000000 ≤ n ∧ n < 0x8000000000000000 then some n else none

private def based? (base : Nat) (t : Text) : Option Int :=
  if areDigits base t then inWord (digitsValue base t) else none

def integer? (t : Text) : Option Int :=
  match t with
  | '0' :: 'x' :: digits => based? 16 digits
  | '0' :: 'o' :: digits => based? 8 digits
  | '0' :: 'b' :: digits => based? 2 digits
  | t =>
      let (sign, digits) := splitSign t
      if isWhole digits then
        let n : Int := digitsValue 10 digits
        inWord (if sign = some '-' then -n else n)
      else none

/-- Whether a word writes a fraction; one beyond the largest double does not. -/
def isFloat (t : Text) : Bool :=
  let (sign, body) := splitSign t
  if body = "inf".toList || body = "nan".toList then true
  else
    let d := Text.Decimal.ofText body
    let hasPoint := body.contains '.'
    let hasMark := body.any fun c => c == 'e' || c == 'E'
    isWhole d.whole && (hasPoint || hasMark) && (!hasPoint || areDigits 10 d.fraction) &&
      (!hasMark || areDigits 10 (splitSign d.exponent).2) &&
      (sign = some '-' ||
        !(Text.Decimal.mk (d.whole.filter (· != '_')) (d.fraction.filter (· != '_'))
          d.exponent).overflows)

/-- Take a number of exactly `count` digits between two bounds. -/
private def takeNumber? (count low high : Nat) (t : Text) : Option (Nat × Text) :=
  let digits := t.take count
  let n := digitsValue 10 digits
  if digits.length = count && digits.all Char.isDigit && low ≤ n && n ≤ high then
    some (n, t.drop count)
  else none

private def takeChar? (c : Char) : Text → Option Text
  | d :: rest => if c = d then some rest else none
  | [] => none

private def daysIn (year month : Nat) : Nat :=
  if month = 2 then
    if (year % 4 = 0 && year % 100 ≠ 0) || year % 400 = 0 then 29 else 28
  else if [4, 6, 9, 11].contains month then 30
  else 31

private def takeDate? (t : Text) : Option Text := do
  let (year, t) ← takeNumber? 4 0 9999 t
  let (month, t) ← takeNumber? 2 1 12 (← takeChar? '-' t)
  let (_, t) ← takeNumber? 2 1 (daysIn year month) (← takeChar? '-' t)
  return t

private def takeTime? (t : Text) : Option Text := do
  let (_, t) ← takeNumber? 2 0 23 t
  let (_, t) ← takeNumber? 2 0 59 (← takeChar? ':' t)
  let (_, t) ← takeNumber? 2 0 60 (← takeChar? ':' t)
  match t with
  | '.' :: rest =>
      if (rest.head?.map Char.isDigit).getD false then some (rest.dropWhile Char.isDigit) else none
  | t => some t

private def isOffset (t : Text) : Bool :=
  match t with
  | [] => true
  | ['Z'] => true
  | ['z'] => true
  | c :: rest =>
      (c = '+' || c = '-') &&
        (do
          let (_, t) ← takeNumber? 2 0 23 rest
          let (_, t) ← takeNumber? 2 0 59 (← takeChar? ':' t)
          if t = [] then some () else none).isSome

/-- Whether a word writes a date, a time, or both with or without an offset. -/
def isMoment (t : Text) : Bool :=
  match takeDate? t with
  | some [] => true
  | some (c :: rest) =>
      (c = 'T' || c = 't' || c = ' ') && ((takeTime? rest).map isOffset).getD false
  | none => takeTime? t = some []

def scalar? (t : Text) : Option Value :=
  if t = "true".toList then some (.boolean true)
  else if t = "false".toList then some (.boolean false)
  else if isMoment t then some .moment
  else
    match integer? t with
    | some n => some (.integer n)
    | none => if isFloat t then some .float else none

end CodeAtlas.Toml
