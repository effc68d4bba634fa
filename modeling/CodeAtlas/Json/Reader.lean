import CodeAtlas.Json.Basic
import CodeAtlas.Text.Number

/-!
# Reading JSON

A text is cut into tokens by a machine that reads one character at a time, and tokens are put
together with a stack of open arrays and objects. Values nest at most 127 deep.
-/

namespace CodeAtlas.Json

inductive Token where
  | opensArray
  | closesArray
  | opensObject
  | closesObject
  | comma
  | colon
  | scalar (v : Value)
  deriving Repr, Inhabited

/-- Where the machine stands; text read so far is held back to front. -/
inductive Reading where
  | between
  | word (read : Text)
  | number (read : Text)
  | string (read : Text)
  | escape (read : Text)
  /-- Inside a four-digit escape; `high` is the first half of a pair. -/
  | unicode (read : Text) (high : Option Nat) (digits : Nat) (value : Nat)
  /-- After the first half of a pair. -/
  | pair (read : Text) (high : Nat)
  /-- After the backslash that starts the second half. -/
  | pairEscape (read : Text) (high : Nat)

private def isWordChar (c : Char) : Bool := 'a' ≤ c && c ≤ 'z'

private def isNumberChar (c : Char) : Bool := c.isDigit || "+-.eE".toList.contains c

private def wordValue? (read : Text) : Option Value :=
  match String.ofList read.reverse with
  | "null" => some .null
  | "true" => some (.boolean true)
  | "false" => some (.boolean false)
  | _ => none

private def isWhole (t : Text) : Bool :=
  t ≠ [] && t.all Char.isDigit && (t.head? ≠ some '0' || t.length == 1)

private def isExponent (t : Text) : Bool :=
  let digits := if t.head? = some '+' ∨ t.head? = some '-' then t.drop 1 else t
  digits ≠ [] && digits.all Char.isDigit

private def isNumber (t : Text) : Bool :=
  let t := if t.head? = some '-' then t.drop 1 else t
  let d := Text.Decimal.ofText t
  isWhole d.whole &&
    (!t.contains '.' || (d.fraction ≠ [] && d.fraction.all Char.isDigit)) &&
    (!t.any (fun c => c == 'e' || c == 'E') || isExponent d.exponent) && !d.overflows

private def numberValue? (read : Text) : Option Value :=
  if isNumber read.reverse then some (.number read.reverse) else none

private def isBlankChar (c : Char) : Bool := c == ' ' || c == '\n' || c == '\t' || c == '\r'

private def start (c : Char) : Option (Reading × List Token) :=
  if isBlankChar c then some (.between, [])
  else if isWordChar c then some (.word [c], [])
  else if c.isDigit || c == '-' then some (.number [c], [])
  else match c with
    | '[' => some (.between, [.opensArray])
    | ']' => some (.between, [.closesArray])
    | '\x7b' => some (.between, [.opensObject])
    | '\x7d' => some (.between, [.closesObject])
    | ',' => some (.between, [.comma])
    | ':' => some (.between, [.colon])
    | '"' => some (.string [], [])
    | _ => none

private def unescape? (c : Char) : Option Char :=
  match c with
  | '"' => some '"'
  | '\\' => some '\\'
  | '/' => some '/'
  | 'b' => some (Char.ofNat 8)
  | 'f' => some (Char.ofNat 12)
  | 'n' => some '\n'
  | 'r' => some '\r'
  | 't' => some '\t'
  | _ => none

def hexDigit? (c : Char) : Option Nat :=
  if c.isDigit then some (c.toNat - 48)
  else if 'a' ≤ c ∧ c ≤ 'f' then some (c.toNat - 87)
  else if 'A' ≤ c ∧ c ≤ 'F' then some (c.toNat - 55)
  else none

/-- What a complete four-digit escape means: the first half of a pair waits for the second half,
and a half that stands alone is refused. -/
def finishUnicode (read : Text) (high : Option Nat) (value : Nat) : Option Reading :=
  let isHigh := 0xD800 ≤ value && value < 0xDC00
  let isLow := 0xDC00 ≤ value && value < 0xE000
  match high with
  | some h =>
      if isLow then
        some (.string (Char.ofNat (0x10000 + (h - 0xD800) * 0x400 + (value - 0xDC00)) :: read))
      else none
  | none =>
      if isHigh then some (.pair read value)
      else if isLow then none
      else some (.string (Char.ofNat value :: read))

/-- The next state of the machine and the tokens it has finished. -/
def Reading.step (r : Reading) (c : Char) : Option (Reading × List Token) :=
  match r with
  | .between => start c
  | .word read =>
      if isWordChar c then some (.word (c :: read), [])
      else do
        let v ← wordValue? read
        let (next, tokens) ← start c
        return (next, .scalar v :: tokens)
  | .number read =>
      if isNumberChar c then some (.number (c :: read), [])
      else do
        let v ← numberValue? read
        let (next, tokens) ← start c
        return (next, .scalar v :: tokens)
  | .string read =>
      if c = '"' then some (.between, [.scalar (.string read.reverse)])
      else if c = '\\' then some (.escape read, [])
      else if c.toNat < 32 then none
      else some (.string (c :: read), [])
  | .escape read =>
      if c = 'u' then some (.unicode read none 0 0, [])
      else (unescape? c).map fun c => (.string (c :: read), [])
  | .unicode read high digits value => do
      let value := 16 * value + (← hexDigit? c)
      if digits = 3 then return (← finishUnicode read high value, [])
      else return (.unicode read high (digits + 1) value, [])
  | .pair read high => if c = '\\' then some (.pairEscape read high, []) else none
  | .pairEscape read high => if c = 'u' then some (.unicode read (some high) 0 0, []) else none

def Reading.finish : Reading → Option (List Token)
  | .between => some []
  | .word read => (wordValue? read).map fun v => [.scalar v]
  | .number read => (numberValue? read).map fun v => [.scalar v]
  | _ => none

def tokensFrom (r : Reading) : Text → Option (List Token)
  | [] => r.finish
  | c :: cs => do
      let (next, tokens) ← r.step c
      return tokens ++ (← tokensFrom next cs)

/-- An array or object that is still open, its contents back to front; in an object, the name of
the field whose value comes next. -/
inductive Frame where
  | array (items : List Value)
  | object (fields : List (Text × Value)) (name : Text)

inductive Expecting where
  | value
  /-- Right after an array opens: a value or the end of the array. -/
  | firstItem
  /-- Right after an object opens: a name or the end of the object. -/
  | firstName
  | name (fields : List (Text × Value))
  | colon (fields : List (Text × Value)) (name : Text)
  /-- After a value. -/
  | after (v : Value)

/-- How many arrays and objects may be open. -/
def mostFrames : Nat := 127

/-- A value begins with a token. -/
def opens (stack : List Frame) (token : Token) : Option (List Frame × Expecting) :=
  match token with
  | .scalar v => some (stack, .after v)
  | .opensArray => if stack.length < mostFrames then some (.array [] :: stack, .firstItem) else none
  | .opensObject =>
      if stack.length < mostFrames then some (.object [] [] :: stack, .firstName) else none
  | _ => none

/-- What a token after a value does. -/
def closes (stack : List Frame) (v : Value) (token : Token) :
    Option (List Frame × Expecting) :=
  match token, stack with
  | .comma, .array items :: outer => some (.array (v :: items) :: outer, .value)
  | .comma, .object fields name :: outer =>
      some (.object ((name, v) :: fields) [] :: outer, .name ((name, v) :: fields))
  | .closesArray, .array items :: outer => some (outer, .after (.array (v :: items).reverse))
  | .closesObject, .object fields name :: outer =>
      some (outer, .after (.object ((name, v) :: fields).reverse))
  | _, _ => none

/-- The open arrays and objects after a token, and what may come next. -/
def advance (stack : List Frame) (expecting : Expecting) (token : Token) :
    Option (List Frame × Expecting) :=
  match expecting, token, stack with
  | .firstItem, .closesArray, .array _ :: outer => some (outer, .after (.array []))
  | .firstName, .closesObject, .object .. :: outer => some (outer, .after (.object []))
  | .firstName, .scalar (.string name), stack => some (stack, .colon [] name)
  | .name fields, .scalar (.string name), stack => some (stack, .colon fields name)
  | .colon fields name, .colon, .object .. :: outer => some (.object fields name :: outer, .value)
  | .value, token, stack => opens stack token
  | .firstItem, token, stack => opens stack token
  | .after v, token, stack => closes stack v token
  | _, _, _ => none

/-- The value of some tokens, read with a stack of open arrays and objects. -/
def valueFrom (stack : List Frame) (expecting : Expecting) : List Token → Option Value
  | [] =>
      match stack, expecting with
      | [], .after v => some v
      | _, _ => none
  | token :: rest => do
      let (stack, expecting) ← advance stack expecting token
      valueFrom stack expecting rest

/-- The value that a text writes, if it is well formed. -/
def read? (t : Text) : Option Value := do
  valueFrom [] .value (← tokensFrom .between t)

end CodeAtlas.Json
