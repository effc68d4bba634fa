import CodeAtlas.Text.Basic

/-!
# JSON values

Values and how they are printed: every item of an array and every field of an object stands on a
line of its own, two spaces deeper than what holds it.
-/

namespace CodeAtlas.Json

/-- A JSON value; a number is kept as it is written. -/
inductive Value where
  | null
  | boolean (b : Bool)
  | number (digits : Text)
  | string (t : Text)
  | array (items : List Value)
  | object (fields : List (Text × Value))
  deriving Repr, Inhabited

namespace Value

def ofNat (n : Nat) : Value := number (Text.ofNat n)

def ofString (s : String) : Value := string s.toList

def ofFields (fields : List (String × Value)) : Value :=
  object (fields.map fun (name, v) => (name.toList, v))

/-- The values of all fields with a name. -/
def fields (v : Value) (name : String) : List Value :=
  match v with
  | object fields => (fields.filter (·.1 == name.toList)).map (·.2)
  | _ => []

end Value

def hexDigits (n : Nat) : Text := [Nat.digitChar (n / 16), Nat.digitChar (n % 16)]

/-- How a character is written between quotes. -/
def escapeChar (c : Char) : Text :=
  match c with
  | '"' => ['\\', '"']
  | '\\' => ['\\', '\\']
  | '\n' => ['\\', 'n']
  | '\r' => ['\\', 'r']
  | '\t' => ['\\', 't']
  | c =>
      if c.toNat = 8 then ['\\', 'b']
      else if c.toNat = 12 then ['\\', 'f']
      else if c.toNat < 32 then "\\u00".toList ++ hexDigits c.toNat
      else [c]

def quote (t : Text) : Text := '"' :: t.flatMap escapeChar ++ ['"']

/-- A line end and the indent of the next line. -/
def newLine (depth : Nat) : Text := '\n' :: List.replicate (2 * depth) ' '

/-- Items between brackets, each on a line of its own. -/
def enclose (opening closing : Char) (depth : Nat) (items : List Text) : Text :=
  if items.isEmpty then [opening, closing]
  else
    opening :: newLine (depth + 1) ++ Text.joinWith (',' :: newLine (depth + 1)) items ++
      newLine depth ++ [closing]

mutual

def renderAt (depth : Nat) : Value → Text
  | .null => "null".toList
  | .boolean true => "true".toList
  | .boolean false => "false".toList
  | .number digits => digits
  | .string t => quote t
  | .array items => enclose '[' ']' depth (renderItems (depth + 1) items)
  | .object fields => enclose '\x7b' '\x7d' depth (renderFields (depth + 1) fields)

def renderItems (depth : Nat) : List Value → List Text
  | [] => []
  | v :: rest => renderAt depth v :: renderItems depth rest

def renderFields (depth : Nat) : List (Text × Value) → List Text
  | [] => []
  | (name, v) :: rest => (quote name ++ ": ".toList ++ renderAt depth v) :: renderFields depth rest

end

def render (v : Value) : Text := renderAt 0 v

end CodeAtlas.Json
