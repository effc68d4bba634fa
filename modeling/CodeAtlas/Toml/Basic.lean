import CodeAtlas.Text.Basic

/-!
# TOML values and strings

Tables remember how they came to be, because that decides what may be added to them later. A string
is written in the plainest form that can hold it: between double quotes, between single quotes, over
several lines in one of these ways, and with escapes if nothing else will do.
-/

namespace CodeAtlas.Toml

/-- How a table came to be. -/
inductive Origin where
  /-- By a header of its own. -/
  | header
  /-- As a step on the way to another header. -/
  | passed
  /-- As a step of a dotted key. -/
  | dotted
  deriving DecidableEq, Repr, Inhabited

inductive Value where
  | string (t : Text)
  | integer (n : Int)
  | float
  | boolean (b : Bool)
  | moment
  | array (items : List Value)
  /-- A table written in braces; nothing can be added to it. -/
  | inline (entries : List (Text × Value))
  | table (origin : Origin) (entries : List (Text × Value))
  /-- The tables of a repeated header. -/
  | tables (items : List (List (Text × Value)))
  deriving Repr, Inhabited

/-- The named values of a table in the order in which they came. -/
abbrev Entries := List (Text × Value)

namespace Entries

/-- Put a value under a name, in place of what was there. -/
def set (name : Text) (v : Value) : Entries → Entries
  | [] => [(name, v)]
  | (other, w) :: rest => if other = name then (name, v) :: rest else (other, w) :: set name v rest

/-- Add a value under a name that is free. -/
def add? (name : Text) (v : Value) (entries : Entries) : Option Entries :=
  if (entries.lookup name).isSome then none else some (entries ++ [(name, v)])

/-- Change the table that a chain of names leads to; tables that are missing on the way are made.
Of a repeated header the latest table is meant. A dotted key does not lead into a table that has a
header of its own. -/
def change? (made : Origin) (f : Origin → Entries → Option Entries) :
    List Text → Origin → Entries → Option Entries
  | [], origin, entries => f origin entries
  | name :: names, _, entries =>
      match entries.lookup name with
      | none => do
          let inner ← change? made f names made []
          return entries.set name (.table made inner)
      | some (.table origin inner) =>
          if made = .dotted && origin = .header then none
          else do
            let inner ← change? made f names origin inner
            return entries.set name (.table origin inner)
      | some (.tables items) => do
          let last ← items.getLast?
          let inner ← change? made f names .header last
          return entries.set name (.tables (items.dropLast ++ [inner]))
      | some _ => none

/-- Add a value under a dotted key. All but the last name lead through tables that dotted keys
have made. -/
def addDotted? (names : List Text) (v : Value) (entries : Entries) : Option Entries := do
  let name ← names.getLast?
  let way := names.dropLast
  change? .dotted
    (fun origin inner => if way ≠ [] && origin ≠ .dotted then none else inner.add? name v)
    way .header entries

/-- Open the table of a header. It may have been passed on the way to others, and that is all. -/
def openTable? (names : List Text) (entries : Entries) : Option Entries := do
  let name ← names.getLast?
  change? .passed
    (fun _ outer =>
      match outer.lookup name with
      | none => some (outer.set name (.table .header []))
      | some (.table .passed inner) => some (outer.set name (.table .header inner))
      | some _ => none)
    names.dropLast .header entries

/-- Open one more table of a repeated header. -/
def openRepeated? (names : List Text) (entries : Entries) : Option Entries := do
  let name ← names.getLast?
  change? .passed
    (fun _ outer =>
      match outer.lookup name with
      | none => some (outer.set name (.tables [[]]))
      | some (.tables items) => some (outer.set name (.tables (items ++ [[]])))
      | some _ => none)
    names.dropLast .header entries

end Entries


/-- Whether a character can only be written as an escape. -/
private def needsEscape (c : Char) : Bool :=
  (c.toNat < 32 && c != '\t' && c != '\n') || c.toNat = 127

private def hexDigit (n : Nat) : Char := (Nat.digitChar n).toUpper

private def escaped (c : Char) : Text :=
  match c with
  | '\t' => ['\\', 't']
  | '\n' => ['\\', 'n']
  | '\r' => ['\\', 'r']
  | '"' => ['\\', '"']
  | '\\' => ['\\', '\\']
  | c =>
      if c.toNat = 8 then ['\\', 'b']
      else if c.toNat = 12 then ['\\', 'f']
      else if needsEscape c then
        ['\\', 'u', '0', '0', hexDigit (c.toNat / 16), hexDigit (c.toNat % 16)]
      else [c]

/-- The body of a string over several lines between double quotes: line feeds stand for
themselves, and so do up to two quotes in a row. -/
private def blockBody : Nat → Text → Text
  | _, [] => []
  | run, c :: cs =>
      if c = '"' then if run < 2 then c :: blockBody (run + 1) cs else escaped c ++ blockBody 0 cs
      else if c = '\n' then c :: blockBody 0 cs
      else escaped c ++ blockBody 0 cs

/-- The longest run of a character. -/
private def longestRun (c : Char) : Nat → Text → Nat
  | run, [] => run
  | run, d :: ds => if d = c then longestRun c (run + 1) ds else max run (longestRun c 0 ds)

private def lineBreak (t : Text) : Text := if t.contains '\n' then ['\n'] else []

private def basic (t : Text) : Text := '"' :: t.flatMap escaped ++ ['"']

private def literal (t : Text) : Text := '\'' :: t ++ ['\'']

private def blockBasic (t : Text) : Text :=
  "\"\"\"".toList ++ lineBreak t ++ blockBody 0 t ++ "\"\"\"".toList

private def blockLiteral (t : Text) : Text :=
  "'''".toList ++ lineBreak t ++ t ++ "'''".toList

/-- A string as it is written. -/
def quote (t : Text) : Text :=
  let hasEscapes := t.any needsEscape
  let hasSlash := t.contains '\\'
  let hasLine := t.contains '\n'
  if !hasEscapes && !hasSlash && !t.contains '"' && !hasLine then basic t
  else if !hasEscapes && !t.contains '\'' && !hasLine then literal t
  else if !hasEscapes && !hasSlash && longestRun '"' 0 t ≤ 2 then blockBasic t
  else if !hasEscapes && longestRun '\'' 0 t ≤ 2 then blockLiteral t
  else if hasLine then blockBasic t
  else basic t

end CodeAtlas.Toml
