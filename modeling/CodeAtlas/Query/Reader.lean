import CodeAtlas.Query.Pattern
import CodeAtlas.Query.Token

/-!
# Reading queries

Tokens are nested into forms, and forms are read as rules. A form in parentheses that starts with a
kind describes a node; one that starts with another form groups a node with the comments before it
and with tests.
-/

namespace CodeAtlas.Query

/-- A token, or forms in parentheses or in brackets. -/
inductive Form where
  | leaf (t : Token)
  | group (items : List Form)
  | choice (items : List Form)
  deriving Repr, Inhabited

/-- Nest tokens; `outer` holds what surrounds the current form, innermost first, with `true` for a
choice, and `items` what the current form holds so far, both back to front. -/
def nestFrom (outer : List (Bool × List Form)) (items : List Form) :
    List Token → Option (List Form)
  | [] => if outer.isEmpty then some items.reverse else none
  | .opens :: rest => nestFrom ((false, items) :: outer) [] rest
  | .opensChoice :: rest => nestFrom ((true, items) :: outer) [] rest
  | .closes :: rest =>
      match outer with
      | (false, before) :: outer => nestFrom outer (.group items.reverse :: before) rest
      | _ => none
  | .closesChoice :: rest =>
      match outer with
      | (true, before) :: outer => nestFrom outer (.choice items.reverse :: before) rest
      | _ => none
  | t :: rest => nestFrom outer (.leaf t :: items) rest

/-- The forms of a list of tokens, unless its brackets do not match. -/
def nest? (tokens : List Token) : Option (List Form) := nestFrom [] [] tokens

/-- A pattern that has to fill a field, if one is given. -/
def inField (field : Option String) (p : Pattern) : Pattern :=
  match field with
  | some f => .field f p
  | none => p

mutual

/-- The pattern of a form in parentheses or in brackets. -/
def readForm? : Form → Option Pattern
  | .group (.leaf (.word kind) :: items) => do
      let children ← readPatterns [] none items
      return .node (if kind = ['_'] then none else some (String.ofList kind)) children
  | .choice items => do return .anyOf (← readPatterns [] none items)
  | _ => none

/-- The patterns of a list of forms; `read` holds those read so far, back to front, and `field` the
field that the next one has to fill. -/
def readPatterns (read : List Pattern) (field : Option String) :
    List Form → Option (List Pattern)
  | [] => if field.isNone then some read.reverse else none
  | .leaf (.field f) :: rest => readPatterns read (some (String.ofList f)) rest
  | .leaf (.capture name) :: rest =>
      match read with
      | p :: before => readPatterns (.capture p (String.ofList name) :: before) field rest
      | [] => none
  | .leaf .optional :: rest =>
      match read with
      | p :: before => readPatterns (.optional p :: before) field rest
      | [] => none
  | form :: rest => do readPatterns (inField field (← readForm? form) :: read) none rest

end

def readOne (forms : List Form) : Option Pattern := do
  match ← readPatterns [] none forms with
  | [p] => some p
  | _ => none

def readTest? : Form → Option TextTest
  | .group [.leaf (.predicate ['e', 'q', '?']), .leaf (.capture c), .leaf (.literal t)] =>
      some ⟨String.ofList c, t⟩
  | _ => none

/-- The rule with some tests of a node and the comments before it. -/
def readBody (tests : List TextTest) : List Form → Option Rule
  | x :: .leaf .star :: .leaf (.capture c) :: .leaf .anchor :: body => do
      return ⟨some ⟨← readOne [x], String.ofList c⟩, ← readOne body, tests⟩
  | body => do return ⟨none, ← readOne body, tests⟩

/-- The rule of a form that groups a node with the comments before it and with tests. -/
def readGrouping (items : List Form) : Option Rule :=
  readBody (items.filterMap readTest?) (items.filter (readTest? · |>.isNone))

/-- The rules of a list of forms; a capture after a form belongs to that form. -/
def readRules : List Form → Option (List Rule)
  | [] => some []
  | .group (.leaf (.word kind) :: items) :: .leaf (.capture c) :: rest => do
      let p ← readOne [.group (.leaf (.word kind) :: items), .leaf (.capture c)]
      return ⟨none, p, []⟩ :: (← readRules rest)
  | .group (.leaf (.word kind) :: items) :: rest => do
      let p ← readOne [.group (.leaf (.word kind) :: items)]
      return ⟨none, p, []⟩ :: (← readRules rest)
  | .group items :: rest => do
      let rule ← readGrouping items
      return rule :: (← readRules rest)
  | _ => none

/-- The rules of a query text, unless it is malformed. Only the form of the text counts: a rule may
ask for kinds of nodes and fields that no tree has, where a reader that knows the grammar refuses
the text. -/
def read? (t : Text) : Option (List Rule) := do
  readRules (← nest? (← tokens? t))

end CodeAtlas.Query
