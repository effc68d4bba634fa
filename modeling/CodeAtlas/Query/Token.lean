import CodeAtlas.Text.Basic

/-!
# Tokens of the query language

Queries are written in parentheses. Text is cut into tokens by a machine that reads one character
at a time, so that cutting a text in two and reading the parts one after the other gives the same
tokens.
-/

namespace CodeAtlas.Query

inductive Token where
  | opens
  | closes
  | opensChoice
  | closesChoice
  | word (s : Text)
  | field (s : Text)
  | capture (s : Text)
  | predicate (s : Text)
  | literal (t : Text)
  | star
  | optional
  | anchor
  deriving DecidableEq, Repr, Inhabited

/-- What the mark in front of a word makes of it. -/
inductive Mark where
  | plain
  | capture
  | predicate
  deriving DecidableEq, Repr

/-- Where the machine stands; text read so far is held back to front. -/
inductive Reading where
  | between
  | word (mark : Mark) (read : Text)
  | literal (read : Text)
  | escape (read : Text)
  | comment
  deriving DecidableEq, Repr

private def wordToken (mark : Mark) (read : Text) : Token :=
  match mark with
  | .plain => .word read.reverse
  | .capture => .capture read.reverse
  | .predicate => .predicate read.reverse

private def continues (mark : Mark) (c : Char) : Bool :=
  c.isAlphanum || c == '_' || c == '-' ||
    match mark with
    | .plain => false
    | .capture => c == '.'
    | .predicate => c == '?' || c == '!'

/-- The character that a backslash and this character stand for. -/
private def unescape (c : Char) : Char :=
  match c with
  | 'n' => '\n'
  | 'r' => '\r'
  | 't' => '\t'
  | '0' => Char.ofNat 0
  | c => c

/-- A character outside words, literals and comments. -/
private def start (c : Char) : Option (Reading × List Token) :=
  if Text.blankChar c then some (.between, [])
  else match c with
    | ';' => some (.comment, [])
    | '(' => some (.between, [.opens])
    | ')' => some (.between, [.closes])
    | '[' => some (.between, [.opensChoice])
    | ']' => some (.between, [.closesChoice])
    | '*' => some (.between, [.star])
    | '?' => some (.between, [.optional])
    | '.' => some (.between, [.anchor])
    | '"' => some (.literal [], [])
    | '@' => some (.word .capture [], [])
    | '#' => some (.word .predicate [], [])
    | c => if continues .plain c then some (.word .plain [c], []) else none

/-- The next state of the machine and the tokens it has finished. A literal may not hold a line
feed. -/
def Reading.step (r : Reading) (c : Char) : Option (Reading × List Token) :=
  match r with
  | .between => start c
  | .word mark read =>
      if continues mark c then some (.word mark (c :: read), [])
      else if mark = .plain ∧ c = ':' then some (.between, [.field read.reverse])
      else (start c).map fun (r, tokens) => (r, wordToken mark read :: tokens)
  | .literal read =>
      if c = '"' then some (.between, [.literal read.reverse])
      else if c = '\\' then some (.escape read, [])
      else if c = '\n' then none
      else some (.literal (c :: read), [])
  | .escape read => some (.literal (unescape c :: read), [])
  | .comment => some (if c = '\n' then .between else .comment, [])

def Reading.finish : Reading → Option (List Token)
  | .between | .comment => some []
  | .word mark read => some [wordToken mark read]
  | .literal _ | .escape _ => none

/-- The tokens of a text, read from a given state on. -/
def tokensFrom (r : Reading) : Text → Option (List Token)
  | [] => r.finish
  | c :: cs => do
      let (next, tokens) ← r.step c
      return tokens ++ (← tokensFrom next cs)

def tokens? (t : Text) : Option (List Token) := tokensFrom .between t

end CodeAtlas.Query
