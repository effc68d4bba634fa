import CodeAtlas.Markdown.Section
import CodeAtlas.Symbol.Basic
import CodeAtlas.Text.Number

/-!
# Spellings

The names under which a symbol can be asked for. A method can be named with its receiver, a heading
by its anchor or with its marks, and a name with code marks without them.
-/

namespace CodeAtlas.Symbol

/-- Spellings of a method with a receiver in parentheses. -/
def receiverForms (receiver method : Text) : List Text :=
  let inner := Text.trim <| Text.dropEndWhile (· == ')') <|
    (Text.trim receiver).dropWhile (· == '(')
  let type := (Text.words inner).getLastD inner
  let base := type.dropWhile (· == '*')
  let dot := '.' :: method
  [ base ++ dot,
    '*' :: base ++ dot,
    (if type.head? = some '*' then "(*".toList else "(".toList) ++ base ++ ')' :: dot,
    '(' :: inner ++ ')' :: dot,
    '(' :: inner ++ ')' :: ' ' :: method,
    base ++ ' ' :: method ]

/-- Spellings of a method: its receiver is given in parentheses or as a plain name. -/
def methodForms (s : Symbol) : List Text :=
  match s.kind, s.detail? ".receiver" with
  | .method, some receiver =>
      let method := (s.detail? "method.name").getD s.content
      let qualified :=
        if (Text.trimStart receiver).head? = some '(' then receiverForms receiver method
        else [receiver ++ '.' :: method, receiver ++ ' ' :: method]
      qualified ++ [method]
  | _, _ => []

/-- Spellings of a heading: its anchor with and without the mark, and the title after its marks. -/
def headingForms (s : Symbol) : List Text :=
  if s.kind.isHeading then
    let slug := Markdown.slug s.content
    let marked := ((s.detail? ".level").bind Text.toWord?).map fun level =>
      List.replicate level '#' ++ ' ' :: s.content
    ('#' :: slug) :: slug :: marked.toList
  else []

/-- The spelling of a name without its code marks. -/
def plainForms (s : Symbol) : List Text :=
  if s.content.contains '\x60' then [Text.trim (s.content.filter (· != '\x60'))] else []

/-- All spellings of a symbol, its own name first, each of them once. -/
def spellings (s : Symbol) : List Text :=
  ((s.content :: methodForms s ++ headingForms s ++ plainForms s).filter (· ≠ [])).eraseDups

/-- The symbols whose names are not among the `seen` ones, the first one of each name. -/
def newForms (seen : List Text) : List Symbol → List Symbol
  | [] => []
  | s :: rest =>
      if seen.contains s.content then newForms seen rest
      else s :: newForms (s.content :: seen) rest

/-- The symbols followed by one symbol for each further spelling that is not taken yet. -/
def expand (symbols : List Symbol) : List Symbol :=
  let forms := symbols.flatMap fun s =>
    (s.spellings.drop 1).map fun form => { s with content := form }
  symbols ++ newForms (symbols.map (·.content)) forms

end CodeAtlas.Symbol
