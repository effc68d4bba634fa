import CodeAtlas.Symbol.Basic
import CodeAtlas.Syntax.Buffer
import CodeAtlas.Text.Basic
import CodeAtlas.Text.Case
import CodeAtlas.Text.CharClass
import CodeAtlas.Text.Utf8

/-!
# Headings and sections

The title in a heading line, and the anchor under which a title can be linked. A section starts at
its heading and ends where the next heading of the same or a higher level starts, or else where the
document ends. Front matter is a block of settings at the head of a document, between a line `---`
and a line `---` or `...`.
-/

namespace CodeAtlas.Markdown

/-- The title in a heading line: without the marks in front, and without closing marks if a space
stands before them. -/
def headingTitle (line : Text) : Text :=
  let line := Text.trim line
  match line with
  | '#' :: _ =>
      let opened := line.dropWhile (· == '#')
      let closed := Text.dropEndWhile (· == '#') (Text.trimEnd opened)
      Text.trim (if closed = [] ∨ closed.getLast? = some ' ' then closed else opened)
  | _ => line

private def slugChar? (c : Char) : Option Char :=
  if c = ' ' then some '-'
  else if Text.isAlphabetic c || Text.isNumeric c || c == '-' || c == '_' then some c
  else none

/-- The anchor of a title: in lower case, with hyphens for spaces and without punctuation. -/
def slug (title : Text) : Text := (Text.toLower (Text.trim title)).filterMap slugChar?

/-- The offset after the first closing line of some lines that start at an offset. -/
def closingEnd? (offset : Nat) : List Text → Option Nat
  | [] => none
  | line :: rest =>
      let offset := offset + Utf8.size line
      let fence := Text.trimEnd line
      if fence = "---".toList ∨ fence = "...".toList then some offset else closingEnd? offset rest

/-- The offset after the closing line of the front matter, if the text starts with one. -/
def frontMatterEnd? (t : Text) : Option Nat :=
  match Text.linesWithEnds t with
  | first :: rest =>
      if Text.trimEnd first = "---".toList then closingEnd? (Utf8.size first) rest else none
  | [] => none

/-- The number of hash marks that a heading line starts with, at least one. -/
def hashLevel (line : Text) : Nat := max 1 ((Text.trimStart line).takeWhile (· == '#')).length

def underlineLevel (underline : Option Text) : Nat :=
  match underline with
  | some ('=' :: _) => 1
  | _ => 2

/-- Whether a line starts with a mark that underlines are made of. -/
def underlines : Text → Bool
  | '=' :: _ => true
  | '-' :: _ => true
  | _ => false

/-- The first of some rows that starts with a mark of an underline. -/
def underline? (source : Buffer) (first last : Nat) : Option Text :=
  -- Rows past the last one all have the text of the last one.
  let count := min (last + 1 - first) source.lines.rowCount
  ((List.range' first count).map fun row => Text.trim (source.row row)).find? underlines

def headingLevel (source : Buffer) (s : Symbol) : Nat :=
  match s.kind with
  | .heading => hashLevel (source.row s.extent.startPoint.row)
  | _ => underlineLevel (underline? source (s.extent.startPoint.row + 1) s.extent.endPoint.row)

/-- The level of a heading that a caller gives. -/
def headingLevel? (source : Buffer) (s : Symbol) : Option Nat := do
  let first ← addWords? s.extent.startPoint.row 1
  let last := s.extent.endPoint.row
  -- A search that finds no underline asks where each row ends, the last one too.
  if s.kind ≠ .heading ∧ first ≤ last ∧ underline? source first last = none then
    let _ ← addWords? last 1
  return headingLevel source s

/-- Let every symbol with a level reach to the next one of the same or a higher level, or else to
the end of the document. -/
def closeSections (eof : Point) : List (Symbol × Option Nat) → List Symbol
  | [] => []
  | (s, none) :: rest => s :: closeSections eof rest
  | (s, some level) :: rest =>
      let next := rest.find? fun (_, other) => other.any (· ≤ level)
      let stop := (next.map fun (t, _) => t.extent.startPoint).getD eof
      { s with
        extent := { s.extent with endPoint := stop }
        details := s.details ++ [⟨"heading.level", Text.ofNat level⟩] } :: closeSections eof rest

/-- The symbol of the front matter that ends at a point. -/
def frontMatterSymbol (stop : Point) : Symbol where
  content := "frontmatter".toList
  kind := .frontMatter
  extent := ⟨.origin, stop⟩
  details := []
  declaration := ⟨.origin, stop⟩

/-- Put the front matter in place of the symbols inside it. -/
def listFrontMatter (text : Text) (source : Buffer) (symbols : List Symbol) : List Symbol :=
  match frontMatterEnd? text with
  | some stop =>
      let stop := source.lines.pointOf stop
      frontMatterSymbol stop :: symbols.filter fun s => !s.extent.startPoint.before stop
  | none => symbols

/-- Let every heading reach to the end of its section. Symbols are given in source order. -/
def sections (text : Text) (symbols : List Symbol) : List Symbol :=
  let source := Buffer.ofText text
  let listed := listFrontMatter text source symbols
  closeSections (source.lines.pointOf source.bytes.length) <|
    listed.map fun s => (s, if s.kind.isHeading then some (headingLevel source s) else none)

/-- Let every heading that a caller gives reach to the end of its section. -/
def sections? (text : Text) (symbols : List Symbol) : Option (List Symbol) := do
  let source := Buffer.ofText text
  let listed := listFrontMatter text source symbols
  let entries ← listed.mapM fun s => do
    if s.kind.isHeading then return (s, some (← headingLevel? source s)) else return (s, none)
  return closeSections (source.lines.pointOf source.bytes.length) entries

end CodeAtlas.Markdown
