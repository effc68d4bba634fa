/-!
# Text

Text is a list of characters. Trimming and the test for blank text use the Unicode property
White_Space, which holds of twenty-five characters. Other Unicode properties are given as lists of
ranges of code points.

There are three ways to cut a text into lines: at every line feed (`rows`), keeping the line feed
with the line it ends (`linesWithEnds`), and without the line end, which may be a carriage return
and a line feed (`lines`). When a text of several rows moves to another depth, its first row starts
where the text starts, so all its leading white space goes; later rows lose at most the column in
which the text stood.
-/

namespace CodeAtlas

abbrev Text := List Char

namespace Text

/-- The characters with the Unicode property White_Space. -/
def blankChar (c : Char) : Bool :=
  let n := c.toNat
  (0x09 ≤ n && n ≤ 0x0D) || n == 0x20 || n == 0x85 || n == 0xA0 || n == 0x1680 ||
    (0x2000 ≤ n && n ≤ 0x200A) || n == 0x2028 || n == 0x2029 || n == 0x202F || n == 0x205F ||
    n == 0x3000

/-- Drop the longest suffix whose characters all satisfy `p`. -/
def dropEndWhile (p : Char → Bool) (t : Text) : Text := (t.reverse.dropWhile p).reverse

def trimStart (t : Text) : Text := t.dropWhile blankChar

def trimEnd (t : Text) : Text := dropEndWhile blankChar t

def trim (t : Text) : Text := trimEnd (trimStart t)

def isBlank (t : Text) : Bool := t.all blankChar

/-- The maximal runs of characters that are not blank. -/
def words (t : Text) : List Text := (t.splitOnP blankChar).filter (· ≠ [])

end Text

end CodeAtlas

namespace CodeAtlas.Text

def stripPrefix? (p t : Text) : Option Text :=
  if p.isPrefixOf t then some (t.drop p.length) else none

def stripSuffix? (s t : Text) : Option Text :=
  if s.isSuffixOf t then some (t.take (t.length - s.length)) else none

/-- The parts before and after the first occurrence of a character. -/
def splitOnce (c : Char) (t : Text) : Option (Text × Text) :=
  match t.dropWhile (· != c) with
  | [] => none
  | _ :: rest => some (t.takeWhile (· != c), rest)

/-- The parts before and after the first occurrence of a text. -/
def splitOnceText (p : Text) : Text → Option (Text × Text)
  | [] => if p.isEmpty then some ([], []) else none
  | c :: cs =>
      if p.isPrefixOf (c :: cs) then some ([], (c :: cs).drop p.length)
      else (splitOnceText p cs).map fun (before, after) => (c :: before, after)

def occursIn (p t : Text) : Bool := (splitOnceText p t).isSome

/-- Replace every occurrence of `p` after the first `skip` characters, which are dropped. -/
def replaceFrom (p new : Text) : Nat → Text → Text
  | _, [] => []
  | skip + 1, _ :: cs => replaceFrom p new skip cs
  | 0, c :: cs =>
      if p.isPrefixOf (c :: cs) then new ++ replaceFrom p new (p.length - 1) cs
      else c :: replaceFrom p new 0 cs

/-- Replace every occurrence of the non-empty text `p`, scanning from the left past each one. -/
def replaceAll (p new t : Text) : Text := replaceFrom p new 0 t

def joinWith (separator : Text) (parts : List Text) : Text := separator.intercalate parts

/-- The digits of a number in base ten. -/
def ofNat (n : Nat) : Text := Nat.toDigits 10 n

/-- The pieces of a text between its line feeds; a final line feed opens a last empty row. -/
def rows (t : Text) : List Text := t.splitOn '\n'

/-- The lines of a text, each with the line feed that ends it. -/
def linesWithEnds : Text → List Text
  | [] => []
  | c :: cs =>
      if c = '\n' then [c] :: linesWithEnds cs
      else match linesWithEnds cs with
        | [] => [[c]]
        | line :: rest => (c :: line) :: rest

/-- A line without its line feed. -/
def dropLineFeed (line : Text) : Text :=
  if line.getLast? = some '\n' then line.dropLast else line

/-- A line without its line feed and without a carriage return before that. -/
def dropLineEnd (line : Text) : Text :=
  if line.getLast? = some '\n' then
    let body := line.dropLast
    if body.getLast? = some '\r' then body.dropLast else body
  else line

def lines (t : Text) : List Text := (linesWithEnds t).map dropLineEnd

def firstLine (t : Text) : Text := (lines t).headD []

/-- Remove at most `width` leading spaces and tabs. -/
def dropIndent : Nat → Text → Text
  | width + 1, c :: cs => if c = ' ' ∨ c = '\t' then dropIndent width cs else c :: cs
  | _, t => t

/-- Put an indent in front of a row unless the row is empty. -/
def indentRow (indent row : Text) : Text := if row = [] then [] else indent ++ row

private def dropReturns (row : Text) : Text := dropEndWhile (· == '\r') row

/-- Move a text that stands in `column` to the given indent; carriage returns at the end of a row
are dropped. -/
def reindent (t : Text) (column : Nat) (indent : Text) : Text :=
  match rows t with
  | [] => []
  | first :: later =>
      joinWith ['\n'] <|
        indentRow indent (trimStart (dropReturns first)) ::
          later.map fun row => indentRow indent (dropIndent column (dropReturns row))

/-- The code points from the first number to the second, both included. -/
abbrev CharRange := Nat × Nat

def inRanges (ranges : List CharRange) (c : Char) : Bool :=
  ranges.any fun (first, last) => first ≤ c.toNat && c.toNat ≤ last

end CodeAtlas.Text
