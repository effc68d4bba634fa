import CodeAtlas.Extract.Document

/-!
# Sources without comments

Every comment is cut out. A line of which only white space is left goes, and so does white space
that a cut leaves at the end of a line.
-/

namespace CodeAtlas

mutual

/-- The ranges of the outermost comments in a tree. -/
def Tree.commentRanges : Tree → List (Nat × Nat)
  | .node l cs =>
      if Text.occursIn "comment".toList l.kind.toList then [(l.startByte, l.endByte)]
      else Tree.commentRangesAmong cs

def Tree.commentRangesAmong : List Tree → List (Nat × Nat)
  | [] => []
  | t :: ts => t.commentRanges ++ Tree.commentRangesAmong ts

end

/-- What is left of a line after some ranges are cut out. -/
structure CutLine where
  kept : Text
  touched : Bool
  /-- The ranges that concern later lines. -/
  later : List (Nat × Nat)

/-- The text between two offsets, if they stand between characters. -/
def sliceText (source : Bytes) (start stop : Nat) : Text :=
  (Utf8.decode? (source.slice start stop)).getD []

/-- Cut ranges out of the line between two offsets; `cursor` is where the text left to look at
starts. -/
def cutLine (source : Bytes) (lineStart lineEnd cursor : Nat) : List (Nat × Nat) → CutLine
  | [] => ⟨sliceText source cursor lineEnd, false, []⟩
  | (start, stop) :: rest =>
      if lineEnd ≤ start then ⟨sliceText source cursor lineEnd, false, (start, stop) :: rest⟩
      else
        let front := sliceText source cursor (max start lineStart)
        let cursor := max cursor (min stop lineEnd)
        if lineEnd < stop then
          ⟨front ++ sliceText source cursor lineEnd, true, (start, stop) :: rest⟩
        else
          let tail := cutLine source lineStart lineEnd cursor rest
          ⟨front ++ tail.kept, true, tail.later⟩

def lineEnding (line : Text) : Text := if line.getLast? = some '\n' then ['\n'] else []

/-- Cut ranges out of the lines that start at an offset. -/
def cutLines (source : Bytes) (offset : Nat) (ranges : List (Nat × Nat)) : List Text → Text
  | [] => []
  | line :: rest =>
      let stop := offset + Utf8.size line
      let cut := cutLine source offset stop offset ranges
      let shown :=
        if cut.touched then
          if Text.isBlank cut.kept then [] else Text.trimEnd cut.kept ++ lineEnding line
        else line
      shown ++ cutLines source stop cut.later rest

def Document.commentFree (d : Document) : Text :=
  match d.tree.commentRanges with
  | [] => d.text
  | ranges => cutLines d.source.bytes 0 ranges (Text.linesWithEnds d.text)

end CodeAtlas
