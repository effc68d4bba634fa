import CodeAtlas.Text.Utf8

/-!
# Positions

A point is a row and a column, both counted from zero, the column in bytes. A span is a range of
byte offsets together with the points of its two ends. A line table tells the offset at which each
row of a buffer starts.

Rows, columns and offsets are machine words. What is found in a buffer is a position of the buffer,
and a buffer has fewer bytes than there are machine words, so sums of such positions are taken as
they are. A position that a caller gives can be any machine word. The lookups that take one have a
question mark in their names. They check their sums, and have no answer where a sum is no machine
word.
-/

namespace CodeAtlas

def maxWord : Nat := Nat.pow 2 64 - 1

/-- The sum of two machine words, if it is one. -/
def addWords? (a b : Nat) : Option Nat := if a + b ≤ maxWord then some (a + b) else none

structure Point where
  row : Nat
  column : Nat
  deriving DecidableEq, Repr, Inhabited

namespace Point

def origin : Point := ⟨0, 0⟩

/-- Points are ordered by row, then by column. -/
instance : Ord Point := ⟨fun p q => (compare p.row q.row).then (compare p.column q.column)⟩

def before (p q : Point) : Bool := p.row < q.row || (p.row == q.row && p.column < q.column)

def shift (base p : Point) : Point :=
  if p.row = 0 then ⟨base.row, base.column + p.column⟩
  else ⟨base.row + p.row, p.column⟩

end Point

/-- A range of bytes, the end excluded, with the points of both ends. -/
structure Span where
  startByte : Nat
  endByte : Nat
  startPoint : Point
  endPoint : Point
  deriving DecidableEq, Repr, Inhabited

namespace Span

/-- The least span that reaches as far as both spans. -/
def extend (s other : Span) : Span :=
  let s :=
    if other.startByte < s.startByte then
      { s with startByte := other.startByte, startPoint := other.startPoint }
    else s
  if other.endByte > s.endByte then
    { s with endByte := other.endByte, endPoint := other.endPoint }
  else s

def contains (s other : Span) : Bool :=
  s.startByte ≤ other.startByte && other.endByte ≤ s.endByte

def shift (baseByte : Nat) (basePoint : Point) (s : Span) : Span where
  startByte := baseByte + s.startByte
  endByte := baseByte + s.endByte
  startPoint := basePoint.shift s.startPoint
  endPoint := basePoint.shift s.endPoint

/-- Spans by their start, the longer one first. -/
def startsBefore (s other : Span) : Bool :=
  s.startByte < other.startByte || (s.startByte == other.startByte && other.endByte ≤ s.endByte)

end Span

/-- The start of every row, and the size of the buffer. -/
structure LineTable where
  starts : List Nat
  size : Nat
  deriving Repr

namespace LineTable

/-- The offsets just past the line feeds of a buffer whose first octet is followed by `next`. -/
def afterLineFeeds : Nat → Bytes → List Nat
  | _, [] => []
  | next, b :: bs =>
      if b = 10 then next :: afterLineFeeds (next + 1) bs else afterLineFeeds (next + 1) bs

/-- The table of a buffer: row zero starts it, and every line feed starts a row after itself. -/
def ofBytes (source : Bytes) : LineTable := ⟨0 :: afterLineFeeds 1 source, source.length⟩

/-- The number of rows; a final line feed opens a last empty row. -/
def rowCount (t : LineTable) : Nat := t.starts.length

def lastRow (t : LineTable) : Nat := t.starts.length - 1

def lineStart (t : LineTable) (row : Nat) : Nat := t.starts.getD (min row t.lastRow) 0

/-- The offset just past the line feed of a row, or the end of the buffer for the last row. -/
def lineEnd (t : LineTable) (row : Nat) : Nat := t.starts.getD (row + 1) t.size

/-- The end of a row that a caller names. -/
def lineEnd? (t : LineTable) (row : Nat) : Option Nat := do
  let next ← addWords? row 1
  return t.starts.getD next t.size

def rowOf (t : LineTable) (byte : Nat) : Nat := t.starts.countP (· ≤ min byte t.size) - 1

def pointOf (t : LineTable) (byte : Nat) : Point :=
  let row := t.rowOf byte
  ⟨row, min byte t.size - t.starts.getD row 0⟩

/-- The offset of a point, at most the end of its row. -/
def byteOf (t : LineTable) (p : Point) : Nat :=
  let row := min p.row t.lastRow
  min (t.starts.getD row 0 + p.column) (t.lineEnd row)

/-- The offset of a point that a caller names. -/
def byteOf? (t : LineTable) (p : Point) : Option Nat := do
  let row := min p.row t.lastRow
  let byte ← addWords? (t.starts.getD row 0) p.column
  return min byte (← t.lineEnd? row)

/-- The span between two offsets, each cut back to the buffer and the start to the end. -/
def spanOf (t : LineTable) (startByte endByte : Nat) : Span :=
  let stop := min endByte t.size
  let start := min startByte stop
  ⟨start, stop, t.pointOf start, t.pointOf stop⟩

end LineTable

end CodeAtlas
