import CodeAtlas.Order
import CodeAtlas.Position
import CodeAtlas.Text.Basic

/-!
# Blocks

A block is a span of a buffer that is shown as one piece, with the span of the name it defines if
that is known and lies inside. In their normal form blocks are widened to whole lines with some
context around them, and joined where they overlap, touch or have only blank lines between them.
-/

namespace CodeAtlas

/-- A span of a buffer, and the span of the name it defines. -/
structure Block where
  span : Span
  name : Option Span := none
  deriving DecidableEq, Repr, Inhabited

namespace Block

/-- Attach a name, provided that the block contains it. -/
def withName (b : Block) (name : Span) : Block :=
  if b.span.contains name then { b with name := some name } else b

def text (source : Bytes) (b : Block) : Text :=
  let stop := min b.span.endByte source.length
  let start := min b.span.startByte stop
  Utf8.decodeLossy (source.slice start stop)

end Block

end CodeAtlas

namespace CodeAtlas.Block

/-- Widen a block to whole lines and by `context` rows on both sides. An end at the start of a
later row leaves that row out. The name stays if the result contains it. -/
def widen (table : LineTable) (context : Nat) (b : Block) : Block :=
  let span := table.spanOf b.span.startByte b.span.endByte
  let first := span.startPoint.row
  let last :=
    if span.endPoint.column = 0 ∧ first < span.endPoint.row then span.endPoint.row - 1
    else span.endPoint.row
  let wide :=
    table.spanOf (table.lineStart (first - context))
      (table.lineEnd (min (last + context) table.lastRow))
  ⟨wide, b.name.filter wide.contains⟩

def widenAll (source : Bytes) (context : Nat) (blocks : List Block) : List Block :=
  blocks.map (widen (LineTable.ofBytes source) context)

/-- Whether all rows from one row up to another one are blank. A row the text does not have is
blank. -/
def blankBetween (rows : List Text) (first stop : Nat) : Bool :=
  stop ≤ first || ((rows.drop first).take (stop - first)).all Text.isBlank

/-- Whether the block `next` continues the block `last`: it starts inside it, or no row after the
one in which `last` ends is in the way. -/
def continues (rows : List Text) (last next : Span) : Bool :=
  next.startByte ≤ last.endByte ||
    blankBetween rows (last.endPoint.row + 1) next.startPoint.row

/-- Whether one block that a caller gives continues another one. The row after the earlier block is
not asked for where the later one starts inside it. -/
def continues? (rows : List Text) (last next : Span) : Option Bool :=
  if next.startByte ≤ last.endByte then some true
  else do
    let after ← addWords? last.endPoint.row 1
    return blankBetween rows after next.startPoint.row

/-- Move the end of a block forward to the end of a later one. -/
def absorb (last next : Block) : Block :=
  if next.span.endByte > last.span.endByte then
    { last with span :=
        { last.span with endByte := next.span.endByte, endPoint := next.span.endPoint } }
  else last

section Merge

variable {m : Type → Type} [Monad m] (joins : Span → Span → m Bool)

/-- Join every block to the one before it that it continues, `last` being the first one. -/
def mergeAfter (last : Block) : List Block → m (List Block)
  | [] => return [last]
  | next :: rest => do
      if ← joins last.span next.span then mergeAfter (absorb last next) rest
      else return last :: (← mergeAfter next rest)

def mergeWith : List Block → m (List Block)
  | [] => return []
  | b :: rest => mergeAfter joins b rest

end Merge

/-- Join every block of a buffer to the one before it that it continues. -/
def merge (rows : List Text) (blocks : List Block) : List Block :=
  Id.run <| mergeWith (fun last next => pure (continues rows last next)) blocks

/-- Join every block that a caller gives to the one before it that it continues. -/
def merge? (rows : List Text) (blocks : List Block) : Option (List Block) :=
  mergeWith (continues? rows) blocks

/-- Sort blocks by their start, the longer one first; then widen and merge them. -/
def normalize (source : Bytes) (context : Nat) (blocks : List Block) : List Block :=
  let sorted := sortBy (fun a b => a.span.startsBefore b.span) blocks
  merge (Text.rows (Utf8.decodeLossy source)) (widenAll source context sorted)

end CodeAtlas.Block
