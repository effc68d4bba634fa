import CodeAtlas.Proofs.Block.Context

/-!
# The rows around a block

A widened block is known byte by byte: it has the bytes of the rows that the block covers and of the
rows around them, and no others. What a block covers is what lies in the buffer, so nothing is asked
of its two ends.
-/

namespace CodeAtlas

/-- The bytes of some rows are those whose row is one of them. -/
theorem LineTable.mem_rowSpan_iff {source : Bytes} {first last i : Nat} (hle : first ≤ last)
    (hlast : last ≤ (ofBytes source).lastRow) (hi : i < source.length) :
    ((ofBytes source).rowSpan first last).startByte ≤ i ∧
        i < ((ofBytes source).rowSpan first last).endByte ↔
      first ≤ (ofBytes source).rowOf i ∧ (ofBytes source).rowOf i ≤ last := by
  rw [rowSpan_eq hle]
  dsimp only
  apply and_congr
  · exact edge_le_iff source (Nat.le_trans hle hlast) (Nat.le_of_lt hi)
  · rcases Nat.lt_or_ge last (ofBytes source).lastRow with hnext | hnext
    · have hedge := edge_le_iff source (show last + 1 ≤ _ from hnext) (Nat.le_of_lt hi)
      omega
    · have hrow := rowOf_le_lastRow source i
      rw [edge_of_lastRow_lt source (Nat.lt_succ_of_le hnext)]
      omega

namespace Block

open LineTable

section Covered

variable (source : Bytes) (b : Block)

def coveredEnd : Nat := min b.span.endByte source.length

/-- The start of what a block covers of a buffer; it is not behind the end. -/
def coveredStart : Nat := min b.span.startByte (b.coveredEnd source)

def coveredFirst : Nat := (ofBytes source).rowOf (b.coveredStart source)

/-- The last row of what a block covers, without a row of which it reaches the start only. -/
def coveredLast : Nat := endRow (ofBytes source) (b.coveredFirst source) (b.coveredEnd source)

/-- Whether a block is what another one covers of a buffer, with `context` rows on both sides: it
has whole rows, these rows and no others. -/
structure Surrounds (context : Nat) (o : Block) : Prop where
  lines : o.span.WholeLines source
  start_point : o.span.startPoint = (ofBytes source).pointOf o.span.startByte
  end_point : o.span.endPoint = (ofBytes source).pointOf o.span.endByte
  start_row : o.span.startPoint.row ≤ (ofBytes source).lastRow
  end_row : o.span.endPoint.row ≤ (ofBytes source).lastRow
  covers_start : o.span.startByte ≤ b.coveredStart source
  covers_end : b.coveredEnd source ≤ o.span.endByte
  first_row : o.span.startByte = (ofBytes source).lineStart (b.coveredFirst source - context)
  last_row : o.span.endByte =
    (ofBytes source).lineEnd (min (b.coveredLast source + context) (ofBytes source).lastRow)
  bytes : ∀ i, i < source.length → (o.span.startByte ≤ i ∧ i < o.span.endByte ↔
    b.coveredFirst source - context ≤ (ofBytes source).rowOf i ∧
      (ofBytes source).rowOf i ≤ min (b.coveredLast source + context) (ofBytes source).lastRow)

variable {source}

private theorem firstRow_upright : b.upright.firstRow source = b.coveredFirst source := by
  have hstart : min (min b.span.startByte b.span.endByte) source.length =
      b.coveredStart source := by
    rw [coveredStart, coveredEnd]
    omega
  simp only [firstRow, upright, hstart, coveredFirst]

private theorem finalRow_upright : b.upright.finalRow source = b.coveredLast source := by
  rw [finalRow, firstRow_upright]
  rfl

private theorem widen_span_covered (source : Bytes) (context : Nat) :
    (widen (ofBytes source) context b).span = (ofBytes source).rowSpan
      (b.coveredFirst source - context)
      (min (b.coveredLast source + context) (ofBytes source).lastRow) := by
  rw [← widen_upright, widen_span source (startByte_upright_le b), firstRow_upright,
    finalRow_upright]

private theorem covered_rows_le (context : Nat) : b.coveredFirst source - context ≤
    min (b.coveredLast source + context) (ofBytes source).lastRow := by
  rw [← firstRow_upright, ← finalRow_upright]
  exact widen_rows_le (startByte_upright_le b) context

private theorem widen_covers_covered (source : Bytes) (context : Nat) :
    (widen (ofBytes source) context b).span.startByte ≤ b.coveredStart source ∧
      b.coveredEnd source ≤ (widen (ofBytes source) context b).span.endByte := by
  have hcovers := widen_covers source (startByte_upright_le b) context
  rw [widen_upright] at hcovers
  simp only [upright] at hcovers
  rw [coveredStart, coveredEnd]
  omega

private theorem surrounds_widen (context : Nat) :
    b.Surrounds source context (widen (ofBytes source) context b) := by
  have hle : b.coveredFirst source - context ≤
      min (b.coveredLast source + context) (ofBytes source).lastRow := covered_rows_le b context
  have hlast := Nat.min_le_right (b.coveredLast source + context) (ofBytes source).lastRow
  have hspan := widen_span_covered b source context
  have hcovers := widen_covers_covered b source context
  have hstart : (widen (ofBytes source) context b).span.startByte =
      (ofBytes source).lineStart (b.coveredFirst source - context) := by
    rw [hspan, rowSpan_eq hle, lineStart_eq_edge source (Nat.le_trans hle hlast)]
  have hend : (widen (ofBytes source) context b).span.endByte = (ofBytes source).lineEnd
      (min (b.coveredLast source + context) (ofBytes source).lastRow) := by
    rw [hspan, rowSpan_eq hle, lineEnd_eq_edge]
  constructor
  case lines =>
    rw [hspan]
    exact wholeLines_rowSpan source hle hlast
  case start_point => rfl
  case end_point => rfl
  case start_row => exact rowOf_le_lastRow source _
  case end_row => exact rowOf_le_lastRow source _
  case covers_start => exact hcovers.1
  case covers_end => exact hcovers.2
  case first_row => exact hstart
  case last_row => exact hend
  case bytes =>
    intro i hi
    rw [hspan]
    exact mem_rowSpan_iff hle hlast hi

end Covered

/-- Each widened block lies in the buffer, contains what its block covers, has the points of its two
ends, and consists of the rows of the block and of the rows around them that the buffer has. -/
theorem widenAll_takes_rows_around (source : Bytes) (context : Nat) (blocks : List Block) :
    List.Forall₂ (fun b o => b.Surrounds source context o) blocks
      (widenAll source context blocks) := by
  rw [widenAll, List.forall₂_map_right_iff]
  apply List.forall₂_same.mpr
  intro b _
  exact surrounds_widen b context

end Block

end CodeAtlas
