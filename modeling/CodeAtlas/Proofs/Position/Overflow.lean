import CodeAtlas.Proofs.Block.Merge
import CodeAtlas.Proofs.Position.Order

/-!
# Lookups of any position

A lookup adds to the row and the column that a caller names before it cuts back what is out of
range. It has an answer as long as the sums are machine words, and the answer then lies in the row.
For what is looked up in a buffer itself the sums always are.
-/

namespace CodeAtlas

namespace LineTable

/-- Whether the lookups of the end of a row, and of a column in it, have answers inside the row and
the buffer. -/
def Clamps (t : LineTable) (row column : Nat) : Prop :=
  ∃ stop byte, t.lineEnd? row = some stop ∧ t.byteOf? ⟨row, column⟩ = some byte ∧
    t.lineStart row ≤ byte ∧ byte ≤ stop ∧ stop ≤ t.size

section Lookups

private theorem lineEnd?_eq_none_iff (t : LineTable) (row : Nat) :
    t.lineEnd? row = none ↔ maxWord ≤ row := by
  rw [lineEnd?_eq_ite, ite_eq_right_iff]
  simp

variable (source : Bytes)

private theorem lineStart_eq_edge_min (row : Nat) : (ofBytes source).lineStart row =
    (ofBytes source).edge (min row (ofBytes source).lastRow) := by
  rw [← lineStart_eq_edge source (Nat.min_le_right _ _), lineStart, lineStart, Nat.min_assoc,
    Nat.min_self]

private theorem lineEnd_eq_edge_min (row : Nat) : (ofBytes source).lineEnd row =
    (ofBytes source).edge (min row (ofBytes source).lastRow + 1) := by
  rw [lineEnd_eq_edge]
  rcases Nat.le_total row (ofBytes source).lastRow with h | h
  · rw [Nat.min_eq_left h]
  · rw [Nat.min_eq_right h, edge_of_lastRow_lt source (by omega),
      edge_of_lastRow_lt source (by omega)]

private theorem byteOf_mem_row (row column : Nat) :
    (ofBytes source).lineStart row ≤ (ofBytes source).byteOf ⟨row, column⟩ ∧
      (ofBytes source).byteOf ⟨row, column⟩ ≤ (ofBytes source).lineEnd row := by
  have hnext := edge_mono source (Nat.le_add_right (min row (ofBytes source).lastRow) 1)
  rw [byteOf_eq, lineEnd_eq_edge_min, lineStart_eq_edge_min]
  dsimp only
  omega

/-- An offset past the end is taken for the end, which lies in the last row. -/
theorem rowOf_clamps (byte : Nat) :
    (ofBytes source).lineStart ((ofBytes source).rowOf byte) ≤ min byte source.length ∧
      min byte source.length ≤ (ofBytes source).lineEnd ((ofBytes source).rowOf byte) := by
  have hrow : (ofBytes source).rowOf byte = (ofBytes source).rowOf (min byte source.length) :=
    congrArg Point.row (pointOf_min (ofBytes source) byte).symm
  have hlast := rowOf_le_lastRow source (min byte source.length)
  have hfits := Nat.min_le_right byte source.length
  rw [hrow, lineStart_eq_edge source hlast, lineEnd_eq_edge]
  exact ⟨edge_rowOf_le source hfits, le_edge_rowOf_succ source hfits⟩

variable {source} (hsize : source.length < maxWord)
include hsize

private theorem byteOf?_eq_none_iff (p : Point) : (ofBytes source).byteOf? p = none ↔
    maxWord < (ofBytes source).lineStart p.row + p.column := by
  rw [byteOf?_eq_ite source hsize, ite_eq_right_iff]
  simp

private theorem clamps_iff (row column : Nat) : (ofBytes source).Clamps row column ↔
    row < maxWord ∧ (ofBytes source).lineStart row + column ≤ maxWord := by
  rw [Clamps, lineEnd?_eq_ite, byteOf?_eq_ite source hsize]
  constructor
  · rintro ⟨stop, byte, hstop, hbyte, -⟩
    exact ⟨(Option.ite_none_right_eq_some.mp hstop).1, (Option.ite_none_right_eq_some.mp hbyte).1⟩
  · rintro ⟨hrow, hcolumn⟩
    obtain ⟨hstart, hend⟩ := byteOf_mem_row source row column
    refine ⟨_, _, if_pos hrow, if_pos hcolumn, hstart, hend, ?_⟩
    rw [lineEnd_eq_edge]
    exact edge_le_length source (row + 1)

end Lookups

end LineTable

namespace Block

open LineTable

private theorem continues?_eq_none_iff (rows : List Text) (last next : Span) :
    continues? rows last next = none ↔
      last.endByte < next.startByte ∧ maxWord ≤ last.endPoint.row := by
  rw [continues?_eq_ite, ite_eq_right_iff, Comparable]
  simp only [reduceCtorEq, imp_false]
  omega

private theorem merge?_widened {source : Bytes} (hsize : source.length < maxWord) (context : Nat)
    (blocks : List Block) :
    merge? (Text.rows (Utf8.decodeLossy source)) (widened source context blocks) =
      some (normalize source context blocks) := by
  have hrows : ∀ b ∈ widened source context blocks, b.span.endPoint.row < maxWord := by
    intro b hb
    obtain ⟨a, -, rfl⟩ := mem_widened.mp hb
    have hrow : (widen (ofBytes source) context a).span.endPoint.row ≤ (ofBytes source).lastRow :=
      rowOf_le_lastRow source _
    have hlast := lastRow_le_length source
    omega
  obtain ⟨out, hout⟩ := Option.ne_none_iff_exists'.mp fun h =>
    not_overruns_of_forall_lt hrows (merge?_eq_none_iff.mp h)
  rw [hout, eq_merge_of_merge?_eq hout, normalize_eq]

end Block

namespace LineTable

/-- Lookups of offsets are always cut back to the buffer. Lookups of a row and a column have answers
inside the row exactly if the row is not the last machine word and the column, counted from the
start of the row, is a machine word: the first sum is what the end of a row fails at, and the second
one what the offset of a point fails at. Comparing two blocks fails exactly if the later one starts
past the end of the earlier one and that one ends in the last machine word; widened blocks never do.
-/
theorem lookups_clamp_iff (source : Bytes) (hsize : source.length < maxWord) :
    (∀ row column, (ofBytes source).Clamps row column ↔
        row < maxWord ∧ (ofBytes source).lineStart row + column ≤ maxWord) ∧
      (∀ row, (ofBytes source).lineEnd? row = none ↔ maxWord ≤ row) ∧
      (∀ p, (ofBytes source).byteOf? p = none ↔
        maxWord < (ofBytes source).lineStart p.row + p.column) ∧
      (∀ byte, (ofBytes source).rowOf byte ≤ (ofBytes source).lastRow ∧
        (ofBytes source).lineStart ((ofBytes source).rowOf byte) ≤ min byte source.length ∧
        min byte source.length ≤ (ofBytes source).lineEnd ((ofBytes source).rowOf byte) ∧
        (ofBytes source).pointOf byte = (ofBytes source).pointOf (min byte source.length)) ∧
      (∀ rows last next, Block.continues? rows last next = none ↔
        last.endByte < next.startByte ∧ maxWord ≤ last.endPoint.row) ∧
      ∀ context blocks,
        Block.merge? (Text.rows (Utf8.decodeLossy source)) (Block.widened source context blocks) =
          some (Block.normalize source context blocks) := by
  refine ⟨clamps_iff hsize, lineEnd?_eq_none_iff _, byteOf?_eq_none_iff hsize, fun byte => ?_,
    Block.continues?_eq_none_iff, Block.merge?_widened hsize⟩
  obtain ⟨hstart, hend⟩ := rowOf_clamps source byte
  exact ⟨rowOf_le_lastRow source byte, hstart, hend, (pointOf_min (ofBytes source) byte).symm⟩

section

open TwoLines

theorem lookups_clamp_iff_far :
    source.length < maxWord ∧ (ofBytes source).Clamps (maxWord - 1) 17 ∧
      (ofBytes source).byteOf? ⟨1, maxWord⟩ = none := by
  have hsize : source.length < maxWord := by decide
  obtain ⟨hclamps, -, hbyte, -⟩ := lookups_clamp_iff source hsize
  exact ⟨hsize, (hclamps (maxWord - 1) 17).mpr (by decide), (hbyte ⟨1, maxWord⟩).mpr (by decide)⟩

open Block.LastRow in
/-- The last machine word has no answer as a row, as a column in the second line, and as the last
row of a block that another one is compared with. -/
theorem lookups_fail_at_last_word :
    ¬(ofBytes source).Clamps maxWord 0 ∧ ¬(ofBytes source).Clamps 1 maxWord ∧
      (ofBytes source).lineEnd? maxWord = none ∧ (ofBytes source).byteOf? ⟨1, maxWord⟩ = none ∧
      Block.continues? (Text.rows (Utf8.decodeLossy source)) endless second = none := by
  have hend : (ofBytes source).lineEnd? maxWord = none := by decide
  have hbyte : (ofBytes source).byteOf? ⟨1, maxWord⟩ = none := by decide
  refine ⟨?_, ?_, hend, hbyte, by decide⟩
  · rintro ⟨stop, byte, hstop, -⟩
    rw [hend] at hstop
    cases hstop
  · rintro ⟨stop, byte, -, hfound, -⟩
    rw [hbyte] at hfound
    cases hfound

end

end LineTable

end CodeAtlas
