import CodeAtlas.Block
import CodeAtlas.Proofs.Order
import CodeAtlas.Proofs.Position.LineTable
import Mathlib.Data.List.Pairwise

/-!
# The normal form of blocks

Widening makes blocks of whole rows and keeps their order. Merging goes through them from the left
and moves ends only, so each block that is left starts where a widened one does, ends where one
does, and leaves a gap to the next.
-/

namespace CodeAtlas.Block

open LineTable

section Widen

variable (source : Bytes)

/-- The last row of a block that starts in row `first` and ends at the offset `stop`: an end at the
start of a later row leaves that row out. -/
def endRow (t : LineTable) (first stop : Nat) : Nat :=
  if (t.pointOf stop).column = 0 ∧ first < t.rowOf stop then t.rowOf stop - 1 else t.rowOf stop

private theorem le_edge_endRow_succ (first : Nat) {stop : Nat} (hstop : stop ≤ source.length) :
    stop ≤ (ofBytes source).edge (endRow (ofBytes source) first stop + 1) := by
  rw [endRow]
  split
  · next h =>
      rw [pointOf_column source hstop] at h
      rw [Nat.sub_add_cancel (by omega)]
      omega
  · exact le_edge_rowOf_succ source hstop

/-- A block that ends where a row ends has this row for its last one. Only the last row of the
buffer is left out if it is empty, and then the row before it ends at the same offset. -/
private theorem edge_endRow_add {first last : Nat} (h : first ≤ last)
    (hlast : last ≤ (ofBytes source).lastRow) (context : Nat) :
    (ofBytes source).edge
        (min (endRow (ofBytes source) first ((ofBytes source).edge (last + 1)) + context)
          (ofBytes source).lastRow + 1) =
      (ofBytes source).edge (min (last + context) (ofBytes source).lastRow + 1) := by
  by_cases hnext : last + 1 ≤ (ofBytes source).lastRow
  · have hcolumn := pointOf_column source (edge_le_length source (last + 1))
    rw [rowOf_edge source hnext, Nat.sub_self] at hcolumn
    rw [endRow, rowOf_edge source hnext, if_pos ⟨hcolumn, by omega⟩, Nat.add_sub_cancel]
  · have hwhole := edge_of_lastRow_lt source (Nat.not_le.mp hnext)
    have hcovers := le_edge_endRow_succ source first (Nat.le_refl source.length)
    rw [hwhole]
    generalize endRow (ofBytes source) first source.length = row at hcovers ⊢
    have hfits : min (last + context) (ofBytes source).lastRow = last := by omega
    have hrow : row + 1 ≤ min (row + context) (ofBytes source).lastRow + 1 ∨
        (ofBytes source).lastRow < min (row + context) (ofBytes source).lastRow + 1 := by omega
    rw [hfits, hwhole]
    rcases hrow with hrow | hrow
    · exact Nat.le_antisymm (edge_le_length source _)
        (Nat.le_trans hcovers (edge_mono source hrow))
    · exact edge_of_lastRow_lt source hrow

def firstRow (b : Block) : Nat := (ofBytes source).rowOf (min b.span.startByte source.length)

def finalRow (b : Block) : Nat :=
  endRow (ofBytes source) (b.firstRow source) (min b.span.endByte source.length)

variable {source} {a b : Block}

private theorem firstRow_le_lastRow : b.firstRow source ≤ (ofBytes source).lastRow :=
  rowOf_le_lastRow source _

private theorem finalRow_le_lastRow : b.finalRow source ≤ (ofBytes source).lastRow := by
  have := rowOf_le_lastRow source (min b.span.endByte source.length)
  rw [finalRow, endRow]
  split <;> omega

theorem firstRow_le_finalRow (hb : b.span.startByte ≤ b.span.endByte) :
    b.firstRow source ≤ b.finalRow source := by
  have hrows : b.firstRow source ≤ (ofBytes source).rowOf (min b.span.endByte source.length) :=
    rowOf_mono source (by omega)
  rw [finalRow, endRow]
  split <;> omega

/-- A widened block has the rows of the block and the context around them. -/
theorem widen_span (source : Bytes)
    (hb : b.span.startByte ≤ b.span.endByte) (context : Nat) :
    (widen (ofBytes source) context b).span = (ofBytes source).rowSpan
      (b.firstRow source - context)
      (min (b.finalRow source + context) (ofBytes source).lastRow) := by
  have hspan : (ofBytes source).spanOf b.span.startByte b.span.endByte =
      ⟨min b.span.startByte source.length, min b.span.endByte source.length,
        (ofBytes source).pointOf (min b.span.startByte source.length),
        (ofBytes source).pointOf (min b.span.endByte source.length)⟩ := by
    have hstart : min b.span.startByte source.length =
        min b.span.startByte (min b.span.endByte source.length) := by omega
    rw [hstart]
    rfl
  have hrow : b.firstRow source ≤ (ofBytes source).lastRow := firstRow_le_lastRow
  rw [rowSpan, ← lineStart_eq_edge source (by omega),
    ← lineEnd_eq_edge, widen, hspan, finalRow, endRow, firstRow]
  rfl

theorem widen_rows_le (hb : b.span.startByte ≤ b.span.endByte) (context : Nat) :
    b.firstRow source - context ≤
      min (b.finalRow source + context) (ofBytes source).lastRow := by
  have hfirst : b.firstRow source ≤ (ofBytes source).lastRow := firstRow_le_lastRow
  have hle : b.firstRow source ≤ b.finalRow source := firstRow_le_finalRow hb
  omega

/-- Whether a block consists of whole rows and contains its name. -/
structure OfRows (source : Bytes) (b : Block) : Prop where
  rows : ∃ first last, first ≤ last ∧ last ≤ (ofBytes source).lastRow ∧
    b.span = (ofBytes source).rowSpan first last
  name : ∀ name, b.name = some name → b.span.contains name = true

theorem OfRows.wholeLines (h : b.OfRows source) : b.span.WholeLines source := by
  obtain ⟨first, last, hle, hlast, hspan⟩ := h.rows
  rw [hspan]
  exact wholeLines_rowSpan source hle hlast

theorem ofRows_widen (source : Bytes) (hb : b.span.startByte ≤ b.span.endByte)
    (context : Nat) : (widen (ofBytes source) context b).OfRows source :=
  ⟨⟨_, _, widen_rows_le hb context, Nat.min_le_right _ _, widen_span source hb context⟩,
    fun _ hname => (Option.filter_eq_some_iff.mp hname).2⟩

theorem widen_covers (source : Bytes) (hb : b.span.startByte ≤ b.span.endByte)
    (context : Nat) :
    (widen (ofBytes source) context b).span.startByte ≤ min b.span.startByte source.length ∧
      min b.span.endByte source.length ≤ (widen (ofBytes source) context b).span.endByte := by
  have hfinal : b.finalRow source ≤ (ofBytes source).lastRow := finalRow_le_lastRow
  rw [widen_span source hb, rowSpan_eq (widen_rows_le hb context)]
  refine ⟨?_, ?_⟩
  · exact Nat.le_trans (edge_mono source (Nat.sub_le _ _))
      (edge_rowOf_le source (Nat.min_le_right _ _))
  · exact Nat.le_trans (le_edge_endRow_succ source _ (Nat.min_le_right _ _))
      (edge_mono source (by rw [← finalRow]; omega))

private theorem startByte_widen_mono (source : Bytes)
    (ha : a.span.startByte ≤ a.span.endByte) (hb : b.span.startByte ≤ b.span.endByte)
    (context : Nat) (hab : a.span.startByte ≤ b.span.startByte) :
    (widen (ofBytes source) context a).span.startByte ≤
      (widen (ofBytes source) context b).span.startByte := by
  have hrow : a.firstRow source ≤ b.firstRow source :=
    rowOf_mono source (by omega)
  rw [widen_span source ha, widen_span source hb, rowSpan_eq (widen_rows_le ha context),
    rowSpan_eq (widen_rows_le hb context)]
  exact edge_mono source (by omega)

theorem widen_span_of_rows {first last : Nat}
    (hle : first ≤ last) (hlast : last ≤ (ofBytes source).lastRow)
    (hspan : b.span = (ofBytes source).rowSpan first last) (context : Nat) :
    (widen (ofBytes source) context b).span = (ofBytes source).rowSpan (first - context)
      (min (last + context) (ofBytes source).lastRow) := by
  have hordered : b.span.startByte ≤ b.span.endByte := by
    rw [hspan]
    exact (wholeLines_rowSpan source hle hlast).ordered
  rw [rowSpan_eq hle] at hspan
  have hfirst : b.firstRow source = first := by
    rw [firstRow, hspan, Nat.min_eq_left (edge_le_length source first),
      rowOf_edge source (Nat.le_trans hle hlast)]
  have hfinal : b.finalRow source =
      endRow (ofBytes source) first ((ofBytes source).edge (last + 1)) := by
    rw [finalRow, hfirst, hspan, Nat.min_eq_left (edge_le_length source (last + 1))]
  rw [widen_span source hordered, hfirst, hfinal, rowSpan, edge_endRow_add source hle hlast,
    rowSpan]

private theorem OfRows.widen_zero (h : b.OfRows source) :
    widen (ofBytes source) 0 b = b := by
  obtain ⟨first, last, hle, hlast, hspan⟩ := h.rows
  have hsame : (widen (ofBytes source) 0 b).span = b.span := by
    rw [widen_span_of_rows hle hlast hspan, Nat.sub_zero, Nat.add_zero, Nat.min_eq_left hlast,
      hspan]
  have hname : (widen (ofBytes source) 0 b).name = b.name := by
    change b.name.filter (widen (ofBytes source) 0 b).span.contains = b.name
    rw [hsame]
    cases hn : b.name with
    | none => rfl
    | some name => exact Option.filter_some_pos (h.name name hn)
  calc
    _ = ⟨(widen (ofBytes source) 0 b).span, (widen (ofBytes source) 0 b).name⟩ := rfl
    _ = b := by rw [hsame, hname]

end Widen

section Merge

variable {rows : List Text}

theorem startByte_absorb (last next : Block) :
    (absorb last next).span.startByte = last.span.startByte := by
  rw [absorb]
  split <;> rfl

private theorem endByte_absorb (last next : Block) :
    (absorb last next).span.endByte = max last.span.endByte next.span.endByte := by
  rw [absorb]
  split
  · next h => exact (Nat.max_eq_right (Nat.le_of_lt h)).symm
  · next h => exact (Nat.max_eq_left (Nat.not_lt.mp h)).symm

theorem startPoint_absorb (last next : Block) :
    (absorb last next).span.startPoint = last.span.startPoint := by
  rw [absorb]
  split <;> rfl

theorem name_absorb (last next : Block) : (absorb last next).name = last.name := by
  rw [absorb]
  split <;> rfl

theorem contains_absorb {last : Block} {s : Span} (h : last.span.contains s = true) (next : Block) :
    (absorb last next).span.contains s = true := by
  simp only [Span.contains, Bool.and_eq_true, decide_eq_true_eq, startByte_absorb,
    endByte_absorb] at h ⊢
  omega

private theorem lt_of_not_continues {last next : Span} (h : ¬continues rows last next = true) :
    last.endByte < next.startByte := by
  simp only [continues, Bool.or_eq_true, decide_eq_true_eq, not_or] at h
  omega

@[simp] theorem merge_nil (rows : List Text) : merge rows [] = [] := rfl

@[simp] theorem merge_singleton (rows : List Text) (b : Block) : merge rows [b] = [b] := rfl

theorem merge_cons_cons (rows : List Text) (last next : Block) (rest : List Block) :
    merge rows (last :: next :: rest) =
      if continues rows last.span next.span then merge rows (absorb last next :: rest)
      else last :: merge rows (next :: rest) := by
  simp only [merge, mergeWith, mergeAfter, pure_bind]
  split <;> rfl

/-- What holds of the empty list, of a single block, and of the blocks that are looked at next
after a step of merging holds of all lists of blocks. -/
theorem merge_induction {motive : List Block → Prop} (rows : List Text) (nil : motive [])
    (single : ∀ b, motive [b])
    (join : ∀ last next rest, continues rows last.span next.span = true →
      motive (absorb last next :: rest) → motive (last :: next :: rest))
    (skip : ∀ last next rest, ¬continues rows last.span next.span = true →
      motive (next :: rest) → motive (last :: next :: rest))
    (blocks : List Block) : motive blocks := by
  cases blocks with
  | nil => exact nil
  | cons last blocks =>
      induction blocks generalizing last with
      | nil => exact single last
      | cons next rest ih =>
          by_cases h : continues rows last.span next.span = true
          · exact join last next rest h (ih _)
          · exact skip last next rest h (ih _)

/-- What joining two blocks keeps holds of all that is left. -/
theorem forall_mem_merge {p : Block → Prop} (hp : ∀ a b, p a → p b → p (absorb a b))
    {blocks : List Block} (hblocks : ∀ b ∈ blocks, p b) : ∀ o ∈ merge rows blocks, p o := by
  induction blocks using merge_induction rows with
  | nil => simp
  | single b => simpa using hblocks
  | join last next rest h ih =>
      obtain ⟨hlast, hnext, hrest⟩ := by simpa only [List.forall_mem_cons] using hblocks
      rw [merge_cons_cons, if_pos h]
      exact ih (List.forall_mem_cons.mpr ⟨hp last next hlast hnext, hrest⟩)
  | skip last next rest h ih =>
      obtain ⟨hlast, hrest⟩ := List.forall_mem_cons.mp hblocks
      rw [merge_cons_cons, if_neg h]
      exact List.forall_mem_cons.mpr ⟨hlast, ih hrest⟩

private theorem pairwise_absorb {last next : Block} {rest : List Block}
    (hsorted : (last :: next :: rest).Pairwise (fun a b => a.span.startByte ≤ b.span.startByte)) :
    (absorb last next :: rest).Pairwise (fun a b => a.span.startByte ≤ b.span.startByte) := by
  obtain ⟨hlast, hrest⟩ := List.pairwise_cons.mp hsorted
  refine List.pairwise_cons.mpr ⟨fun b hb => ?_, (List.pairwise_cons.mp hrest).2⟩
  rw [startByte_absorb]
  exact hlast b (.tail _ hb)

private theorem pairwise_merge {blocks : List Block}
    (hsorted : blocks.Pairwise (fun a b => a.span.startByte ≤ b.span.startByte)) :
    (merge rows blocks).Pairwise (fun a b => a.span.endByte < b.span.startByte) := by
  induction blocks using merge_induction rows with
  | nil => exact .nil
  | single b => exact List.pairwise_singleton _ _
  | join last next rest h ih =>
      rw [merge_cons_cons, if_pos h]
      exact ih (pairwise_absorb hsorted)
  | skip last next rest h ih =>
      have hrest := (List.pairwise_cons.mp hsorted).2
      rw [merge_cons_cons, if_neg h]
      refine List.pairwise_cons.mpr ⟨?_, ih hrest⟩
      -- No block that is left starts before `next`.
      apply forall_mem_merge
      · intro a b ha _
        rw [startByte_absorb]
        exact ha
      · have hnext := lt_of_not_continues h
        refine List.forall_mem_cons.mpr ⟨hnext, fun b hb => ?_⟩
        exact Nat.lt_of_lt_of_le hnext ((List.pairwise_cons.mp hrest).1 b hb)

theorem merge_covers (rows : List Text) {blocks : List Block}
    (hsorted : blocks.Pairwise (fun a b => a.span.startByte ≤ b.span.startByte)) :
    ∀ b ∈ blocks, ∃ o ∈ merge rows blocks,
      o.span.startByte ≤ b.span.startByte ∧ b.span.endByte ≤ o.span.endByte := by
  induction blocks using merge_induction rows with
  | nil => simp
  | single b => simp
  | join last next rest h ih =>
      have hnext := (List.pairwise_cons.mp hsorted).1 next (.head _)
      have hih := ih (pairwise_absorb hsorted)
      obtain ⟨o, ho, hstart, hend⟩ := hih _ (.head _)
      rw [startByte_absorb] at hstart
      rw [endByte_absorb] at hend
      rw [merge_cons_cons, if_pos h, List.forall_mem_cons, List.forall_mem_cons]
      exact ⟨⟨o, ho, hstart, by omega⟩, ⟨o, ho, Nat.le_trans hstart hnext, by omega⟩,
        fun b hb => hih b (.tail _ hb)⟩
  | skip last next rest h ih =>
      rw [merge_cons_cons, if_neg h, List.forall_mem_cons]
      refine ⟨⟨last, .head _, Nat.le_refl _, Nat.le_refl _⟩, fun b hb => ?_⟩
      obtain ⟨o, ho, hcovers⟩ := ih (List.pairwise_cons.mp hsorted).2 b hb
      exact ⟨o, .tail _ ho, hcovers⟩

theorem exists_merge_cons (rows : List Text) (last : Block) (blocks : List Block) :
    ∃ o rest, merge rows (last :: blocks) = o :: rest ∧
      o.span.startByte = last.span.startByte ∧ o.span.startPoint = last.span.startPoint := by
  induction blocks generalizing last with
  | nil => exact ⟨last, [], rfl, rfl, rfl⟩
  | cons next rest ih =>
      rw [merge_cons_cons]
      split
      · obtain ⟨o, rest', heq, hbyte, hpoint⟩ := ih (absorb last next)
        exact ⟨o, rest', heq, hbyte.trans (startByte_absorb last next),
          hpoint.trans (startPoint_absorb last next)⟩
      · exact ⟨last, _, rfl, rfl, rfl⟩

/-- No block that is left continues the one before it. -/
theorem isChain_merge (rows : List Text) (blocks : List Block) :
    (merge rows blocks).IsChain (fun a b => ¬continues rows a.span b.span = true) := by
  induction blocks using merge_induction rows with
  | nil => exact .nil
  | single b => exact .singleton b
  | join last next rest h ih =>
      rw [merge_cons_cons, if_pos h]
      exact ih
  | skip last next rest h ih =>
      obtain ⟨o, rest', heq, hbyte, hpoint⟩ := exists_merge_cons rows next rest
      rw [merge_cons_cons, if_neg h, heq]
      rw [heq] at ih
      refine .cons_cons ?_ ih
      simpa only [continues, hbyte, hpoint] using h

private theorem merge_of_isChain {blocks : List Block}
    (h : blocks.IsChain (fun a b => ¬continues rows a.span b.span = true)) :
    merge rows blocks = blocks := by
  induction blocks using merge_induction rows with
  | nil => rfl
  | single b => rfl
  | join last next rest hnext => exact absurd hnext (List.isChain_cons_cons.mp h).1
  | skip last next rest hnext ih =>
      rw [merge_cons_cons, if_neg hnext, ih (List.isChain_cons_cons.mp h).2]

private theorem merge_merge (blocks : List Block) :
    merge rows (merge rows blocks) = merge rows blocks :=
  merge_of_isChain (isChain_merge rows blocks)

private theorem span_absorb_congr {a a' b b' : Block} (ha : a.span = a'.span)
    (hb : b.span = b'.span) : (absorb a b).span = (absorb a' b').span := by
  rw [absorb, absorb, ha, hb]
  split <;> simp only [ha]

private theorem map_span_merge {blocks blocks' : List Block}
    (h : blocks.map (·.span) = blocks'.map (·.span)) :
    (merge rows blocks).map (·.span) = (merge rows blocks').map (·.span) := by
  induction blocks using merge_induction rows generalizing blocks' with
  | nil =>
      rw [List.map_nil, eq_comm, List.map_eq_nil_iff] at h
      rw [h]
  | single b =>
      obtain ⟨b', rfl, hb⟩ := List.map_eq_singleton_iff.mp h.symm
      simp [hb]
  | join last next rest hnext ih =>
      obtain ⟨last', tail, rfl, hlast, htail⟩ := List.map_eq_cons_iff.mp h.symm
      obtain ⟨next', rest', rfl, hnext', hrest⟩ := List.map_eq_cons_iff.mp htail
      rw [merge_cons_cons, merge_cons_cons, hlast, hnext', if_pos hnext, if_pos hnext]
      apply ih
      rw [List.map_cons, List.map_cons, span_absorb_congr hlast hnext', hrest]
  | skip last next rest hnext ih =>
      obtain ⟨last', tail, rfl, hlast, htail⟩ := List.map_eq_cons_iff.mp h.symm
      obtain ⟨next', rest', rfl, hnext', hrest⟩ := List.map_eq_cons_iff.mp htail
      rw [merge_cons_cons, merge_cons_cons, hlast, hnext', if_neg hnext, if_neg hnext,
        List.map_cons, List.map_cons, hlast, ih htail.symm]

section Rows

variable {source : Bytes} {a b : Block} {first last first' last' : Nat}

/-- Whether a block consists of the rows from `first` to `last`. -/
structure HasRows (source : Bytes) (b : Block) (first last : Nat) : Prop where
  le : first ≤ last
  fits : last ≤ (ofBytes source).lastRow
  span : b.span = (ofBytes source).rowSpan first last

theorem HasRows.span_eq (h : b.HasRows source first last) :
    b.span = ⟨(ofBytes source).edge first, (ofBytes source).edge (last + 1),
      (ofBytes source).pointOf ((ofBytes source).edge first),
      (ofBytes source).pointOf ((ofBytes source).edge (last + 1))⟩ := by
  rw [h.span, rowSpan_eq h.le]

/-- Joining a block to an earlier one moves its last row down. -/
theorem HasRows.absorb (ha : a.HasRows source first last) (hb : b.HasRows source first' last') :
    (absorb a b).HasRows source first (max last last') := by
  have hspan : (Block.absorb a b).span = (ofBytes source).rowSpan first (max last last') := by
    have hfirst := ha.le
    rw [rowSpan_eq (by omega), Block.absorb, ha.span_eq, hb.span_eq]
    split
    · next hlt =>
        have hlast : last < last' := by
          by_contra h
          have := edge_mono source (show last' + 1 ≤ last + 1 by omega)
          dsimp only at hlt
          omega
        rw [Nat.max_eq_right (Nat.le_of_lt hlast)]
    · next hge =>
        -- The last row may be empty; then two blocks that differ by it end at the same byte.
        have hedge : (ofBytes source).edge (max last last' + 1) =
            (ofBytes source).edge (last + 1) := by
          rcases Nat.le_total last' last with h | h
          · rw [Nat.max_eq_left h]
          · rw [Nat.max_eq_right h]
            have := edge_mono source (show last + 1 ≤ last' + 1 by omega)
            dsimp only at hge
            omega
        rw [hedge, ha.span_eq]
  have := ha.le
  have := ha.fits
  have := hb.fits
  exact ⟨by omega, by omega, hspan⟩

theorem OfRows.absorb (ha : a.OfRows source) (hb : b.OfRows source) :
    (absorb a b).OfRows source := by
  obtain ⟨first, last, hle, hlast, hspan⟩ := ha.rows
  obtain ⟨first', last', hle', hlast', hspan'⟩ := hb.rows
  have hjoined := HasRows.absorb ⟨hle, hlast, hspan⟩ ⟨hle', hlast', hspan'⟩
  refine ⟨⟨first, max last last', hjoined.le, hjoined.fits, hjoined.span⟩, fun name hname => ?_⟩
  rw [name_absorb] at hname
  exact contains_absorb (ha.name name hname) b

end Rows

end Merge

section Sorted

theorem startsBefore_iff {s t : Span} :
    s.startsBefore t = true ↔
      s.startByte < t.startByte ∨ s.startByte = t.startByte ∧ t.endByte ≤ s.endByte := by
  simp [Span.startsBefore]

theorem pairwise_sortBy_startsBefore {α : Type} (span : α → Span) (as : List α) :
    (sortBy (fun a b => (span a).startsBefore (span b)) as).Pairwise
      (fun a b => (span a).startsBefore (span b) = true) := by
  apply pairwise_sortBy
  · intro a b
    simp only [startsBefore_iff]
    omega
  · intro a b c
    simp only [startsBefore_iff]
    omega

theorem pairwise_sorted (blocks : List Block) :
    (sortBy (fun a b : Block => a.span.startsBefore b.span) blocks).Pairwise
      (fun a b => a.span.startsBefore b.span = true) :=
  pairwise_sortBy_startsBefore Block.span blocks

private theorem map_bytes_sortBy {blocks blocks' : List Block} (h : blocks.Perm blocks') :
    (sortBy (fun a b : Block => a.span.startsBefore b.span) blocks).map
        (fun b => (b.span.startByte, b.span.endByte)) =
      (sortBy (fun a b : Block => a.span.startsBefore b.span) blocks').map
        (fun b => (b.span.startByte, b.span.endByte)) := by
  have hsorted (blocks : List Block) :
      ((sortBy (fun a b : Block => a.span.startsBefore b.span) blocks).map
        (fun b => (b.span.startByte, b.span.endByte))).Pairwise
      (fun k l => k.1 < l.1 ∨ k.1 = l.1 ∧ l.2 ≤ k.2) := by
    rw [List.pairwise_map]
    exact (pairwise_sorted blocks).imp startsBefore_iff.mp
  refine List.Perm.eq_of_pairwise ?_ (hsorted blocks) (hsorted blocks') (List.Perm.map _ ?_)
  · intro k l _ _ hkl hlk
    exact Prod.ext (by omega) (by omega)
  · exact ((sortBy_perm _ blocks).trans h).trans (sortBy_perm _ blocks').symm

end Sorted

section Normalize

variable {source : Bytes} {blocks : List Block}

/-- The blocks that merging starts from. -/
def widened (source : Bytes) (context : Nat) (blocks : List Block) : List Block :=
  widenAll source context (sortBy (fun a b => a.span.startsBefore b.span) blocks)

theorem mem_widened {context : Nat} {b : Block} :
    b ∈ widened source context blocks ↔
      ∃ a ∈ blocks, widen (ofBytes source) context a = b := by
  rw [widened, widenAll, List.mem_map]
  simp only [(sortBy_perm _ blocks).mem_iff]

private theorem pairwise_widened (source : Bytes)
    (hblocks : ∀ b ∈ blocks, b.span.startByte ≤ b.span.endByte) (context : Nat) :
    (widened source context blocks).Pairwise (fun a b => a.span.startByte ≤ b.span.startByte) := by
  rw [widened, widenAll, List.pairwise_map]
  refine (pairwise_sorted blocks).imp_of_mem fun ha hb hab => ?_
  rw [(sortBy_perm _ blocks).mem_iff] at ha hb
  have := startsBefore_iff.mp hab
  exact startByte_widen_mono source (hblocks _ ha) (hblocks _ hb) context (by omega)

private theorem map_span_widened {blocks' : List Block} (h : blocks.Perm blocks') (context : Nat) :
    (widened source context blocks).map (·.span) =
      (widened source context blocks').map (·.span) := by
  have hbytes := congrArg
    (List.map fun k : Nat × Nat =>
      (widen (ofBytes source) context ⟨⟨k.1, k.2, .origin, .origin⟩, none⟩).span)
    (map_bytes_sortBy h)
  rw [List.map_map, List.map_map] at hbytes
  rw [widened, widened, widenAll, widenAll, List.map_map, List.map_map]
  exact hbytes

theorem normalize_eq (source : Bytes) (context : Nat) (blocks : List Block) :
    normalize source context blocks =
      merge (Text.rows (Utf8.decodeLossy source)) (widened source context blocks) :=
  rfl

private theorem ofRows_normalize (source : Bytes)
    (hblocks : ∀ b ∈ blocks, b.span.startByte ≤ b.span.endByte) (context : Nat) :
    ∀ o ∈ normalize source context blocks, o.OfRows source := by
  apply forall_mem_merge
  · exact fun a b ha hb => ha.absorb hb
  intro b hb
  obtain ⟨a, ha, rfl⟩ := mem_widened.mp hb
  exact ofRows_widen source (hblocks a ha) context

private theorem pairwise_normalize (source : Bytes)
    (hblocks : ∀ b ∈ blocks, b.span.startByte ≤ b.span.endByte) (context : Nat) :
    (normalize source context blocks).Pairwise (fun a b => a.span.endByte < b.span.startByte) :=
  pairwise_merge (pairwise_widened source hblocks context)

/-- What is left starts where a widened block starts and ends where one ends. -/
theorem ends_normalize (source : Bytes) (context : Nat) (blocks : List Block) :
    ∀ o ∈ normalize source context blocks,
      (∃ b ∈ blocks, o.span.startByte = (widen (ofBytes source) context b).span.startByte) ∧
        ∃ b ∈ blocks, o.span.endByte = (widen (ofBytes source) context b).span.endByte := by
  apply forall_mem_merge
  · rintro a b ⟨hstart, enda, ha, hend⟩ ⟨-, endb, hb, hend'⟩
    rw [startByte_absorb, endByte_absorb]
    refine ⟨hstart, ?_⟩
    rcases Nat.le_total a.span.endByte b.span.endByte with h | h
    · exact ⟨endb, hb, by rw [Nat.max_eq_right h, hend']⟩
    · exact ⟨enda, ha, by rw [Nat.max_eq_left h, hend]⟩
  · intro b hb
    obtain ⟨a, ha, rfl⟩ := mem_widened.mp hb
    exact ⟨⟨a, ha, rfl⟩, a, ha, rfl⟩

/-- What a block covers of the buffer lies inside one block that is left. -/
theorem normalize_covers (source : Bytes)
    (hblocks : ∀ b ∈ blocks, b.span.startByte ≤ b.span.endByte) (context : Nat) {b : Block}
    (hb : b ∈ blocks) :
    ∃! o, o ∈ normalize source context blocks ∧
      o.span.startByte ≤ min b.span.startByte source.length ∧
      min b.span.endByte source.length ≤ o.span.endByte := by
  obtain ⟨hstart, hend⟩ := widen_covers source (hblocks b hb) context
  obtain ⟨o, ho, hostart, hoend⟩ := merge_covers (Text.rows (Utf8.decodeLossy source))
    (pairwise_widened source hblocks context) _ (mem_widened.mpr ⟨b, hb, rfl⟩)
  have hordered := hblocks b hb
  refine ⟨o, ⟨ho, by omega, by omega⟩, ?_⟩
  rintro o' ⟨ho', hstart', hend'⟩
  -- Two blocks that are left have no byte in common, not even an end.
  have hgaps : (normalize source context blocks).Pairwise (fun x y =>
      x.span.endByte < y.span.startByte ∨ y.span.endByte < x.span.startByte) :=
    (pairwise_normalize source hblocks context).imp Or.inl
  have : Std.Symm (fun x y : Block =>
      x.span.endByte < y.span.startByte ∨ y.span.endByte < x.span.startByte) := ⟨fun _ _ => Or.symm⟩
  by_contra hne
  have := hgaps.forall ho' ho hne
  omega

/-- Normal blocks are left alone. -/
theorem normalize_normalize (source : Bytes)
    (hblocks : ∀ b ∈ blocks, b.span.startByte ≤ b.span.endByte) (context : Nat) :
    normalize source 0 (normalize source context blocks) = normalize source context blocks := by
  have hrows := ofRows_normalize source hblocks context
  have hsorted : sortBy (fun a b : Block => a.span.startsBefore b.span)
      (normalize source context blocks) = normalize source context blocks := by
    apply sortBy_of_pairwise
    refine (pairwise_normalize source hblocks context).imp_of_mem fun ha _ hab => ?_
    have := (hrows _ ha).wholeLines.ordered
    exact startsBefore_iff.mpr (by omega)
  have hwide : widened source 0 (normalize source context blocks) =
      normalize source context blocks := by
    rw [widened, hsorted, widenAll]
    exact (List.map_congr_left fun o ho => (hrows o ho).widen_zero).trans (List.map_id' _)
  rw [normalize_eq source 0, hwide, normalize_eq source context, merge_merge]

/-- Normal blocks come in order with gaps between them. They are whole lines with the points of
their bytes, start where a widened block starts and end where one ends. What a block covers of the
buffer lies inside exactly one of them. They do not depend on the order in which the blocks were
given, and are left alone when they are made normal again. -/
theorem normalize_isNormalForm (source : Bytes) (context : Nat) (blocks : List Block)
    (hblocks : ∀ b ∈ blocks, b.span.startByte ≤ b.span.endByte) :
    (normalize source context blocks).Pairwise (fun a b => a.span.endByte < b.span.startByte) ∧
      (∀ o ∈ normalize source context blocks, o.span.WholeLines source ∧
        (∃ b ∈ blocks, o.span.startByte = (widen (ofBytes source) context b).span.startByte) ∧
        ∃ b ∈ blocks, o.span.endByte = (widen (ofBytes source) context b).span.endByte) ∧
      (∀ b ∈ blocks, ∃! o, o ∈ normalize source context blocks ∧
        o.span.startByte ≤ min b.span.startByte source.length ∧
        min b.span.endByte source.length ≤ o.span.endByte) ∧
      (∀ blocks', blocks.Perm blocks' →
        (normalize source context blocks').map (·.span) =
          (normalize source context blocks).map (·.span)) ∧
      normalize source 0 (normalize source context blocks) = normalize source context blocks := by
  refine ⟨pairwise_normalize source hblocks context, ?_, ?_, ?_, ?_⟩
  · exact fun o ho => ⟨(ofRows_normalize source hblocks context o ho).wholeLines,
      ends_normalize source context blocks o ho⟩
  · exact fun b hb => normalize_covers source hblocks context hb
  · intro blocks' hperm
    rw [normalize_eq, normalize_eq]
    exact map_span_merge (map_span_widened hperm context).symm
  · exact normalize_normalize source hblocks context

end Normalize

namespace PastEnd

/-- Six lines of one letter, the last one without a line feed. -/
def source : Bytes := [97, 10, 98, 10, 99, 10, 100, 10, 101, 10, 102]

/-- A block that starts in the fifth line and reaches past the end of the buffer. -/
def late : Block := ⟨⟨8, 20, ⟨4, 0⟩, ⟨9, 0⟩⟩, none⟩

/-- An empty block at the start of the second line. -/
def empty : Block := ⟨⟨2, 2, ⟨1, 0⟩, ⟨1, 0⟩⟩, none⟩

end PastEnd

section

open PastEnd

theorem normalize_isNormalForm_pastEnd :
    (∀ b ∈ [late, empty], b.span.startByte ≤ b.span.endByte) ∧
      (normalize source 0 [late, empty]).Pairwise (fun a b => a.span.endByte < b.span.startByte) ∧
      (∀ o ∈ normalize source 0 [late, empty], o.span.WholeLines source) ∧
      (∃! o, o ∈ normalize source 0 [late, empty] ∧ o.span.startByte ≤ 8 ∧ 11 ≤ o.span.endByte) ∧
      (normalize source 0 [empty, late]).map (·.span) =
        (normalize source 0 [late, empty]).map (·.span) ∧
      normalize source 0 (normalize source 0 [late, empty]) = normalize source 0 [late, empty] := by
  have hblocks : ∀ b ∈ [late, empty], b.span.startByte ≤ b.span.endByte := by decide
  obtain ⟨hgaps, hlines, hcovers, hperm, hnormal⟩ :=
    normalize_isNormalForm source 0 [late, empty] hblocks
  exact ⟨hblocks, hgaps, fun o ho => (hlines o ho).1, hcovers late (by simp),
    hperm _ (.swap _ _ _), hnormal⟩

end

end CodeAtlas.Block
