import CodeAtlas.Position
import Mathlib.Data.List.GetD

/-!
# Rows of a buffer

The table of a buffer lists the offsets that follow a line feed. Together with the end of the buffer
they are the edges of its rows: row `r` lies between the edges `r` and `r + 1`.
-/

namespace CodeAtlas

namespace Bytes

def LineStart (source : Bytes) (i : Nat) : Prop := i = 0 ∨ 0 < i ∧ source[i - 1]? = some 10

def LineEnd (source : Bytes) (i : Nat) : Prop :=
  i = source.length ∨ 0 < i ∧ source[i - 1]? = some 10

/-- A point of a buffer: the line feeds before it, and the bytes since the last one. -/
structure PointAt (source : Bytes) (i : Nat) (p : Point) : Prop where
  row : p.row = (source.take i).count 10
  column : p.column ≤ i
  line_start : LineStart source (i - p.column)
  line : ∀ j, i - p.column ≤ j → j < i → source[j]? ≠ some 10

end Bytes

namespace LineTable

/-- The offset between two rows; the last row ends with the buffer. -/
def edge (t : LineTable) (r : Nat) : Nat := t.starts.getD r t.size

private theorem mem_afterLineFeeds {next x : Nat} {bs : Bytes} :
    x ∈ afterLineFeeds next bs ↔ ∃ j, bs[j]? = some 10 ∧ x = next + j := by
  induction bs generalizing next with
  | nil => simp [afterLineFeeds]
  | cons b bs ih =>
      have hsplit : (∃ j, (b :: bs)[j]? = some 10 ∧ x = next + j) ↔
          b = 10 ∧ x = next ∨ ∃ j, bs[j]? = some 10 ∧ x = next + 1 + j := by
        constructor
        · rintro ⟨j, hj, rfl⟩
          cases j with
          | zero => exact Or.inl ⟨by simpa using hj, rfl⟩
          | succ j => exact Or.inr ⟨j, by simpa using hj, by omega⟩
        · rintro (⟨hb, rfl⟩ | ⟨j, hj, rfl⟩)
          · exact ⟨0, by simp [hb], rfl⟩
          · exact ⟨j + 1, by simpa using hj, by omega⟩
      rw [hsplit, afterLineFeeds]
      split
      · next hb => simp [ih, hb]
      · next hb => simp [ih, hb]

private theorem pairwise_afterLineFeeds (next : Nat) (bs : Bytes) :
    (afterLineFeeds next bs).Pairwise (· < ·) := by
  induction bs generalizing next with
  | nil => exact .nil
  | cons b bs ih =>
      rw [afterLineFeeds]
      split
      · refine List.pairwise_cons.mpr ⟨?_, ih (next + 1)⟩
        intro x hx
        obtain ⟨j, -, rfl⟩ := mem_afterLineFeeds.mp hx
        omega
      · exact ih (next + 1)

private theorem countP_afterLineFeeds (x next : Nat) (bs : Bytes) :
    (afterLineFeeds next bs).countP (· ≤ x) = (bs.take (x + 1 - next)).count 10 := by
  induction bs generalizing next with
  | nil => simp [afterLineFeeds]
  | cons b bs ih =>
      by_cases hx : next ≤ x
      · have htake : x + 1 - next = (x + 1 - (next + 1)) + 1 := by omega
        rw [afterLineFeeds, htake, List.take_succ_cons, List.count_cons, ← ih (next + 1)]
        split
        · next hb => simp [hb, hx]
        · next hb => simp [hb]
      · have htake : x + 1 - next = 0 := by omega
        rw [htake, List.take_zero, List.count_nil, List.countP_eq_zero]
        intro y hy
        obtain ⟨j, -, rfl⟩ := mem_afterLineFeeds.mp hy
        simp only [decide_eq_true_eq]
        omega

private theorem getElem_le_iff {l : List Nat} (h : l.Pairwise (· < ·)) (x : Nat) {i : Nat}
    (hi : i < l.length) : l[i] ≤ x ↔ i < l.countP (· ≤ x) := by
  induction l generalizing i with
  | nil => simp at hi
  | cons a l ih =>
      obtain ⟨ha, hl⟩ := List.pairwise_cons.mp h
      by_cases hax : a ≤ x
      · rw [List.countP_cons_of_pos (by simpa using hax)]
        cases i with
        | zero => simp [hax]
        | succ i =>
            rw [List.getElem_cons_succ, ih hl]
            omega
      · have hnone : (a :: l).countP (· ≤ x) = 0 := by
          rw [List.countP_eq_zero]
          intro y hy
          rcases List.mem_cons.mp hy with rfl | hy
          · simpa using hax
          · have := ha y hy
            simp only [decide_eq_true_eq]
            omega
        rw [hnone]
        cases i with
        | zero => simpa using Nat.not_le.mp hax
        | succ i =>
            have hil : i < l.length := by simpa using hi
            have := ha l[i] (List.getElem_mem hil)
            rw [List.getElem_cons_succ]
            omega

section Edges

variable (source : Bytes)

theorem length_starts : (ofBytes source).starts.length = (ofBytes source).lastRow + 1 := by
  simp [lastRow, ofBytes]

private theorem mem_starts_iff {i : Nat} : i ∈ (ofBytes source).starts ↔ source.LineStart i := by
  rw [ofBytes, List.mem_cons, mem_afterLineFeeds, Bytes.LineStart]
  constructor
  · rintro (rfl | ⟨j, hj, rfl⟩)
    · exact Or.inl rfl
    · exact Or.inr ⟨by omega, by rw [show 1 + j - 1 = j by omega]; exact hj⟩
  · rintro (rfl | ⟨hpos, hi⟩)
    · exact Or.inl rfl
    · exact Or.inr ⟨i - 1, hi, by omega⟩

private theorem pairwise_starts : (ofBytes source).starts.Pairwise (· < ·) := by
  refine List.pairwise_cons.mpr ⟨?_, pairwise_afterLineFeeds 1 source⟩
  intro x hx
  obtain ⟨j, -, rfl⟩ := mem_afterLineFeeds.mp hx
  omega

private theorem edge_eq_getElem {r : Nat} (hr : r < (ofBytes source).starts.length) :
    (ofBytes source).edge r = (ofBytes source).starts[r] := by
  rw [edge, List.getD_eq_getElem _ _ hr]

private theorem lineStart_edge {r : Nat} (hr : r ≤ (ofBytes source).lastRow) :
    source.LineStart ((ofBytes source).edge r) := by
  have hlength := length_starts source
  rw [← mem_starts_iff, edge_eq_getElem source (by omega)]
  exact List.getElem_mem _

theorem edge_of_lastRow_lt {r : Nat} (hr : (ofBytes source).lastRow < r) :
    (ofBytes source).edge r = source.length := by
  have hlength := length_starts source
  rw [edge, List.getD_eq_default _ _ (by omega)]
  rfl

private theorem exists_edge_eq {i : Nat} (h : source.LineStart i) :
    ∃ r, r ≤ (ofBytes source).lastRow ∧ (ofBytes source).edge r = i := by
  obtain ⟨r, hr, hi⟩ := List.mem_iff_getElem.mp ((mem_starts_iff source).mpr h)
  have hlength := length_starts source
  exact ⟨r, by omega, by rw [edge_eq_getElem source hr, hi]⟩

theorem edge_le_length (r : Nat) : (ofBytes source).edge r ≤ source.length := by
  by_cases hr : r ≤ (ofBytes source).lastRow
  · rcases lineStart_edge source hr with hzero | ⟨hpos, hfeed⟩
    · omega
    · have := (List.getElem?_eq_some_iff.mp hfeed).1
      omega
  · exact Nat.le_of_eq (edge_of_lastRow_lt source (by omega))

theorem edge_lt_edge {r r' : Nat} (h : r < r') (hr' : r' ≤ (ofBytes source).lastRow) :
    (ofBytes source).edge r < (ofBytes source).edge r' := by
  have hlength := length_starts source
  rw [edge_eq_getElem source (by omega), edge_eq_getElem source (by omega)]
  exact List.pairwise_iff_getElem.mp (pairwise_starts source) r r' _ _ h

theorem edge_mono {r r' : Nat} (h : r ≤ r') :
    (ofBytes source).edge r ≤ (ofBytes source).edge r' := by
  by_cases hr' : r' ≤ (ofBytes source).lastRow
  · rcases Nat.lt_or_eq_of_le h with hlt | rfl
    · exact Nat.le_of_lt (edge_lt_edge source hlt hr')
    · exact Nat.le_refl _
  · rw [edge_of_lastRow_lt source (Nat.not_le.mp hr')]
    exact edge_le_length source r

/-- The row of an offset is the number of line feeds before it. -/
theorem rowOf_eq_count (i : Nat) : (ofBytes source).rowOf i = (source.take i).count 10 := by
  have hcount := countP_afterLineFeeds (min i source.length) 1 source
  rw [Nat.add_sub_cancel, ← List.take_eq_take_min] at hcount
  change (0 :: afterLineFeeds 1 source).countP (· ≤ min i source.length) - 1 = _
  rw [List.countP_cons_of_pos (by simp), hcount, Nat.add_sub_cancel]

private theorem lt_countP_iff {i r : Nat} :
    r < (ofBytes source).starts.countP (· ≤ min i (ofBytes source).size) ↔
      r ≤ (ofBytes source).rowOf i := by
  have hpos : 0 < (ofBytes source).starts.countP (· ≤ min i (ofBytes source).size) := by
    simp [ofBytes]
  rw [rowOf]
  omega

theorem rowOf_le_lastRow (i : Nat) : (ofBytes source).rowOf i ≤ (ofBytes source).lastRow := by
  have hle := List.countP_le_length (p := (· ≤ min i (ofBytes source).size))
    (l := (ofBytes source).starts)
  rw [rowOf, lastRow]
  omega

/-- The row of an offset is the last one that starts up to there. -/
theorem edge_le_iff {r i : Nat} (hr : r ≤ (ofBytes source).lastRow) (hi : i ≤ source.length) :
    (ofBytes source).edge r ≤ i ↔ r ≤ (ofBytes source).rowOf i := by
  have hlength := length_starts source
  have hmin : min i (ofBytes source).size = i := Nat.min_eq_left hi
  rw [edge_eq_getElem source (by omega), getElem_le_iff (pairwise_starts source), ← lt_countP_iff,
    hmin]

theorem edge_rowOf_le {i : Nat} (hi : i ≤ source.length) :
    (ofBytes source).edge ((ofBytes source).rowOf i) ≤ i :=
  (edge_le_iff source (rowOf_le_lastRow source i) hi).mpr (Nat.le_refl _)

theorem le_edge_rowOf_succ {i : Nat} (hi : i ≤ source.length) :
    i ≤ (ofBytes source).edge ((ofBytes source).rowOf i + 1) := by
  by_cases hr : (ofBytes source).rowOf i + 1 ≤ (ofBytes source).lastRow
  · have := edge_le_iff source hr hi
    omega
  · rw [edge_of_lastRow_lt source (Nat.not_le.mp hr)]
    exact hi

theorem rowOf_mono {i j : Nat} (h : i ≤ j) :
    (ofBytes source).rowOf i ≤ (ofBytes source).rowOf j := by
  rw [rowOf_eq_count, rowOf_eq_count]
  exact (List.take_prefix_take_left h).sublist.count_le 10

theorem rowOf_edge {r : Nat} (hr : r ≤ (ofBytes source).lastRow) :
    (ofBytes source).rowOf ((ofBytes source).edge r) = r := by
  have hi := edge_le_length source r
  have hrow := (edge_le_iff source hr hi).mp (Nat.le_refl _)
  by_cases hlt : r < (ofBytes source).rowOf ((ofBytes source).edge r)
  · have hup := edge_lt_edge source hlt (rowOf_le_lastRow source _)
    have hdown := edge_rowOf_le source hi
    omega
  · omega

theorem pointOf_column {i : Nat} (hi : i ≤ source.length) :
    ((ofBytes source).pointOf i).column = i - (ofBytes source).edge ((ofBytes source).rowOf i) := by
  have hrow := rowOf_le_lastRow source i
  have hlength := length_starts source
  have hmin : min i (ofBytes source).size = i := Nat.min_eq_left hi
  rw [edge_eq_getElem source (by omega), pointOf, hmin, List.getD_eq_getElem _ _ (by omega)]

/-- The table gives the points of a buffer. -/
theorem pointAt_pointOf {i : Nat} (hi : i ≤ source.length) :
    source.PointAt i ((ofBytes source).pointOf i) := by
  have hedge := edge_rowOf_le source hi
  have hback : i - ((ofBytes source).pointOf i).column =
      (ofBytes source).edge ((ofBytes source).rowOf i) := by
    rw [pointOf_column source hi]
    omega
  refine ⟨rowOf_eq_count source i, ?_, ?_, ?_⟩
  · rw [pointOf_column source hi]
    omega
  · rw [hback]
    exact lineStart_edge source (rowOf_le_lastRow source i)
  · rw [hback]
    intro j hj hlt hfeed
    -- A line feed in between would start a row that is later and yet not after the row of `i`.
    obtain ⟨r, hr, hrj⟩ := exists_edge_eq source (i := j + 1) (Or.inr ⟨by omega, hfeed⟩)
    have hle := (edge_le_iff source hr hi).mp (by omega)
    have := edge_mono source hle
    omega

theorem lineStart_eq_edge {r : Nat} (hr : r ≤ (ofBytes source).lastRow) :
    (ofBytes source).lineStart r = (ofBytes source).edge r := by
  have hlength := length_starts source
  rw [edge_eq_getElem source (by omega), lineStart, Nat.min_eq_left hr,
    List.getD_eq_getElem _ _ (by omega)]

private theorem length_afterLineFeeds_le (next : Nat) (bs : Bytes) :
    (afterLineFeeds next bs).length ≤ bs.length := by
  induction bs generalizing next with
  | nil => exact Nat.le_refl _
  | cons b bs ih =>
      have := ih (next + 1)
      rw [afterLineFeeds]
      split <;> simp only [List.length_cons] <;> omega

theorem lastRow_le_length : (ofBytes source).lastRow ≤ source.length :=
  length_afterLineFeeds_le 1 source

theorem lineEnd_eq_edge (t : LineTable) (r : Nat) : t.lineEnd r = t.edge (r + 1) := rfl

theorem lineEnd?_eq_ite (t : LineTable) (r : Nat) :
    t.lineEnd? r = if r < maxWord then some (t.lineEnd r) else none := by
  rw [lineEnd?, addWords?]
  by_cases h : r < maxWord
  · rw [if_pos (show r + 1 ≤ maxWord from h), if_pos h]
    rfl
  · rw [if_neg (show ¬r + 1 ≤ maxWord from h), if_neg h]
    rfl

def rowSpan (t : LineTable) (first last : Nat) : Span := t.spanOf (t.edge first) (t.edge (last + 1))

variable {source} in
theorem rowSpan_eq {first last : Nat} (h : first ≤ last) :
    (ofBytes source).rowSpan first last =
      ⟨(ofBytes source).edge first, (ofBytes source).edge (last + 1),
        (ofBytes source).pointOf ((ofBytes source).edge first),
        (ofBytes source).pointOf ((ofBytes source).edge (last + 1))⟩ := by
  have hstop : min ((ofBytes source).edge (last + 1)) (ofBytes source).size =
      (ofBytes source).edge (last + 1) :=
    Nat.min_eq_left (edge_le_length source (last + 1))
  have hstart : min ((ofBytes source).edge first) ((ofBytes source).edge (last + 1)) =
      (ofBytes source).edge first :=
    Nat.min_eq_left (edge_mono source (Nat.le_succ_of_le h))
  rw [rowSpan, spanOf, hstop, hstart]

end Edges

end LineTable

/-- A span of whole lines of a buffer: it starts with a line and ends with one, or with the buffer,
and its points are those of its offsets. -/
structure Span.WholeLines (source : Bytes) (s : Span) : Prop where
  ordered : s.startByte ≤ s.endByte
  fits : s.endByte ≤ source.length
  starts : source.LineStart s.startByte
  ends : source.LineEnd s.endByte
  start_point : source.PointAt s.startByte s.startPoint
  end_point : source.PointAt s.endByte s.endPoint

theorem LineTable.wholeLines_rowSpan (source : Bytes) {first last : Nat} (h : first ≤ last)
    (hlast : last ≤ (ofBytes source).lastRow) :
    ((ofBytes source).rowSpan first last).WholeLines source := by
  rw [rowSpan_eq h]
  refine ⟨edge_mono source (Nat.le_succ_of_le h), edge_le_length source _,
    lineStart_edge source (Nat.le_trans h hlast), ?_,
    pointAt_pointOf source (edge_le_length source _),
    pointAt_pointOf source (edge_le_length source _)⟩
  by_cases hend : last + 1 ≤ (ofBytes source).lastRow
  · rcases lineStart_edge source hend with hzero | hfeed
    · have := edge_lt_edge source (by omega : 0 < last + 1) hend
      omega
    · exact Or.inr hfeed
  · exact Or.inl (edge_of_lastRow_lt source (Nat.not_le.mp hend))

end CodeAtlas
