import CodeAtlas.Proofs.Comparison
import CodeAtlas.Proofs.Position.LineTable

/-!
# The order of points

Points of a buffer come in the order of their bytes, and each byte is found again from its point.
-/

namespace CodeAtlas

theorem Point.isLE_compare_iff {p q : Point} : (compare p q).isLE = true ↔
    p.row < q.row ∨ p.row = q.row ∧ p.column ≤ q.column := by
  have hcompare : compare p q = (compare p.row q.row).then (compare p.column q.column) := rfl
  rw [hcompare, Ordering.isLE_then_iff_or, Nat.compare_eq_lt, Nat.compare_eq_eq, Nat.isLE_compare]

private theorem Point.compare_eq_lt_iff {p q : Point} :
    compare p q = .lt ↔ ¬(compare q p).isLE = true := by
  have hcompare : compare p q = (compare p.row q.row).then (compare p.column q.column) := rfl
  rw [isLE_compare_iff, hcompare, Ordering.then_eq_lt, Nat.compare_eq_lt, Nat.compare_eq_eq,
    Nat.compare_eq_lt]
  omega

theorem Point.isLE_compare_origin (p : Point) : (compare origin p).isLE = true := by
  rw [isLE_compare_iff]
  change 0 < _ ∨ 0 = _ ∧ 0 ≤ _
  omega

theorem Point.before_eq_false_iff {p q : Point} :
    p.before q = false ↔ (compare q p).isLE = true := by
  rw [isLE_compare_iff, before]
  simp only [Bool.or_eq_false_iff, Bool.and_eq_false_iff, decide_eq_false_iff_not,
    beq_eq_false_iff_ne]
  omega

namespace LineTable

section Points

variable (source : Bytes) {i j : Nat}

private theorem edge_add_column (hi : i ≤ source.length) :
    (ofBytes source).edge ((ofBytes source).rowOf i) + ((ofBytes source).pointOf i).column = i := by
  rw [pointOf_column source hi]
  exact Nat.add_sub_cancel' (edge_rowOf_le source hi)

theorem isLE_compare_pointOf_iff (hi : i ≤ source.length) (hj : j ≤ source.length) :
    (compare ((ofBytes source).pointOf i) ((ofBytes source).pointOf j)).isLE = true ↔ i ≤ j := by
  have hcolumni := edge_add_column source hi
  have hcolumnj := edge_add_column source hj
  have hrowi : ((ofBytes source).pointOf i).row = (ofBytes source).rowOf i := rfl
  have hrowj : ((ofBytes source).pointOf j).row = (ofBytes source).rowOf j := rfl
  rw [Point.isLE_compare_iff, hrowi, hrowj]
  constructor
  · intro h
    rcases h with hrow | ⟨hrow, hcolumn⟩
    · by_contra hlt
      have hmono := rowOf_mono source (Nat.le_of_lt (Nat.not_le.mp hlt))
      omega
    · rw [hrow] at hcolumni
      omega
  · intro h
    have hmono := rowOf_mono source h
    rcases Nat.lt_or_eq_of_le hmono with hrow | hrow
    · exact Or.inl hrow
    · rw [hrow] at hcolumni
      exact Or.inr ⟨hrow, by omega⟩

theorem pointOf_zero : (ofBytes source).pointOf 0 = .origin := by
  have hrow : (ofBytes source).rowOf 0 = 0 := rowOf_eq_count source 0
  rw [pointOf, hrow, Nat.zero_min, Nat.zero_sub]
  rfl

theorem pointOf_min (t : LineTable) (i : Nat) : t.pointOf (min i t.size) = t.pointOf i := by
  have hmin : min (min i t.size) t.size = min i t.size := Nat.min_eq_left (Nat.min_le_right _ _)
  simp only [pointOf, rowOf, hmin]

/-- The byte of a point is counted from the start of its row and lies at most at the end of it; a
row that the buffer does not have is taken for the last one. -/
theorem byteOf_eq (t : LineTable) (p : Point) :
    t.byteOf p = min (t.lineStart p.row + p.column) (t.edge (min p.row t.lastRow + 1)) :=
  rfl

private theorem byteOf_le_length (p : Point) :
    (ofBytes source).byteOf p ≤ source.length := by
  rw [byteOf_eq]
  exact Nat.le_trans (Nat.min_le_right _ _) (edge_le_length source _)

theorem byteOf_pointOf (hi : i ≤ source.length) :
    (ofBytes source).byteOf ((ofBytes source).pointOf i) = i := by
  have hrow : ((ofBytes source).pointOf i).row ≤ (ofBytes source).lastRow :=
    rowOf_le_lastRow source i
  have hcolumn : (ofBytes source).edge ((ofBytes source).pointOf i).row +
      ((ofBytes source).pointOf i).column = i := edge_add_column source hi
  rw [byteOf_eq, lineStart_eq_edge source hrow, hcolumn, Nat.min_eq_left hrow]
  exact Nat.min_eq_left (le_edge_rowOf_succ source hi)

/-- A lookup of the offset of a point has an answer as long as the column, counted from the start of
the row, is a machine word. The row after the one that is looked up always is. -/
theorem byteOf?_eq_ite (hsize : source.length < maxWord) (p : Point) :
    (ofBytes source).byteOf? p =
      if (ofBytes source).lineStart p.row + p.column ≤ maxWord then
        some ((ofBytes source).byteOf p)
      else none := by
  have hrow : min p.row (ofBytes source).lastRow < maxWord :=
    Nat.lt_of_le_of_lt (Nat.min_le_right _ _) (Nat.lt_of_le_of_lt (lastRow_le_length source) hsize)
  rw [byteOf?, lineEnd?_eq_ite, if_pos hrow, addWords?, byteOf, lineStart]
  split <;> rfl

private theorem byteOf?_pointOf (hsize : source.length < maxWord) (hi : i ≤ source.length) :
    (ofBytes source).byteOf? ((ofBytes source).pointOf i) = some i := by
  have hrow : ((ofBytes source).pointOf i).row ≤ (ofBytes source).lastRow :=
    rowOf_le_lastRow source i
  have hcolumn : (ofBytes source).edge ((ofBytes source).pointOf i).row +
      ((ofBytes source).pointOf i).column = i := edge_add_column source hi
  rw [byteOf?_eq_ite source hsize, lineStart_eq_edge source hrow, hcolumn, if_pos (by omega),
    byteOf_pointOf source hi]

/-- Whether a point is one of the buffer: its row exists, and its column stays before the end of the
row, or reaches at most the end of the buffer on the last row. -/
def HasPoint (t : LineTable) (p : Point) : Prop :=
  p.row ≤ t.lastRow ∧
    (t.lineStart p.row + p.column < t.lineEnd p.row ∨
      p.row = t.lastRow ∧ t.lineStart p.row + p.column ≤ t.size)

instance (t : LineTable) (p : Point) : Decidable (t.HasPoint p) :=
  inferInstanceAs (Decidable (_ ∧ (_ ∨ _ ∧ _)))

private theorem rowOf_eq_iff {r : Nat} (hr : r ≤ (ofBytes source).lastRow)
    (hi : i ≤ source.length) :
    (ofBytes source).rowOf i = r ↔ (ofBytes source).edge r ≤ i ∧
      (i < (ofBytes source).edge (r + 1) ∨ r = (ofBytes source).lastRow) := by
  have hlast := rowOf_le_lastRow source i
  rw [edge_le_iff source hr hi]
  rcases Nat.lt_or_eq_of_le hr with hlt | rfl
  · have hnext := edge_le_iff source (show r + 1 ≤ _ from hlt) hi
    omega
  · omega

private theorem hasPoint_iff {p : Point} :
    (ofBytes source).HasPoint p ↔ p.row ≤ (ofBytes source).lastRow ∧
      (ofBytes source).edge p.row + p.column ≤ source.length ∧
      (ofBytes source).rowOf ((ofBytes source).edge p.row + p.column) = p.row := by
  apply and_congr_right
  intro hrow
  rw [lineStart_eq_edge source hrow, lineEnd_eq_edge]
  change _ ∨ _ ∧ _ ≤ source.length ↔ _
  have hend := edge_le_length source (p.row + 1)
  constructor
  · intro h
    have hfits : (ofBytes source).edge p.row + p.column ≤ source.length := by omega
    exact ⟨hfits, (rowOf_eq_iff source hrow hfits).mpr ⟨Nat.le_add_right _ _, h.imp_right And.left⟩⟩
  · rintro ⟨hfits, hsame⟩
    exact ((rowOf_eq_iff source hrow hfits).mp hsame).2.imp_right fun h => ⟨h, hfits⟩

/-- A point is found again from its byte exactly if it is a point of the buffer. -/
theorem pointOf_byteOf_iff {p : Point} :
    (ofBytes source).pointOf ((ofBytes source).byteOf p) = p ↔ (ofBytes source).HasPoint p := by
  rw [hasPoint_iff source]
  constructor
  · intro h
    have hbyte := byteOf_le_length source p
    have hrow : (ofBytes source).rowOf ((ofBytes source).byteOf p) = p.row := congrArg Point.row h
    have hcolumn := edge_add_column source hbyte
    rw [h, hrow] at hcolumn
    rw [hcolumn]
    exact ⟨hrow ▸ rowOf_le_lastRow source _, hbyte, hrow⟩
  · rintro ⟨hlast, hfits, hrow⟩
    have hbyte : (ofBytes source).byteOf p = (ofBytes source).edge p.row + p.column := by
      have hend := le_edge_rowOf_succ source hfits
      rw [hrow] at hend
      rw [byteOf_eq, lineStart_eq_edge source hlast, Nat.min_eq_left hlast, Nat.min_eq_left hend]
    have hcolumn := pointOf_column source hfits
    rw [hrow, Nat.add_sub_cancel_left] at hcolumn
    rw [hbyte]
    exact congrArg₂ Point.mk hrow hcolumn

/-- The bytes of a buffer and its points are the same positions. The point of a byte counts the line
feeds before it and the bytes since the last one, points come in the order of their bytes, and each
byte is found again from its point, also by a caller who names the point. The points that are found
again from their bytes are those whose row exists and whose column stays before the end of the row,
or at most at the end of the buffer on the last row. -/
theorem points_are_bytes :
    (∀ b ≤ source.length,
        source.PointAt b ((ofBytes source).pointOf b) ∧
          ((ofBytes source).pointOf b).row = (source.take b).count 10 ∧
          (∀ a < b, compare ((ofBytes source).pointOf a) ((ofBytes source).pointOf b) = .lt) ∧
          (ofBytes source).byteOf ((ofBytes source).pointOf b) = b ∧
          (source.length < maxWord →
            (ofBytes source).byteOf? ((ofBytes source).pointOf b) = some b)) ∧
      ∀ p, (ofBytes source).pointOf ((ofBytes source).byteOf p) = p ↔
        (ofBytes source).HasPoint p := by
  refine ⟨fun b hb => ⟨pointAt_pointOf source hb, rowOf_eq_count source b, fun a hab => ?_,
    byteOf_pointOf source hb, fun hsize => byteOf?_pointOf source hsize hb⟩,
    fun p => pointOf_byteOf_iff source⟩
  rw [Point.compare_eq_lt_iff, isLE_compare_pointOf_iff source hb (by omega)]
  omega

end Points

namespace TwoLines

def source : Bytes := [97, 98, 10, 99, 100, 10]

end TwoLines

open TwoLines in
theorem points_are_bytes_two_lines :
    source.length < maxWord ∧
      compare ((ofBytes source).pointOf 2) ((ofBytes source).pointOf 3) = .lt ∧
      (ofBytes source).byteOf? ((ofBytes source).pointOf 6) = some 6 ∧
      (ofBytes source).pointOf ((ofBytes source).byteOf ⟨1, 2⟩) = ⟨1, 2⟩ := by
  have hsize : source.length < maxWord := by decide
  obtain ⟨hbytes, hpoints⟩ := points_are_bytes source
  exact ⟨hsize, (hbytes 3 (by decide)).2.2.1 2 (by decide), (hbytes 6 (by decide)).2.2.2.2 hsize,
    (hpoints ⟨1, 2⟩).mpr (by decide)⟩

end LineTable

end CodeAtlas
