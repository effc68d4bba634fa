import CodeAtlas.Proofs.Position.LineTable
import CodeAtlas.Proofs.Text.Blank
import CodeAtlas.Proofs.Text.Utf8
import CodeAtlas.Syntax.Buffer

/-!
# The text of a row

The rows of the table of a buffer are the rows of its text: whether a row is blank can be told from
its bytes and from the text of the buffer alike.
-/

namespace CodeAtlas

namespace LineTable

private theorem afterLineFeeds_add (n k : Nat) (bs : Bytes) :
    afterLineFeeds (n + k) bs = (afterLineFeeds n bs).map (· + k) := by
  induction bs generalizing n with
  | nil => rfl
  | cons b bs ih =>
      have hnext := ih (n + 1)
      rw [show n + 1 + k = n + k + 1 by omega] at hnext
      rw [afterLineFeeds, afterLineFeeds, hnext]
      split <;> rfl

private theorem afterLineFeeds_append_lineFeed {a : Bytes} (ha : 10 ∉ a) (n : Nat) (b : Bytes) :
    afterLineFeeds n (a ++ 10 :: b) = (n + a.length) :: afterLineFeeds (n + a.length + 1) b := by
  induction a generalizing n with
  | nil => simp [afterLineFeeds]
  | cons o os ih =>
      rw [List.mem_cons, not_or] at ha
      rw [List.cons_append, afterLineFeeds, if_neg (Ne.symm ha.1), ih ha.2, List.length_cons,
        Nat.add_right_comm n 1, Nat.add_assoc n]

private theorem afterLineFeeds_eq_nil {a : Bytes} (ha : 10 ∉ a) (n : Nat) :
    afterLineFeeds n a = [] := by
  induction a generalizing n with
  | nil => rfl
  | cons o os ih =>
      rw [List.mem_cons, not_or] at ha
      rw [afterLineFeeds, if_neg (Ne.symm ha.1), ih ha.2]

private theorem starts_append_lineFeed {a : Bytes} (ha : 10 ∉ a) (b : Bytes) :
    (ofBytes (a ++ 10 :: b)).starts = 0 :: (ofBytes b).starts.map (· + (a.length + 1)) := by
  rw [ofBytes, ofBytes, afterLineFeeds_append_lineFeed ha, List.map_cons, ← afterLineFeeds_add,
    Nat.zero_add, Nat.add_comm 1, Nat.add_comm 1]

private theorem edge_append_lineFeed {a : Bytes} (ha : 10 ∉ a) (b : Bytes) (r : Nat) :
    (ofBytes (a ++ 10 :: b)).edge (r + 1) = (ofBytes b).edge r + (a.length + 1) := by
  have hsize : (ofBytes (a ++ 10 :: b)).size = (ofBytes b).size + (a.length + 1) := by
    simp [ofBytes]
    omega
  rw [edge, starts_append_lineFeed ha, List.getD_cons_succ, hsize, edge]
  exact List.getD_map _ _ (· + (a.length + 1))

private theorem lastRow_append_lineFeed {a : Bytes} (ha : 10 ∉ a) (b : Bytes) :
    (ofBytes (a ++ 10 :: b)).lastRow = (ofBytes b).lastRow + 1 := by
  have hlength := length_starts (a ++ 10 :: b)
  rw [starts_append_lineFeed ha, List.length_cons, List.length_map, length_starts b] at hlength
  omega

private theorem edge_zero (source : Bytes) : (ofBytes source).edge 0 = 0 := rfl

end LineTable

namespace Bytes

open LineTable

private theorem slice_append_add (a b : Bytes) (i j : Nat) :
    (a ++ b).slice (a.length + i) (a.length + j) = b.slice i j := by
  rw [slice, slice, List.drop_append, List.drop_of_length_le (by omega), List.nil_append,
    Nat.add_sub_cancel_left, Nat.add_sub_add_left]

/-- A row holds the bytes between two line feeds, and the line feed that ends it. -/
theorem slice_row (source : Bytes) {r : Nat} (hr : r ≤ (ofBytes source).lastRow) :
    ∃ line feed, (source.splitOn 10)[r]? = some line ∧ (feed = [] ∨ feed = [10]) ∧
      source.slice ((ofBytes source).edge r) ((ofBytes source).edge (r + 1)) = line ++ feed := by
  generalize hn : source.length = n
  induction n using Nat.strongRecOn generalizing source r with
  | ind n ih =>
      by_cases hfeed : 10 ∈ source
      · obtain ⟨a, b, rfl, ha⟩ := List.eq_append_cons_of_mem hfeed
        rw [Utf8.splitOn_append_cons ha, edge_append_lineFeed ha]
        cases r with
        | zero =>
            refine ⟨a, [10], rfl, Or.inr rfl, ?_⟩
            rw [edge_zero, edge_zero, slice, List.drop_zero, Nat.sub_zero, Nat.zero_add,
              List.append_cons a 10 b]
            exact List.take_left' (by simp)
        | succ r =>
            rw [lastRow_append_lineFeed ha, Nat.add_le_add_iff_right] at hr
            obtain ⟨line, feed, hline, hends, hslice⟩ :=
              ih b.length (by simp [← hn]; omega) b hr rfl
            refine ⟨line, feed, by simpa using hline, hends, ?_⟩
            have hfront := slice_append_add (a ++ [10]) b
              ((ofBytes b).edge r) ((ofBytes b).edge (r + 1))
            rw [List.append_assoc, List.singleton_append, List.length_append,
              List.length_singleton] at hfront
            rw [edge_append_lineFeed ha, Nat.add_comm, Nat.add_comm (edge _ _), hfront, hslice]
      · have hlast : (ofBytes source).lastRow = 0 := by
          rw [lastRow, ofBytes, afterLineFeeds_eq_nil hfeed]
          rfl
        obtain rfl : r = 0 := by omega
        refine ⟨source, [], ?_, Or.inl rfl, ?_⟩
        · rw [Utf8.splitOn_eq_singleton hfeed]
          rfl
        · rw [edge_zero, edge_of_lastRow_lt source (by omega), slice]
          simp

end Bytes

namespace Buffer

open LineTable

/-- The text of a row is a row of the text of the buffer, with its line feed or not. -/
theorem exists_row {source : Bytes} {r : Nat}
    (hr : r ≤ (LineTable.ofBytes source).lastRow) :
    ∃ row feed, (Text.rows (Utf8.decodeLossy source))[r]? = some row ∧ Text.isBlank feed = true ∧
      (ofBytes source).row r =
        Text.dropEndWhile (fun c => c == '\n' || c == '\r') (row ++ feed) := by
  obtain ⟨line, feed, hline, hends, hslice⟩ := source.slice_row hr
  have hrow : (Text.rows (Utf8.decodeLossy source))[r]? = some (Utf8.decodeLossy line) := by
    rw [Utf8.rows_decodeLossy, List.getElem?_map, hline]
    rfl
  have htext : (ofBytes source).row r =
      Text.dropEndWhile (fun c => c == '\n' || c == '\r') (Utf8.decodeLossy (line ++ feed)) := by
    rw [← hslice, ← lineStart_eq_edge source hr, ← lineEnd_eq_edge]
    rfl
  rcases hends with rfl | rfl
  · refine ⟨_, [], hrow, rfl, ?_⟩
    rw [htext, List.append_nil, List.append_nil]
  · refine ⟨_, ['\n'], hrow, rfl, ?_⟩
    rw [htext, Utf8.decodeLossy_append_lineFeed]
    rfl

theorem isBlank_row {source : Bytes} {r : Nat}
    (hr : r ≤ (LineTable.ofBytes source).lastRow) :
    ∃ row, (Text.rows (Utf8.decodeLossy source))[r]? = some row ∧
      Text.isBlank ((ofBytes source).row r) = Text.isBlank row := by
  obtain ⟨row, feed, hrow, hfeed, htext⟩ := exists_row hr
  refine ⟨row, hrow, ?_⟩
  rw [htext, Text.isBlank_dropEndWhile (by simp; decide), Text.isBlank_append, hfeed, Bool.and_true]

theorem trim_row {source : Bytes} {r : Nat}
    (hr : r ≤ (LineTable.ofBytes source).lastRow) :
    ∃ row, (Text.rows (Utf8.decodeLossy source))[r]? = some row ∧
      Text.trim ((ofBytes source).row r) = Text.trim row := by
  obtain ⟨row, feed, hrow, hfeed, htext⟩ := exists_row hr
  refine ⟨row, hrow, ?_⟩
  rw [htext, Text.trim_dropEndWhile (by simp; decide), Text.trim_append_blank hfeed]

end Buffer

end CodeAtlas
