import CodeAtlas.Proofs.Position.LineTable

/-!
# Points of a part of a buffer

A part of a buffer is a buffer of its own. A point of the part becomes the point of the same byte in
the whole when it is shifted by the point at which the part starts.
-/

namespace CodeAtlas

namespace Bytes

theorem PointAt.eq {source : Bytes} {i : Nat} {p q : Point} (hp : source.PointAt i p)
    (hq : source.PointAt i q) : p = q := by
  have hrow : p.row = q.row := hp.row.trans hq.row.symm
  -- A row that started later than the other one would start after a line feed inside that one.
  have hle {a b : Point} (ha : source.PointAt i a) (hb : source.PointAt i b) :
      b.column ≤ a.column := by
    have hbound := hb.column
    apply Nat.not_lt.mp
    intro hlt
    rcases ha.line_start with hzero | ⟨hpos, hfeed⟩
    · omega
    · exact hb.line (i - a.column - 1) (by omega) (by omega) hfeed
  have hcolumn : p.column = q.column := Nat.le_antisymm (hle hq hp) (hle hp hq)
  cases p
  cases q
  simp_all

section Part

variable {host : Bytes} {start stop offset : Nat}

theorem length_slice (start : Nat) (hstop : stop ≤ host.length) :
    (host.slice start stop).length = stop - start := by
  rw [slice, List.length_take, List.length_drop]
  omega

private theorem getElem?_slice {j : Nat} (hj : j < stop - start) :
    (host.slice start stop)[j]? = host[start + j]? := by
  rw [slice, List.getElem?_take_of_lt hj, List.getElem?_drop]

private theorem take_add_slice (hoffset : offset ≤ stop - start) :
    host.take (start + offset) = host.take start ++ (host.slice start stop).take offset := by
  rw [slice, List.take_take, Nat.min_eq_left hoffset, List.take_add]

theorem slice_slice {a b : Nat} (hb : b ≤ stop - start) :
    (host.slice start stop).slice a b = host.slice (start + a) (start + b) := by
  rw [slice, slice, slice, List.drop_take, List.take_take, List.drop_drop, Nat.add_sub_add_left,
    Nat.min_eq_left (by omega)]

variable {base p : Point}

private theorem count_take_add (hbase : host.PointAt start base)
    (hp : (host.slice start stop).PointAt offset p) (hoffset : offset ≤ stop - start) :
    base.row + p.row = (host.take (start + offset)).count 10 := by
  rw [take_add_slice hoffset, List.count_append, ← hbase.row, ← hp.row]

private theorem PointAt.shift_first_row (hbase : host.PointAt start base)
    (hp : (host.slice start stop).PointAt offset p) (hoffset : offset ≤ stop - start)
    (hrow : p.row = 0) :
    host.PointAt (start + offset) ⟨base.row, base.column + p.column⟩ := by
  have hfirst : ∀ j < offset, (host.slice start stop)[j]? ≠ some 10 := by
    intro j hj hfeed
    have hmem : (10 : UInt8) ∈ (host.slice start stop).take offset := by
      rw [List.mem_iff_getElem?]
      exact ⟨j, by rw [List.getElem?_take_of_lt hj, hfeed]⟩
    have hcount := List.count_pos_iff.mpr hmem
    rw [← hp.row, hrow] at hcount
    exact Nat.lt_irrefl 0 hcount
  have hcolumn : p.column = offset := by
    have hle := hp.column
    rcases hp.line_start with hzero | ⟨hpos, hfeed⟩
    · omega
    · exact absurd hfeed (hfirst _ (by omega))
  have hbound := hbase.column
  have hback : start + offset - (base.column + p.column) = start - base.column := by omega
  refine ⟨?_, ?_, ?_, ?_⟩
  · have hcount := count_take_add hbase hp hoffset
    rwa [hrow, Nat.add_zero] at hcount
  · dsimp only
    omega
  · rw [hback]
    exact hbase.line_start
  · intro j hj hlt
    rw [hback] at hj
    by_cases hstart : j < start
    · exact hbase.line j hj hstart
    · have hpart := hfirst (j - start) (by omega)
      rw [getElem?_slice (by omega), Nat.add_sub_cancel' (Nat.not_lt.mp hstart)] at hpart
      exact hpart

private theorem PointAt.shift_later_row (hbase : host.PointAt start base)
    (hp : (host.slice start stop).PointAt offset p) (hoffset : offset ≤ stop - start)
    (hrow : p.row ≠ 0) :
    host.PointAt (start + offset) ⟨base.row + p.row, p.column⟩ := by
  have hle := hp.column
  have hback : start + offset - p.column = start + (offset - p.column) := by omega
  refine ⟨count_take_add hbase hp hoffset, ?_, ?_, ?_⟩
  · dsimp only
    omega
  · rw [hback]
    rcases hp.line_start with hzero | ⟨hpos, hfeed⟩
    · -- Then the part has no line feed before the point, which is on its first row.
      have hnone : (10 : UInt8) ∉ (host.slice start stop).take offset := by
        intro hmem
        obtain ⟨j, hj⟩ := List.mem_iff_getElem?.mp hmem
        have hlt : j < offset := by
          have := (List.getElem?_eq_some_iff.mp hj).1
          rw [List.length_take] at this
          omega
        rw [List.getElem?_take_of_lt hlt] at hj
        exact hp.line j (by omega) hlt hj
      exact absurd (hp.row.trans (List.count_eq_zero.mpr hnone)) hrow
    · refine Or.inr ⟨by omega, ?_⟩
      rw [getElem?_slice (by omega)] at hfeed
      rw [Nat.add_sub_assoc hpos]
      exact hfeed
  · intro j hj hlt
    rw [hback] at hj
    have hpart := hp.line (j - start) (by omega) (by omega)
    rw [getElem?_slice (by omega), Nat.add_sub_cancel' (by omega)] at hpart
    exact hpart

/-- A point of a part, shifted, is the point of the same byte in the whole. -/
theorem PointAt.shift (hbase : host.PointAt start base)
    (hp : (host.slice start stop).PointAt offset p) (hoffset : offset ≤ stop - start) :
    host.PointAt (start + offset) (base.shift p) := by
  by_cases hrow : p.row = 0
  · rw [Point.shift, if_pos hrow]
    exact hbase.shift_first_row hp hoffset hrow
  · rw [Point.shift, if_neg hrow]
    exact hbase.shift_later_row hp hoffset hrow

end Part

end Bytes

namespace LineTable

/-- The point of a byte of a part in the table of the whole is its point in the table of the part,
shifted by the point at which the part starts. -/
theorem pointOf_add {host : Bytes} {start stop offset : Nat} (hstart : start ≤ stop)
    (hstop : stop ≤ host.length)
    (hoffset : offset ≤ (host.slice start stop).length) :
    (ofBytes host).pointOf (start + offset) =
      ((ofBytes host).pointOf start).shift ((ofBytes (host.slice start stop)).pointOf offset) := by
  have hlength := Bytes.length_slice start hstop
  have hbase := pointAt_pointOf host (i := start) (by omega)
  have hpart := pointAt_pointOf (host.slice start stop) hoffset
  have hwhole := pointAt_pointOf host (i := start + offset) (by omega)
  exact hwhole.eq (hbase.shift hpart (by omega))

end LineTable

end CodeAtlas
