import CodeAtlas.Proofs.Text.Blank
import CodeAtlas.Proofs.Text.Utf8
import CodeAtlas.Text.Basic

/-!
# Rows of a part of a text

Where a text is cut in two, the last row of the first part and the first row of the second one are
the two parts of one row; all other rows are those of the whole text.
-/

namespace CodeAtlas.Text

private theorem rows_cons (c : Char) (t : Text) :
    rows (c :: t) = if c = '\n' then [] :: rows t else (rows t).modifyHead (c :: ·) := by
  rw [rows, List.splitOn_cons_eq_if_modifyHead]
  simp only [beq_iff_eq, rows]

theorem lineFeed_notMem_of_mem_rows {t row : Text} (h : row ∈ rows t) : '\n' ∉ row := by
  intro hfeed
  simpa using (mem_splitOnP h '\n' hfeed).1

private theorem isBlank_rows (t : Text) : (rows t).all isBlank = isBlank t := by
  induction t with
  | nil => rfl
  | cons c t ih =>
    rw [rows_cons]
    split
    · next hc =>
      rw [List.all_cons, ih, hc]
      rfl
    · obtain ⟨first, rest, hrows⟩ : ∃ first rest, rows t = first :: rest :=
        List.exists_cons_of_ne_nil (List.splitOn_ne_nil '\n' t)
      rw [hrows] at ih ⊢
      rw [List.modifyHead_cons, List.all_cons, isBlank, List.all_cons, Bool.and_assoc]
      exact congrArg (blankChar c && ·) ih

private theorem rows_eq_singleton {t first : Text} (h : rows t = [first]) :
    t = first ∧ '\n' ∉ t := by
  by_cases hfeed : '\n' ∈ t
  · obtain ⟨a, b, rfl, ha⟩ := List.eq_append_cons_of_mem hfeed
    rw [rows, Utf8.splitOn_append_cons ha] at h
    exact absurd (List.cons.inj h).2 (List.splitOn_ne_nil _ _)
  · rw [rows, Utf8.splitOn_eq_singleton hfeed] at h
    exact ⟨(List.cons.inj h).1, hfeed⟩

private theorem rows_eq_cons {t first : Text} {rest : List Text} (h : rows t = first :: rest)
    (hrest : rest ≠ []) :
    '\n' ∉ first ∧ ∃ later, t = first ++ '\n' :: later ∧ rows later = rest := by
  by_cases hfeed : '\n' ∈ t
  · obtain ⟨a, b, rfl, ha⟩ := List.eq_append_cons_of_mem hfeed
    rw [rows, Utf8.splitOn_append_cons ha] at h
    obtain ⟨rfl, hlater⟩ := List.cons.inj h
    exact ⟨ha, b, rfl, hlater⟩
  · rw [rows, Utf8.splitOn_eq_singleton hfeed] at h
    exact absurd (List.cons.inj h).2.symm hrest

theorem exists_split_at_row {t first line : Text} {more after : List Text}
    (h : rows t = first :: (more ++ line :: after)) :
    '\n' ∉ line ∧ ∃ a b, t = a ++ '\n' :: (line ++ b) ∧ after.all isBlank = isBlank b := by
  induction more generalizing t first with
  | nil =>
    obtain ⟨-, later, rfl, hlater⟩ := rows_eq_cons h (List.cons_ne_nil _ _)
    cases after with
    | nil =>
      obtain ⟨rfl, hfeed⟩ := rows_eq_singleton hlater
      refine ⟨hfeed, first, [], ?_, rfl⟩
      rw [List.append_nil]
    | cons next after =>
      obtain ⟨hfeed, final, rfl, hfinal⟩ := rows_eq_cons hlater (List.cons_ne_nil _ _)
      refine ⟨hfeed, first, '\n' :: final, rfl, ?_⟩
      rw [← hfinal, isBlank_rows]
      rfl
  | cons second more ih =>
    obtain ⟨-, later, rfl, hlater⟩ := rows_eq_cons h (List.cons_ne_nil _ _)
    obtain ⟨hfeed, a, b, rfl, hblank⟩ := ih hlater
    refine ⟨hfeed, first ++ '\n' :: a, b, ?_, hblank⟩
    rw [List.append_assoc, List.cons_append]

private theorem exists_rows_append (s : Text) : ∃ front last, rows s = front ++ [last] ∧
    front.length = s.count '\n' ∧
      ∀ t, rows (s ++ t) = front ++ (rows t).modifyHead (last ++ ·) := by
  induction s with
  | nil =>
    refine ⟨[], [], rfl, rfl, ?_⟩
    intro t
    cases h : rows t <;> simp [h]
  | cons c s ih =>
    obtain ⟨front, last, hrows, hlength, happend⟩ := ih
    by_cases hc : c = '\n'
    · refine ⟨[] :: front, last, ?_, ?_, ?_⟩
      · rw [rows_cons, if_pos hc, hrows, List.cons_append]
      · rw [List.length_cons, hlength, hc, List.count_cons_self]
      · intro t
        rw [List.cons_append, rows_cons, if_pos hc, happend, List.cons_append]
    · cases front with
      | nil =>
        refine ⟨[], c :: last, ?_, ?_, ?_⟩
        · rw [rows_cons, if_neg hc, hrows]
          rfl
        · rw [hlength, List.count_cons_of_ne hc]
        · intro t
          rw [List.cons_append, rows_cons, if_neg hc, happend, List.nil_append, List.nil_append,
            List.modifyHead_modifyHead]
          rfl
      | cons first front =>
        refine ⟨(c :: first) :: front, last, ?_, ?_, ?_⟩
        · rw [rows_cons, if_neg hc, hrows]
          rfl
        · rw [List.count_cons_of_ne hc, ← hlength]
          rfl
        · intro t
          rw [List.cons_append, rows_cons, if_neg hc, happend]
          rfl

/-- The rows of a text after the first row of a part that has several rows. -/
theorem rows_of_part {t first underline : Text} {more after : List Text}
    (h : rows t = first :: (more ++ underline :: after)) (x z : Text) :
    ∃ underline' after', ((rows (x ++ t ++ z)).drop (x.count '\n' + 1)).take (t.count '\n') =
      more ++ underline' :: after' ∧ underline <+: underline' := by
  obtain ⟨frontx, lastx, -, hlengthx, happendx⟩ := exists_rows_append x
  obtain ⟨front, last, hrows, hlength, happend⟩ := exists_rows_append t
  obtain ⟨head, tail, hz⟩ : ∃ head tail, rows z = head :: tail :=
    List.exists_cons_of_ne_nil (List.splitOn_ne_nil '\n' z)
  rw [h] at hrows
  cases front with
  | nil => simp at hrows
  | cons first' front =>
    obtain ⟨rfl, htail⟩ := List.cons.inj (hrows.trans (List.cons_append ..))
    have hpart : ((rows (x ++ t ++ z)).drop (x.count '\n' + 1)).take (t.count '\n') =
        front ++ [last ++ head] := by
      rw [List.append_assoc, happendx, happend, hz, ← hlengthx, ← hlength, List.cons_append,
        List.modifyHead_cons, List.modifyHead_cons, List.drop_append,
        List.drop_of_length_le (by omega),
        List.nil_append, Nat.add_sub_cancel_left, List.drop_one, List.tail_cons, List.length_cons,
        List.append_cons, List.take_left' (by simp)]
    rw [hpart]
    rcases List.eq_nil_or_concat after with rfl | ⟨after, final, rfl⟩
    · obtain ⟨rfl, hlast⟩ := List.append_inj' htail rfl
      obtain rfl : underline = last := List.cons.inj hlast |>.1
      exact ⟨underline ++ head, [], rfl, List.prefix_append _ _⟩
    · rw [List.concat_eq_append, ← List.cons_append, ← List.append_assoc] at htail
      obtain ⟨rfl, -⟩ := List.append_inj' htail rfl
      refine ⟨underline, after ++ [last ++ head], ?_, List.prefix_rfl⟩
      rw [List.append_assoc, List.cons_append]

private theorem lineFeed_notMem_encode {c : Char} (hc : c ≠ '\n') : 10 ∉ Utf8.encode [c] := by
  intro hmem
  obtain ⟨a, b, hsplit, -⟩ := List.eq_append_cons_of_mem hmem
  have hdecoded := Utf8.decodeLossy_encode [c]
  rw [hsplit, Utf8.decodeLossy_append_lineFeed] at hdecoded
  have hfeed : '\n' ∈ [c] := by
    rw [← hdecoded]
    exact List.mem_append_right _ List.mem_cons_self
  exact hc (List.mem_singleton.mp hfeed).symm

theorem count_encode (t : Text) : (Utf8.encode t).count 10 = t.count '\n' := by
  induction t with
  | nil => rfl
  | cons c t ih =>
    rw [← List.singleton_append, Utf8.encode_append, List.count_append, List.count_append, ih]
    by_cases hc : c = '\n'
    · rw [hc]
      rfl
    · rw [List.count_eq_zero_of_not_mem (lineFeed_notMem_encode hc),
        List.count_eq_zero_of_not_mem (fun h => hc (List.mem_singleton.mp h).symm)]

end CodeAtlas.Text
