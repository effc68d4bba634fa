import CodeAtlas.Text.Basic

/-!
# Lines of a text

A text is the concatenation of its lines, and cutting it at a line end cuts its lines in two. These
facts let a text be taken apart line by line and put together again.
-/

namespace CodeAtlas.Text

/-- A text that stops where a line stops, so that whatever follows it starts a line. -/
def EndsLine (t : Text) : Prop := t = [] ∨ t.getLast? = some '\n'

theorem linesWithEnds_flatten (t : Text) : (linesWithEnds t).flatten = t := by
  induction t with
  | nil => rfl
  | cons c cs ih =>
      by_cases hc : c = '\n'
      · simp [linesWithEnds, hc, ih]
      · cases hl : linesWithEnds cs with
        | nil =>
            rw [hl] at ih
            rw [linesWithEnds, if_neg hc, hl, ← ih]
            rfl
        | cons line rest =>
            rw [hl] at ih
            rw [linesWithEnds, if_neg hc, hl, ← ih]
            rfl

theorem linesWithEnds_eq_nil {t : Text} (h : linesWithEnds t = []) : t = [] := by
  rw [← linesWithEnds_flatten t, h]
  rfl

theorem linesWithEnds_line {p : Text} (hp : '\n' ∉ p) (t : Text) :
    linesWithEnds (p ++ '\n' :: t) = (p ++ ['\n']) :: linesWithEnds t := by
  induction p with
  | nil => simp [linesWithEnds]
  | cons c cs ih =>
      have hc : c ≠ '\n' := by intro h; exact hp (by simp [h])
      have hcs : '\n' ∉ cs := by intro h; exact hp (by simp [h])
      simp [linesWithEnds, hc, ih hcs]

theorem eq_of_append_lineFeed {p q s t : Text} (hp : '\n' ∉ p) (hq : '\n' ∉ q)
    (h : p ++ '\n' :: s = q ++ '\n' :: t) : p = q := by
  have hlines := congrArg linesWithEnds h
  rw [linesWithEnds_line hp, linesWithEnds_line hq] at hlines
  exact List.append_cancel_right (List.cons.inj hlines).1

theorem linesWithEnds_last {p : Text} (hp : '\n' ∉ p) (hne : p ≠ []) : linesWithEnds p = [p] := by
  induction p with
  | nil => exact absurd rfl hne
  | cons c cs ih =>
      have hc : c ≠ '\n' := by intro h; exact hp (by simp [h])
      have hcs : '\n' ∉ cs := by intro h; exact hp (by simp [h])
      cases cs with
      | nil => simp [linesWithEnds, hc]
      | cons d ds =>
          have hrest := ih hcs (by simp)
          rw [linesWithEnds, if_neg hc, hrest]

/-- Induction on a text line by line. -/
theorem line_induction {motive : Text → Prop} (nil : motive [])
    (last : ∀ p : Text, '\n' ∉ p → p ≠ [] → motive p)
    (line : ∀ p t : Text, '\n' ∉ p → motive t → motive (p ++ '\n' :: t)) (t : Text) : motive t := by
  generalize hn : t.length = n
  induction n using Nat.strongRecOn generalizing t with
  | ind n ih =>
      by_cases ht : '\n' ∈ t
      · obtain ⟨p, rest, rfl, hp⟩ := List.eq_append_cons_of_mem ht
        exact line p rest hp (ih rest.length (by simp [← hn]; omega) rest rfl)
      · by_cases hne : t = []
        · exact hne ▸ nil
        · exact last t ht hne

@[simp] theorem endsLine_nil : EndsLine [] := Or.inl rfl

@[simp] theorem endsLine_append_lineFeed (t : Text) : EndsLine (t ++ ['\n']) := by
  right
  simp

private theorem EndsLine.of_append_lineFeed {p t : Text} (h : EndsLine (p ++ '\n' :: t)) :
    EndsLine t := by
  by_cases ht : t = []
  · exact Or.inl ht
  · right
    rcases h with h | h
    · simp at h
    · rw [List.getLast?_append, List.getLast?_cons_of_ne_nil ht] at h
      cases hl : t.getLast? with
      | none => exact absurd (List.getLast?_eq_none_iff.mp hl) ht
      | some c => simpa [hl] using h

private theorem not_endsLine_last {p : Text} (hp : '\n' ∉ p) (hne : p ≠ []) : ¬EndsLine p := by
  rintro (h | h)
  · exact hne h
  · exact hp (List.mem_of_getLast? h)

/-- Where a text stops at a line end, its lines are followed by the lines of what comes after. -/
theorem linesWithEnds_append {a : Text} (ha : EndsLine a) (b : Text) :
    linesWithEnds (a ++ b) = linesWithEnds a ++ linesWithEnds b := by
  induction a using line_induction with
  | nil => rfl
  | last p hp hne => exact absurd ha (not_endsLine_last hp hne)
  | line p t hp ih =>
      rw [List.append_assoc, List.cons_append, linesWithEnds_line hp, linesWithEnds_line hp,
        ih ha.of_append_lineFeed, List.cons_append]

/-- What ends a line in front of some lines: a line feed, or nothing if no line follows. -/
def Ending (feed : Text) (later : List Text) : Prop := feed = ['\n'] ∨ feed = [] ∧ later = []

theorem linesWithEnds_ending {p feed t : Text} (hp : '\n' ∉ p) (he : Ending feed (linesWithEnds t))
    (hne : p ++ feed ≠ []) : linesWithEnds (p ++ feed ++ t) = (p ++ feed) :: linesWithEnds t := by
  rcases he with rfl | ⟨rfl, ht⟩
  · rw [List.append_assoc, List.singleton_append, linesWithEnds_line hp]
  · rw [List.append_nil] at hne
    simp [linesWithEnds_eq_nil ht, linesWithEnds_last hp hne, linesWithEnds]

/-- Cutting the lines of a text in front of a line cuts the text at a line end, and only the last
line may lack its line feed. -/
theorem linesWithEnds_split {t line : Text} {before after : List Text}
    (h : linesWithEnds t = before ++ line :: after) :
    EndsLine before.flatten ∧ linesWithEnds before.flatten = before ∧
      linesWithEnds after.flatten = after ∧
      ∃ p feed, '\n' ∉ p ∧ line = p ++ feed ∧ line ≠ [] ∧ Ending feed after := by
  induction t using line_induction generalizing before with
  | nil => simp [linesWithEnds] at h
  | last p hp hne =>
      rw [linesWithEnds_last hp hne] at h
      cases before with
      | nil =>
          simp only [List.nil_append, List.cons.injEq, List.nil_eq] at h
          obtain ⟨rfl, rfl⟩ := h
          exact ⟨endsLine_nil, rfl, rfl, p, [], hp, by simp, hne, Or.inr ⟨rfl, rfl⟩⟩
      | cons first rest => simp at h
  | line p t hp ih =>
      rw [linesWithEnds_line hp] at h
      cases before with
      | nil =>
          simp only [List.nil_append, List.cons.injEq] at h
          obtain ⟨rfl, rfl⟩ := h
          exact ⟨endsLine_nil, rfl, by rw [linesWithEnds_flatten], p, ['\n'], hp, rfl, by simp,
            Or.inl rfl⟩
      | cons first rest =>
          simp only [List.cons_append, List.cons.injEq] at h
          obtain ⟨rfl, h⟩ := h
          obtain ⟨hends, hbefore, hafter, hline⟩ := ih h
          refine ⟨?_, ?_, hafter, hline⟩
          · rcases hends with hnil | hlast
            · simp [hnil]
            · right
              simp [List.getLast?_cons, hlast]
          · simp [linesWithEnds_line hp, hbefore]

@[simp] theorem dropLineFeed_line (p : Text) : dropLineFeed (p ++ ['\n']) = p := by
  simp [dropLineFeed]

private theorem dropLineFeed_last {p : Text} (hp : '\n' ∉ p) : dropLineFeed p = p := by
  have h : p.getLast? ≠ some '\n' := fun h => hp (List.mem_of_getLast? h)
  simp [dropLineFeed, h]

theorem dropLineFeed_ending {p feed : Text} {later : List Text} (hp : '\n' ∉ p)
    (he : Ending feed later) : dropLineFeed (p ++ feed) = p := by
  rcases he with rfl | ⟨rfl, _⟩
  · exact dropLineFeed_line p
  · rw [List.append_nil, dropLineFeed_last hp]

end CodeAtlas.Text
