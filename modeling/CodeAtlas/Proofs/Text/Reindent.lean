import CodeAtlas.Proofs.Text.Blank
import CodeAtlas.Proofs.Text.Pick
import CodeAtlas.Proofs.Text.Rows
import CodeAtlas.Text.Basic

/-!
# Moving a text twice

A text is moved row by row: each row is taken out of the indent in which it stands and put into the
new one. A row comes out of an indent of spaces and tabs as it went in, so of two moves only the
second one counts.
-/

namespace CodeAtlas.Text

def IndentChar (c : Char) : Prop := c = ' ' ∨ c = '\t'

theorem IndentChar.blankChar {c : Char} (h : IndentChar c) : blankChar c = true := by
  rcases h with rfl | rfl <;> rfl

private theorem dropIndent_nil (width : Nat) : dropIndent width [] = [] := by
  cases width <;> rfl

private theorem dropIndent_cons_of_indentChar {c : Char} (hc : IndentChar c) (width : Nat)
    (t : Text) :
    dropIndent (width + 1) (c :: t) = dropIndent width t := if_pos hc

private theorem dropIndent_append {indent : Text} (h : ∀ c ∈ indent, IndentChar c) (row : Text) :
    dropIndent indent.length (indent ++ row) = row := by
  induction indent with
  | nil => cases row <;> rfl
  | cons c cs ih =>
    obtain ⟨hc, hcs⟩ := List.forall_mem_cons.mp h
    rw [List.length_cons, List.cons_append, dropIndent_cons_of_indentChar hc, ih hcs]

/-- What is dropped as an indent stops at its width or where the indent stops. -/
theorem exists_dropIndent (width : Nat) (t : Text) :
    ∃ lead, lead ++ dropIndent width t = t ∧ (∀ c ∈ lead, IndentChar c) ∧ lead.length ≤ width ∧
      (lead.length < width → ∀ c, (dropIndent width t).head? = some c → ¬IndentChar c) := by
  fun_induction dropIndent width t with
  | case1 width c cs hc ih =>
    obtain ⟨lead, happend, hlead, hlength, hstop⟩ := ih
    refine ⟨c :: lead, ?_, List.forall_mem_cons.mpr ⟨hc, hlead⟩, Nat.succ_le_succ hlength, ?_⟩
    · rw [List.cons_append, happend]
    · intro hlt
      exact hstop (Nat.lt_of_succ_lt_succ hlt)
  | case2 width c cs hc =>
    refine ⟨[], rfl, nofun, Nat.zero_le _, ?_⟩
    rintro - _ ⟨rfl⟩
    exact hc
  | case3 width t hstop =>
    refine ⟨[], rfl, nofun, Nat.zero_le _, ?_⟩
    intro hlt c hhead
    obtain ⟨cs, rfl⟩ := List.head?_eq_some_iff.mp hhead
    exact absurd rfl (hstop (width - 1) c cs (Nat.succ_pred_eq_of_pos hlt).symm)

section Rows

variable {kind : Char → Prop} {most column i : Nat} {row bare indent : Text}

/-- `bare` is a row without the carriage returns at its end and without the characters of a kind in
front. At most `most` of these are gone, and fewer only where no more of them are there. -/
structure Bared (kind : Char → Prop) (most : Nat) (row bare : Text) : Prop where
  parts : ∃ lead returns, row = lead ++ bare ++ returns ∧ (∀ c ∈ lead, kind c) ∧
    (∀ c ∈ returns, c = '\r') ∧ lead.length ≤ most ∧
    (lead.length < most → ∀ c, bare.head? = some c → ¬kind c)
  last : bare.getLast? ≠ some '\r'

/-- How row `i` of a text in `column` is bared: the first row of all its white space in front, each
later row of the indent up to the column. -/
def RowBared (column : Nat) : Nat → Text → Text → Prop
  -- A row has no more characters to lose than its length.
  | 0, row, bare => Bared (blankChar · = true) row.length row bare
  | _ + 1, row, bare => Bared IndentChar column row bare

theorem Bared.of_append {lead : Text} (happend : lead ++ bare = dropEndWhile (· == '\r') row)
    (hlead : ∀ c ∈ lead, kind c) (hlength : lead.length ≤ most)
    (hstop : lead.length < most → ∀ c, bare.head? = some c → ¬kind c) :
    Bared kind most row bare := by
  obtain ⟨returns, hreturns, hrow⟩ := exists_dropEndWhile (· == '\r') row
  refine ⟨⟨lead, returns, ?_, hlead, ?_, hlength, hstop⟩, ?_⟩
  · rw [happend, hrow]
  · simpa using hreturns
  · intro hlast
    have hsame : (dropEndWhile (· == '\r') row).getLast? = some '\r' := by
      rw [← happend, List.getLast?_append, hlast]
      rfl
    simpa using not_getLast?_dropEndWhile hsame

private theorem Bared.mem_row (h : Bared kind most row bare) {c : Char} (hc : c ∈ bare) :
    c ∈ row := by
  obtain ⟨lead, returns, rfl, -⟩ := h.parts
  exact List.mem_append_left _ (List.mem_append_right _ hc)

private theorem Bared.head_not_kind (h : Bared kind row.length row bare) {c : Char}
    (hc : bare.head? = some c) : ¬kind c := by
  obtain ⟨lead, returns, hrow, -, -, -, hstop⟩ := h.parts
  obtain ⟨cs, rfl⟩ := List.head?_eq_some_iff.mp hc
  exact hstop (by simp [hrow]) c hc

private theorem RowBared.exists_bared (h : RowBared column i row bare) :
    ∃ kind most, Bared kind most row bare := by
  cases i with
  | zero => exact ⟨_, _, h⟩
  | succ i => exact ⟨_, _, h⟩

def bareRow (column : Nat) : Nat → Text → Text
  | 0, row => trimStart (dropEndWhile (· == '\r') row)
  | _ + 1, row => dropIndent column (dropEndWhile (· == '\r') row)

private theorem rowBared_bareRow (column i : Nat) (row : Text) :
    RowBared column i row (bareRow column i row) := by
  obtain ⟨returns, -, hrow⟩ := exists_dropEndWhile (· == '\r') row
  cases i with
  | zero =>
    have happend : (dropEndWhile (· == '\r') row).takeWhile blankChar ++ bareRow column 0 row =
        dropEndWhile (· == '\r') row := List.takeWhile_append_dropWhile
    refine Bared.of_append happend (List.all_eq_true.mp List.all_takeWhile) ?_ ?_
    · have hlength := congrArg List.length hrow
      rw [← happend, List.length_append, List.length_append] at hlength
      omega
    · intro _ c hc
      exact Bool.eq_false_iff.mp (not_blank_head?_trimStart hc)
  | succ i =>
    obtain ⟨lead, happend, hlead, hlength, hstop⟩ :=
      exists_dropIndent column (dropEndWhile (· == '\r') row)
    exact Bared.of_append happend hlead hlength hstop

private theorem bareRow_indentRow (hindent : ∀ c ∈ indent, IndentChar c)
    (h : RowBared column i row bare) :
    bareRow indent.length i (indentRow indent bare) = bare := by
  by_cases hbare : bare = []
  · -- An empty row was put into no indent, so there is none to lose.
    rw [indentRow, if_pos hbare, hbare]
    cases i with
    | zero => rfl
    | succ i => exact dropIndent_nil _
  obtain ⟨_, _, hbared⟩ := h.exists_bared
  have hreturns : dropEndWhile (· == '\r') (indent ++ bare) = indent ++ bare := by
    apply dropEndWhile_eq_self
    intro c hc
    rw [List.getLast?_append, Option.or_of_isSome (List.getLast?_isSome.mpr hbare)] at hc
    exact beq_eq_false_iff_ne.mpr fun heq => hbared.last (heq ▸ hc)
  rw [indentRow, if_neg hbare]
  cases i with
  | zero =>
    have hblank : isBlank indent = true :=
      List.all_eq_true.mpr fun c hc => (hindent c hc).blankChar
    rw [bareRow, hreturns, trimStart_blank_append hblank]
    exact trimStart_eq_self fun c hc => Bool.eq_false_iff.mpr (Bared.head_not_kind h hc)
  | succ i => rw [bareRow, hreturns, dropIndent_append hindent]

end Rows

/-- A text is moved row by row. -/
theorem reindent_eq_joinWith (t : Text) (column : Nat) (indent : Text) :
    reindent t column indent = joinWith ['\n']
      ((rows t).mapIdx fun i row => indentRow indent (bareRow column i row)) := by
  rw [reindent]
  cases rows t with
  | nil => rfl
  | cons first later =>
    have hlater : (later.mapIdx fun i row => indentRow indent (bareRow column (i + 1) row)) =
        later.map fun row =>
          indentRow indent (dropIndent column (dropEndWhile (· == '\r') row)) := by
      apply List.ext_getElem?
      intro i
      rw [List.getElem?_mapIdx, List.getElem?_map]
      rfl
    rw [List.mapIdx_cons, hlater]
    rfl

section Moved

variable (t : Text) (column : Nat) {indent : Text} (hindent : ∀ c ∈ indent, IndentChar c)
include hindent

private theorem rows_reindent : rows (reindent t column indent) =
    (rows t).mapIdx fun i row => indentRow indent (bareRow column i row) := by
  have hfeed : '\n' ∉ indent := by
    intro hmem
    rcases hindent _ hmem with h | h <;> cases h
  -- No moved row holds a line feed, so the text is cut where its rows were joined.
  rw [reindent_eq_joinWith, rows, joinWith, List.splitOn_intercalate]
  · intro moved hmoved
    obtain ⟨i, hi, rfl⟩ := List.mem_mapIdx.mp hmoved
    obtain ⟨_, _, hbared⟩ := (rowBared_bareRow column i (rows t)[i]).exists_bared
    have hbare : '\n' ∉ bareRow column i (rows t)[i] := fun hmem =>
      lineFeed_notMem_of_mem_rows (List.getElem_mem hi) (hbared.mem_row hmem)
    rw [indentRow]
    split
    · exact List.not_mem_nil
    · exact fun hmem => (List.mem_append.mp hmem).elim hfeed hbare
  · exact mt List.mapIdx_eq_nil_iff.mp (List.splitOn_ne_nil '\n' t)

private theorem reindent_reindent (other : Text) :
    reindent (reindent t column indent) indent.length other = reindent t column other := by
  have hrow (i : Nat) (row : Text) :
      bareRow indent.length i (indentRow indent (bareRow column i row)) = bareRow column i row :=
    bareRow_indentRow hindent (rowBared_bareRow column i row)
  rw [reindent_eq_joinWith, rows_reindent t column hindent, List.mapIdx_mapIdx,
    reindent_eq_joinWith t column other]
  simp only [Function.comp_def, hrow]

end Moved

/-- Of two moves only the second one counts, if the first one was to an indent of spaces and tabs,
and a text that stands in such an indent stays as it is when it is moved there again. A move keeps
the number of rows. Each row of the result is the row of the text without the carriage returns at
its end and without the indent in which it stood, put into the new indent unless nothing is left of
it. -/
theorem reindent_composes (t : Text) (column : Nat) {indent : Text}
    (hindent : ∀ c ∈ indent, c = ' ' ∨ c = '\t') :
    (∀ other, reindent (reindent t column indent) (Utf8.size indent) other =
        reindent t column other) ∧
      reindent (reindent t column indent) (Utf8.size indent) indent = reindent t column indent ∧
      (rows (reindent t column indent)).length = (rows t).length ∧
      ∀ i row, (rows t)[i]? = some row → ∃ bare, RowBared column i row bare ∧
        (rows (reindent t column indent))[i]? = some (indentRow indent bare) := by
  have hsize : Utf8.size indent = indent.length := by
    apply size_eq_length
    intro c hc
    rcases hindent c hc with rfl | rfl <;> decide
  have hrows := rows_reindent t column hindent
  rw [hsize]
  refine ⟨reindent_reindent t column hindent, reindent_reindent t column hindent indent, ?_, ?_⟩
  · rw [hrows, List.length_mapIdx]
  · intro i row hrow
    refine ⟨bareRow column i row, rowBared_bareRow column i row, ?_⟩
    rw [hrows, List.getElem?_mapIdx, hrow]
    rfl

namespace CommentRows

/-- A comment that stands in the third column, with carriage returns, a tab and a row of one blank.
-/
def text : Text := "  /** é\r\n\t * x\n \n   */\r".toList

def indent : Text := ['\t', ' ']

private theorem indent_indentChar : ∀ c ∈ indent, c = ' ' ∨ c = '\t' := by
  simp [indent]

end CommentRows

open CommentRows in
theorem reindent_composes_comment :
    (∀ c ∈ indent, c = ' ' ∨ c = '\t') ∧
      reindent text 2 indent = "\t /** é\n\t * x\n\n\t  */".toList ∧
      reindent (reindent text 2 indent) (Utf8.size indent) ['>'] = ">/** é\n>* x\n\n> */".toList ∧
      ∃ bare, RowBared 2 3 "   */\r".toList bare ∧
        (rows (reindent text 2 indent))[3]? = some (indentRow indent bare) := by
  obtain ⟨hother, -, -, hrows⟩ := reindent_composes text 2 indent_indentChar
  refine ⟨indent_indentChar, by decide +kernel, ?_, hrows 3 _ (by decide +kernel)⟩
  rw [hother]
  decide +kernel

end CodeAtlas.Text
