import CodeAtlas.Extract.Languages
import CodeAtlas.Markdown.Section
import CodeAtlas.Proofs.Extract.Located
import CodeAtlas.Proofs.Position.Row
import CodeAtlas.Proofs.Text.Blank
import CodeAtlas.Proofs.Text.Lines
import CodeAtlas.Proofs.Text.Rows

/-!
# Levels of underlined headings

The level of an underlined heading is read twice: from the last line of its text where it is written
with marks in front, and from the first row below its start that starts like an underline where its
section is closed. The two agree unless a line of the title starts like the other underline.
-/

namespace CodeAtlas

namespace Text

private theorem lines_last {w : Text} (hfeed : '\n' ∉ w) (hw : isBlank w = false) :
    lines w = [w] := by
  have hne : w ≠ [] := by
    intro hnil
    rw [hnil] at hw
    cases hw
  rw [lines, linesWithEnds_last hfeed hne, List.map_singleton, dropLineEnd, if_neg]
  intro hlast
  exact hfeed (List.mem_of_getLast? hlast)

private theorem getLast?_lines_trim {u b : Text} (a : Text) (hfeed : '\n' ∉ u)
    (hu : isBlank u = false) (hb : isBlank b = true) :
    ((lines (trim (a ++ '\n' :: (u ++ b)))).map trim).getLast? = some (trim u) := by
  rw [← List.cons_append, ← List.append_assoc, trim_append_blank hb, List.append_cons]
  cases ha : isBlank a with
  | true =>
    have hfront : isBlank (a ++ ['\n']) = true := by
      rw [isBlank_append, ha]
      rfl
    have htrim : trim (a ++ ['\n'] ++ u) = trim u := by
      rw [trim, trimStart_blank_append hfront, trim]
    have hfeed' : '\n' ∉ trim u := fun h => hfeed (mem_of_mem_trim h)
    rw [htrim, lines_last hfeed' (by rw [isBlank_trim, hu])]
    simp [trim_trim]
  | false =>
    have hfeed' : '\n' ∉ trimEnd u := fun h => hfeed (mem_of_mem_trimEnd h)
    have htrim : trim (a ++ ['\n'] ++ u) = trimStart a ++ ['\n'] ++ trimEnd u := by
      rw [trim, List.append_assoc, trimStart_append ha, ← List.append_assoc, trimEnd_append hu]
    have hlines : lines (trim (a ++ ['\n'] ++ u)) =
        lines (trimStart a ++ ['\n']) ++ [trimEnd u] := by
      have hlast := lines_last hfeed' (by rw [isBlank_trimEnd, hu])
      rw [lines] at hlast
      rw [htrim, lines, linesWithEnds_append (endsLine_append_lineFeed _), List.map_append, hlast,
        lines]
    rw [hlines, List.map_append, List.map_singleton, List.getLast?_concat, trim_trimEnd]

end Text

private theorem Text.row_pointOf_append (x y : Text) :
    ((x ++ y).pointOf (Utf8.size x)).row = x.count '\n' := by
  calc
    ((x ++ y).pointOf (Utf8.size x)).row = ((Utf8.encode (x ++ y)).take (Utf8.size x)).count 10 :=
      LineTable.rowOf_eq_count _ _
    _ = (Utf8.encode x).count 10 := by
      have hsize : (Utf8.encode x).length = Utf8.size x := rfl
      rw [Utf8.encode_append, List.take_left' hsize]
    _ = x.count '\n' := Text.count_encode x

namespace Buffer

private theorem map_trim_row {text : Text} {a n : Nat} (h : a + n ≤ (ofText text).lines.rowCount) :
    (List.range' a n).map (fun r => Text.trim ((ofText text).row r)) =
      (((Text.rows text).drop a).take n).map Text.trim := by
  apply List.ext_getElem?
  intro i
  rw [List.getElem?_map, List.getElem?_map, List.getElem?_take, List.getElem?_drop]
  by_cases hi : i < n
  · have hlast : a + i ≤ (LineTable.ofBytes (Utf8.encode text)).lastRow := by
      have hcount : (ofText text).lines.rowCount = _ := LineTable.length_starts (Utf8.encode text)
      omega
    obtain ⟨row, hrow, htrim⟩ := trim_row hlast
    rw [Utf8.decodeLossy_encode] at hrow
    rw [if_pos hi, hrow, List.getElem?_range' hi, Nat.one_mul, Option.map_some, Option.map_some]
    exact congrArg some htrim
  · rw [if_neg hi, List.getElem?_eq_none (by simpa using hi)]
    rfl

end Buffer

namespace Markdown

/-- A line made of one mark. -/
def IsUnderline (mark : Char) (line : Text) : Prop :=
  Text.trim line ≠ [] ∧ ∀ c ∈ Text.trim line, c = mark

instance (mark : Char) (line : Text) : Decidable (IsUnderline mark line) :=
  haveI : Decidable (∀ c ∈ Text.trim line, c = mark) := List.decidableBAll _ _
  inferInstanceAs (Decidable (_ ∧ _))

/-- A text of a title in one or more lines, none of them an underline itself, and of an underline.
Blank lines may follow. -/
structure Underlined (t first : Text) (more : List Text) (mark : Char) : Prop where
  marks : mark = '=' ∨ mark = '-'
  title : ∀ line ∈ first :: more, ¬IsUnderline '=' line ∧ ¬IsUnderline '-' line
  rows : ∃ underline after, Text.rows t = first :: (more ++ underline :: after) ∧
    IsUnderline mark underline ∧ after.all Text.isBlank = true

def markLevel (mark : Char) : Nat := if mark = '=' then 1 else 2

def hashCount (form : Text) : Nat := (form.takeWhile (· == '#')).length

theorem IsUnderline.head? {mark : Char} {line : Text} (h : IsUnderline mark line) :
    (Text.trim line).head? = some mark := by
  obtain ⟨hne, hall⟩ := h
  cases htrim : Text.trim line with
  | nil => exact absurd htrim hne
  | cons c cs =>
    rw [htrim] at hall
    exact congrArg some (hall c List.mem_cons_self)

theorem IsUnderline.not_blank {mark : Char} {line : Text} (h : IsUnderline mark line) :
    Text.isBlank line = false := by
  cases hblank : Text.isBlank line with
  | true => exact absurd (Text.trim_of_isBlank hblank) h.1
  | false => rfl

private theorem IsUnderline.head?_of_prefix {mark : Char} {line row : Text}
    (h : IsUnderline mark line) (hbegins : line <+: row) : (Text.trim row).head? = some mark := by
  obtain ⟨rest, rfl⟩ := hbegins
  have hhead := h.head?
  rw [Text.head?_trim] at hhead
  rw [Text.head?_trim, Text.trimStart_append h.not_blank, List.head?_append, hhead, Option.some_or]

private theorem hashCount_trimEnd (form : Text) :
    hashCount (Text.trimEnd form) = hashCount form := by
  obtain ⟨blank, hblank, happend⟩ := Text.exists_trimEnd form
  have hnone : blank.takeWhile (· == '#') = [] := by
    cases blank with
    | nil => rfl
    | cons c cs =>
      apply List.takeWhile_cons_of_neg
      intro hc
      rw [beq_iff_eq.mp hc] at hblank
      cases hblank
  have hcount : hashCount form = hashCount (Text.trimEnd form ++ blank) :=
    congrArg hashCount happend.symm
  rw [hcount, hashCount, hashCount, List.takeWhile_append]
  split
  · next hlength => rw [hnone, List.append_nil, hlength]
  · rfl

/-- The rows that the level of an underlined heading is read from are those below its first row. -/
theorem headingLevel_eq_scan {x t z : Text} {s : Symbol} (hkind : s.kind = .underlinedHeading)
    (hstart : s.extent.startPoint = (x ++ t ++ z).pointOf (Utf8.size x))
    (hstop : s.extent.endPoint = (x ++ t ++ z).pointOf (Utf8.size (x ++ t))) :
    headingLevel (.ofText (x ++ t ++ z)) s = underlineLevel (((((Text.rows (x ++ t ++ z)).drop
      (x.count '\n' + 1)).take (t.count '\n')).map Text.trim).find? underlines) := by
  have hfirst : s.extent.startPoint.row = x.count '\n' := by
    rw [hstart, List.append_assoc, Text.row_pointOf_append]
  have hlast : s.extent.endPoint.row = x.count '\n' + t.count '\n' := by
    rw [hstop, Text.row_pointOf_append, List.count_append]
  have hrow : s.extent.endPoint.row ≤ (LineTable.ofBytes (Utf8.encode (x ++ t ++ z))).lastRow := by
    rw [hstop]
    exact LineTable.rowOf_le_lastRow _ _
  have hrows : (Buffer.ofText (x ++ t ++ z)).lines.rowCount = _ :=
    LineTable.length_starts (Utf8.encode (x ++ t ++ z))
  have hcount : min (x.count '\n' + t.count '\n' + 1 - (x.count '\n' + 1))
      (Buffer.ofText (x ++ t ++ z)).lines.rowCount = t.count '\n' := by omega
  rw [headingLevel, hkind, hfirst, hlast]
  dsimp only
  rw [underline?, hcount, Buffer.map_trim_row (by omega)]

section Levels

variable {t first : Text} {more : List Text} {mark : Char} (h : Underlined t first more mark)
include h

/-- A heading written with marks in front has the marks of its underline. -/
theorem Underlined.exists_markedHeading :
    ∃ title, Profile.markedHeading t = List.replicate (markLevel mark) '#' ++ ' ' :: title := by
  obtain ⟨underline, after, hrows, hunderline, hafter⟩ := h.rows
  obtain ⟨hfeed, a, b, rfl, hblank⟩ := Text.exists_split_at_row hrows
  have hlast := Text.getLast?_lines_trim a hfeed hunderline.not_blank (hblank ▸ hafter)
  have hmarks : (if (Text.trim underline).head? = some '=' then ['#'] else ['#', '#']) =
      List.replicate (markLevel mark) '#' := by
    rw [hunderline.head?, markLevel]
    simp only [Option.some.injEq]
    split <;> rfl
  rw [Profile.markedHeading, hlast]
  dsimp only
  rw [hmarks]
  exact ⟨_, rfl⟩

theorem Underlined.hashCount_markedHeading :
    hashCount (Text.trimEnd (Profile.markedHeading t)) = markLevel mark := by
  obtain ⟨title, htitle⟩ := h.exists_markedHeading
  rw [hashCount_trimEnd, htitle, hashCount, List.takeWhile_append_of_pos (by simp)]
  simp

private theorem Underlined.underlineLevel_eq_iff {line : Text} (hline : underlines line = true) :
    underlineLevel (some line) = markLevel mark ↔ line.head? = some mark := by
  rcases h.marks with rfl | rfl <;> revert hline <;> fun_cases underlines line <;>
    simp [underlineLevel, markLevel]

/-- The level read from the rows below the start of a heading is that of its underline exactly if
no line of the title is taken for the other underline. -/
theorem Underlined.headingLevel_eq_iff {x z : Text} {s : Symbol}
    (hkind : s.kind = .underlinedHeading)
    (hstart : s.extent.startPoint = (x ++ t ++ z).pointOf (Utf8.size x))
    (hstop : s.extent.endPoint = (x ++ t ++ z).pointOf (Utf8.size (x ++ t))) :
    headingLevel (.ofText (x ++ t ++ z)) s = markLevel mark ↔
      ∀ line, more.find? (fun l => underlines (Text.trim l)) = some line →
        (Text.trim line).head? = some mark := by
  obtain ⟨underline, after, hrows, hunderline, -⟩ := h.rows
  obtain ⟨underline', after', hpart, hbegins⟩ := Text.rows_of_part hrows x z
  have hhead := hunderline.head?_of_prefix hbegins
  have hstops : underlines (Text.trim underline') = true := by
    cases htrim : Text.trim underline' with
    | nil => simp [htrim] at hhead
    | cons c cs =>
      obtain rfl : c = mark := by simpa [htrim] using hhead
      rcases h.marks with rfl | rfl <;> rfl
  have hscan : ((more ++ underline' :: after').map Text.trim).find? underlines =
      ((more.find? (fun l => underlines (Text.trim l))).or (some underline')).map Text.trim := by
    rw [List.find?_map, List.find?_append,
      List.find?_cons_of_pos (show (underlines ∘ Text.trim) underline' = true from hstops)]
    rfl
  rw [headingLevel_eq_scan hkind hstart hstop, hpart, hscan]
  cases hfind : more.find? (fun l => underlines (Text.trim l)) with
  | none =>
    simp only [Option.none_or, Option.map_some, reduceCtorEq, false_imp_iff, implies_true, iff_true]
    exact (h.underlineLevel_eq_iff hstops).mpr hhead
  | some line =>
    simp only [Option.some_or, Option.map_some, Option.some.injEq, forall_eq']
    have hline : underlines (Text.trim line) = true :=
      List.find?_some (p := fun l => underlines (Text.trim l)) hfind
    exact h.underlineLevel_eq_iff hline

end Levels

end Markdown

end CodeAtlas
