import CodeAtlas.Fence.Segment
import CodeAtlas.Proofs.Fence.Line
import CodeAtlas.Proofs.Text.Lines

/-!
# Reading fenced blocks

The lines of a text fall into pieces: single lines of prose, and fenced blocks with all their lines.
A list of pieces is a reading if every block is closed by its first closing line and no line of
prose could open a block that a later line closes. Every text has a reading, and the segments of the
text are those of its reading.
-/

namespace CodeAtlas

/-- A block as it stands in a text, `f` being the fence of its opening line. -/
structure FencedBlock.OpenedBy (b : FencedBlock) (f : FenceLine) : Prop where
  opens : FenceLine.ofLine? b.opening = some f
  canOpen : f.canOpen = true
  fence : b.fence = f.characters
  info : b.info = Text.trim f.rest
  opening_line : '\n' ∉ b.opening
  closing_line : '\n' ∉ b.closing
  body_lines : Text.EndsLine b.body
  inside : ∀ line ∈ Text.linesWithEnds b.body, f.closedBy (Text.dropLineFeed line) = false
  closes : f.closedBy b.closing = true

private theorem FencedBlock.OpenedBy.closing_ne_nil {b : FencedBlock} {f : FenceLine}
    (h : b.OpenedBy f) :
    b.closing ≠ [] := by
  intro hnil
  have hc := h.closes
  rw [hnil] at hc
  simp [FenceLine.closedBy, FenceLine.ofLine?] at hc

private theorem Segment.opens?_eq_some_iff {line : Text} {later : List Text} {f : FenceLine} :
    opens? line later = some f ↔ FenceLine.ofLine? (Text.dropLineFeed line) = some f ∧
      f.canOpen = true ∧ ∃ l ∈ later, f.closedBy (Text.dropLineFeed l) = true := by
  rw [opens?]
  cases hf : FenceLine.ofLine? (Text.dropLineFeed line) with
  | none => simp
  | some g =>
      simp only [Option.bind_eq_bind, Option.bind_some, Option.some.injEq]
      constructor
      · intro h
        split at h
        · rename_i hg
          rw [Bool.and_eq_true, List.any_eq_true] at hg
          rw [← Option.some.inj h]
          exact ⟨rfl, hg⟩
        · simp at h
      · rintro ⟨rfl, hopen, hclosed⟩
        rw [if_pos (by rw [Bool.and_eq_true, List.any_eq_true]; exact ⟨hopen, hclosed⟩)]

/-- A line opens nothing if no later line closes the block it could open. -/
theorem Segment.opens?_eq_none_iff {line : Text} {later : List Text} :
    opens? line later = none ↔ ∀ f, FenceLine.ofLine? (Text.dropLineFeed line) = some f →
      f.canOpen = true → ∀ l ∈ later, f.closedBy (Text.dropLineFeed l) = false := by
  constructor
  · intro h f hf hopen l hl
    cases hclosed : f.closedBy (Text.dropLineFeed l) with
    | false => rfl
    | true =>
        have hsome := opens?_eq_some_iff.mpr ⟨hf, hopen, l, hl, hclosed⟩
        rw [h] at hsome
        exact absurd hsome (by simp)
  · intro h
    cases ho : opens? line later with
    | none => rfl
    | some f =>
        obtain ⟨hf, hopen, l, hl, hclosed⟩ := opens?_eq_some_iff.mp ho
        rw [h f hf hopen l hl] at hclosed
        exact absurd hclosed (by simp)

/-- A line of prose with its line feed, or a block with what follows its closing line up to the
next line. -/
inductive Piece where
  | line (t : Text)
  | fenced (b : FencedBlock) (feed : Text)

namespace Piece

def text : Piece → Text
  | line t => t
  | fenced b feed => b.render ++ feed

def lines : Piece → List Text
  | line t => [t]
  | fenced b feed =>
      (b.opening ++ ['\n']) :: (Text.linesWithEnds b.body ++ [b.closing ++ feed])

def textOf (ps : List Piece) : Text := ps.flatMap text

def linesOf (ps : List Piece) : List Text := ps.flatMap lines

/-- The segments of some pieces, `read` being the prose in front of them. -/
def segments (read : Text) : List Piece → List Segment
  | [] => Segment.ofProse read
  | line t :: rest => segments (read ++ t) rest
  | fenced b feed :: rest => Segment.ofProse read ++ .block b :: segments feed rest

/-- Pieces in which no line of prose opens a block that is closed later, and every block stands as
its opening line says. -/
inductive Reading : List Piece → Prop
  | nil : Reading []
  | line {p feed : Text} {rest : List Piece} (plain : '\n' ∉ p)
    (ending : Text.Ending feed (linesOf rest))
      (nonempty : p ++ feed ≠ []) (prose : Segment.opens? (p ++ feed) (linesOf rest) = none)
      (tail : Reading rest) : Reading (Piece.line (p ++ feed) :: rest)
  | fenced {b : FencedBlock} {f : FenceLine} {feed : Text} {rest : List Piece}
      (opened : b.OpenedBy f) (ending : Text.Ending feed (linesOf rest)) (tail : Reading rest) :
      Reading (Piece.fenced b feed :: rest)

@[simp] theorem textOf_nil : textOf [] = [] := rfl

@[simp] theorem textOf_cons (p : Piece) (ps : List Piece) :
    textOf (p :: ps) = p.text ++ textOf ps :=
  List.flatMap_cons

@[simp] theorem linesOf_nil : linesOf [] = [] := rfl

@[simp] theorem linesOf_cons (p : Piece) (ps : List Piece) :
    linesOf (p :: ps) = p.lines ++ linesOf ps :=
  List.flatMap_cons

theorem Reading.linesWithEnds_textOf {ps : List Piece} (h : Reading ps) :
    Text.linesWithEnds (textOf ps) = linesOf ps := by
  induction h with
  | nil => rfl
  | line plain ending nonempty _ _ ih =>
      rw [textOf_cons, text, Text.linesWithEnds_ending plain (by rw [ih]; exact ending) nonempty,
        ih]
      rfl
  | @fenced b f feed rest opened ending _ ih =>
      have htext : textOf (Piece.fenced b feed :: rest) =
          b.opening ++ '\n' :: (b.body ++ (b.closing ++ feed ++ textOf rest)) := by
        simp [text, FencedBlock.render]
      have hclosing : b.closing ++ feed ≠ [] := by simp [opened.closing_ne_nil]
      rw [htext, Text.linesWithEnds_line opened.opening_line,
        Text.linesWithEnds_append opened.body_lines,
        Text.linesWithEnds_ending opened.closing_line (by rw [ih]; exact ending) hclosing, ih]
      simp [lines]

@[simp] theorem renderAll_ofProse (t : Text) : Segment.renderAll (Segment.ofProse t) = t := by
  by_cases ht : t = [] <;> simp [Segment.ofProse, Segment.renderAll, Segment.render, ht]

theorem renderAll_segments (read : Text) (ps : List Piece) :
    Segment.renderAll (segments read ps) = read ++ textOf ps := by
  induction ps generalizing read with
  | nil => simp [segments]
  | cons p rest ih =>
      cases p with
      | line t => simp [segments, ih, text]
      | fenced b feed =>
          have hblock : Segment.renderAll (.block b :: segments feed rest) =
              b.render ++ Segment.renderAll (segments feed rest) := rfl
          rw [segments, Segment.renderAll, List.flatMap_append, ← Segment.renderAll,
            ← Segment.renderAll, renderAll_ofProse, hblock, ih]
          simp [text]

private theorem ofLines_inBlock (opening : Text) (f : FenceLine) (read : Text) (body : List Text)
    (closing : Text) (rest : List Text)
    (hbody : ∀ line ∈ body, f.closedBy (Text.dropLineFeed line) = false)
    (hclosing : f.closedBy (Text.dropLineFeed closing) = true) :
    Segment.ofLines (.inBlock opening f read) (body ++ closing :: rest) =
      .block ⟨opening, f.characters, Text.trim f.rest, read ++ body.flatten,
        Text.dropLineFeed closing⟩ ::
        Segment.ofLines (.inProse (closing.drop (Text.dropLineFeed closing).length)) rest := by
  induction body generalizing read with
  | nil => simp [Segment.ofLines, hclosing]
  | cons line body ih =>
      have hline := hbody line List.mem_cons_self
      have hrest := ih (read ++ line) fun l hl => hbody l (List.mem_cons_of_mem _ hl)
      simp only [List.cons_append, Segment.ofLines, hline, Bool.false_eq_true, if_false, hrest,
        List.flatten_cons, List.append_assoc]

/-- Reading the lines of a reading gives its segments. -/
theorem Reading.ofLines_linesOf {ps : List Piece} (h : Reading ps) (read : Text) :
    Segment.ofLines (.inProse read) (linesOf ps) = segments read ps := by
  induction h generalizing read with
  | nil => rfl
  | line plain ending nonempty prose _ ih =>
      rw [linesOf_cons, lines, List.singleton_append, Segment.ofLines]
      simp only [prose]
      rw [ih, segments]
  | @fenced b f feed rest opened ending _ ih =>
      have hfeed : Text.dropLineFeed (b.closing ++ feed) = b.closing :=
        Text.dropLineFeed_ending opened.closing_line ending
      have hopens : Segment.opens? (b.opening ++ ['\n'])
          (Text.linesWithEnds b.body ++ (b.closing ++ feed) :: linesOf rest) = some f := by
        rw [Segment.opens?_eq_some_iff, Text.dropLineFeed_line]
        exact ⟨opened.opens, opened.canOpen, b.closing ++ feed, by simp,
          by rw [hfeed]; exact opened.closes⟩
      have hblock := ofLines_inBlock b.opening f [] (Text.linesWithEnds b.body)
        (b.closing ++ feed) (linesOf rest) opened.inside (by rw [hfeed]; exact opened.closes)
      have hb : b = ⟨b.opening, f.characters, Text.trim f.rest, b.body, b.closing⟩ := by
        rw [← opened.fence, ← opened.info]
      rw [linesOf_cons, lines, List.cons_append, List.append_assoc, List.singleton_append,
        Segment.ofLines]
      simp only [hopens, Text.dropLineFeed_line]
      rw [hblock, hfeed, Text.linesWithEnds_flatten, List.nil_append, ← hb, List.drop_left, ih,
        segments]

theorem Reading.ofText_textOf {ps : List Piece} (h : Reading ps) :
    Segment.ofText (textOf ps) = segments [] ps := by
  rw [Segment.ofText, h.linesWithEnds_textOf, h.ofLines_linesOf]

private theorem exists_openedBy {opening : Text} {f : FenceLine} {t : Text}
    (hopening : '\n' ∉ opening) (hf : FenceLine.ofLine? opening = some f) (hcan : f.canOpen = true)
    (hclosed : ∃ l ∈ Text.linesWithEnds t, f.closedBy (Text.dropLineFeed l) = true) :
    ∃ (b : FencedBlock) (feed : Text) (rest : List Text), b.OpenedBy f ∧ b.opening = opening ∧
      Text.linesWithEnds rest.flatten = rest ∧ Text.Ending feed rest ∧
      t = b.body ++ (b.closing ++ feed) ++ rest.flatten := by
  have hfind := List.find?_isSome.mpr hclosed
  obtain ⟨closing, hclosing⟩ := Option.isSome_iff_exists.mp hfind
  obtain ⟨hcloses, body, rest, hlines, hbody⟩ := List.find?_eq_some_iff_append.mp hclosing
  obtain ⟨hends, hinside, hrest, p, feed, hp, rfl, -, hfeed⟩ := Text.linesWithEnds_split hlines
  rw [Text.dropLineFeed_ending hp hfeed] at hcloses
  refine ⟨⟨opening, f.characters, Text.trim f.rest, body.flatten, p⟩, feed, rest,
    ⟨hf, hcan, rfl, rfl, hopening, hp, hends, ?_, hcloses⟩, rfl, hrest, hfeed, ?_⟩
  · intro line hline
    rw [hinside] at hline
    simpa using hbody line hline
  · rw [← Text.linesWithEnds_flatten t, hlines, List.flatten_append, List.flatten_cons]
    simp

/-- Every text has a reading. -/
theorem exists_reading (t : Text) : ∃ ps, Reading ps ∧ textOf ps = t := by
  generalize hn : t.length = n
  induction n using Nat.strongRecOn generalizing t with
  | ind n ih =>
      cases ht : Text.linesWithEnds t with
      | nil => exact ⟨[], .nil, by rw [Text.linesWithEnds_eq_nil ht]; rfl⟩
      | cons line later =>
          have hsplit : Text.linesWithEnds t = [] ++ line :: later := ht
          obtain ⟨-, -, hlater, p, feed, hp, rfl, hne, hfeed⟩ := Text.linesWithEnds_split hsplit
          have hflat : t = p ++ feed ++ later.flatten := by
            rw [← Text.linesWithEnds_flatten t, ht, List.flatten_cons]
          have hlen : t.length = (p ++ feed).length + later.flatten.length := by
            rw [hflat, List.length_append]
          have hpos := List.length_pos_iff.mpr hne
          cases ho : Segment.opens? (p ++ feed) later with
          | none =>
              -- The line is prose, and what follows it is read on its own.
              obtain ⟨ps, hps, htext⟩ := ih later.flatten.length (by omega) later.flatten rfl
              have hlines : linesOf ps = later := by
                rw [← hps.linesWithEnds_textOf, htext, hlater]
              rw [← hlines] at hfeed ho
              exact ⟨Piece.line (p ++ feed) :: ps, .line hp hfeed hne ho hps,
                by rw [textOf_cons, text, htext, hflat]⟩
          | some f =>
              -- The block takes all lines up to the first one that closes it.
              obtain ⟨hf, hcan, hclosed⟩ := Segment.opens?_eq_some_iff.mp ho
              rw [Text.dropLineFeed_ending hp hfeed] at hf
              rcases hfeed with rfl | ⟨-, rfl⟩
              · rw [← hlater] at hclosed
                obtain ⟨b, feed, rest, hb, rfl, hrest, hend, hbody⟩ :=
                  exists_openedBy hp hf hcan hclosed
                have hshort := congrArg List.length hbody
                simp only [List.length_append] at hshort
                obtain ⟨ps, hps, htext⟩ := ih rest.flatten.length (by omega) rest.flatten rfl
                have hlines : linesOf ps = rest := by
                  rw [← hps.linesWithEnds_textOf, htext, hrest]
                rw [← hlines] at hend
                refine ⟨Piece.fenced b feed :: ps, .fenced hb hend hps, ?_⟩
                rw [textOf_cons, text, htext, hflat, hbody, FencedBlock.render]
                simp
              · obtain ⟨l, hl, -⟩ := hclosed
                simp at hl

end Piece

end CodeAtlas
