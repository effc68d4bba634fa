import CodeAtlas.Proofs.Fence.Reading

/-!
# Segments are lossless and exact

The segments of a text have the text itself for their rendering, every block among them is one that
its opening line opens and the first closing line after it closes, and a line is left in prose only
if no later line closes the block it could open.
-/

namespace CodeAtlas

namespace Segment

/-- The line that comes after the text `earlier` stands in the prose of some segments. -/
def StandsInProse (segments : List Segment) (earlier line : Text) : Prop :=
  ∃ (before : List Segment) (x y : Text) (after : List Segment),
    segments = before ++ .prose (x ++ line ++ y) :: after ∧ earlier = renderAll before ++ x

/-- The text of a line that comes after the text `earlier` stands in a block of some segments. -/
def StandsInBlock (segments : List Segment) (earlier line : Text) : Prop :=
  ∃ (before : List Segment) (b : FencedBlock) (x y : Text) (after : List Segment),
    segments = before ++ .block b :: after ∧ earlier = renderAll before ++ x ∧
      b.render = x ++ line ++ y

@[simp] theorem renderAll_append (a b : List Segment) :
    renderAll (a ++ b) = renderAll a ++ renderAll b :=
  List.flatMap_append

@[simp] theorem renderAll_cons (s : Segment) (rest : List Segment) :
    renderAll (s :: rest) = s.render ++ renderAll rest :=
  List.flatMap_cons

private theorem StandsInProse.not_standsInBlock {segments : List Segment}
    {earlier line plain : Text}
    (hne : line ≠ []) (hplain : plain ≠ []) (hp : StandsInProse segments earlier line) :
    ¬StandsInBlock segments earlier plain := by
  rintro ⟨before', b, x', y', after', hsegments', hearlier', hrender⟩
  obtain ⟨before, x, y, after, hsegments, hearlier⟩ := hp
  have hlen := congrArg List.length (hearlier.symm.trans hearlier')
  have hlen' := congrArg List.length hrender
  have hpos := List.length_pos_iff.mpr hne
  have hpos' := List.length_pos_iff.mpr hplain
  simp only [List.length_append] at hlen hlen'
  -- Of two segments at different places the earlier one ends before the later one starts.
  rcases List.append_eq_append_iff.mp (hsegments.symm.trans hsegments') with
    ⟨between, hbefore, htail⟩ | ⟨between, hbefore, htail⟩
  · cases between with
    | nil => simp at htail
    | cons first rest =>
        rw [List.cons_append, List.cons.injEq] at htail
        have hb := congrArg (fun l => (renderAll l).length) hbefore
        simp only [renderAll_append, renderAll_cons, ← htail.1, render, List.length_append] at hb
        omega
  · cases between with
    | nil => simp at htail
    | cons first rest =>
        rw [List.cons_append, List.cons.injEq] at htail
        have hb := congrArg (fun l => (renderAll l).length) hbefore
        simp only [renderAll_append, renderAll_cons, ← htail.1, render, List.length_append] at hb
        omega

end Segment

namespace Piece

theorem Reading.of_cons {p : Piece} {ps : List Piece} (h : Reading (p :: ps)) : Reading ps := by
  cases h with
  | line _ _ _ _ tail => exact tail
  | fenced _ _ tail => exact tail

theorem Reading.of_append {ps qs : List Piece} (h : Reading (ps ++ qs)) : Reading qs := by
  induction ps with
  | nil => exact h
  | cons p ps ih => exact ih h.of_cons

private theorem segments_fenced (read : Text) (ps : List Piece) (b : FencedBlock) (feed : Text)
    (qs : List Piece) :
    ∃ before, segments read (ps ++ fenced b feed :: qs) = before ++ .block b :: segments feed qs ∧
      Segment.renderAll before = read ++ textOf ps := by
  induction ps generalizing read with
  | nil => exact ⟨Segment.ofProse read, rfl, by simp⟩
  | cons p ps ih =>
      cases p with
      | line t =>
          obtain ⟨before, hsegments, hrender⟩ := ih (read ++ t)
          exact ⟨before, hsegments, by rw [hrender]; simp [text]⟩
      | fenced b' feed' =>
          obtain ⟨before, hsegments, hrender⟩ := ih feed'
          refine ⟨Segment.ofProse read ++ .block b' :: before, ?_, ?_⟩
          · rw [List.cons_append, segments, hsegments]
            simp
          · simp [hrender, Segment.render, text]

private theorem segments_prose {read : Text} (hread : read ≠ []) (ps : List Piece) :
    ∃ y after, segments read ps = .prose (read ++ y) :: after := by
  induction ps generalizing read with
  | nil => exact ⟨[], [], by simp [segments, Segment.ofProse, hread]⟩
  | cons p ps ih =>
      cases p with
      | line t =>
          have hne : read ++ t ≠ [] := by simp [hread]
          obtain ⟨y, after, h⟩ := ih hne
          exact ⟨t ++ y, after, by rw [segments, h, List.append_assoc]⟩
      | fenced b feed =>
          exact ⟨[], .block b :: segments feed ps, by simp [segments, Segment.ofProse, hread]⟩

private theorem standsInProse_line (read : Text) (ps : List Piece) {t : Text} (ht : t ≠ [])
    (qs : List Piece) :
    Segment.StandsInProse (segments read (ps ++ line t :: qs)) (read ++ textOf ps) t := by
  induction ps generalizing read with
  | nil =>
      have hne : read ++ t ≠ [] := by simp [ht]
      obtain ⟨y, after, h⟩ := segments_prose hne qs
      exact ⟨[], read, y, after, h, by simp [Segment.renderAll]⟩
  | cons p ps ih =>
      cases p with
      | line u =>
          have h := ih (read ++ u)
          simpa [segments, text] using h
      | fenced b feed =>
          obtain ⟨before, x, y, after, h, hearlier⟩ := ih feed
          refine ⟨Segment.ofProse read ++ .block b :: before, x, y, after, ?_, ?_⟩
          · rw [List.cons_append, segments, h]
            simp
          · simp [← hearlier, Segment.render, text]

private theorem segments_block {read : Text} {ps : List Piece} {before after : List Segment}
    {b : FencedBlock} (h : segments read ps = before ++ .block b :: after) :
    ∃ (ps₁ : List Piece) (feed : Text) (ps₂ : List Piece), ps = ps₁ ++ fenced b feed :: ps₂ ∧
      Segment.renderAll before = read ++ textOf ps₁ ∧
      Segment.renderAll after = feed ++ textOf ps₂ := by
  induction ps generalizing read before with
  | nil =>
      have hmem : Segment.block b ∈ Segment.ofProse read := by
        rw [show Segment.ofProse read = _ from h]
        simp
      by_cases hread : read = [] <;> simp [Segment.ofProse, hread] at hmem
  | cons p ps ih =>
      cases p with
      | line t =>
          obtain ⟨ps₁, feed, ps₂, rfl, hbefore, hafter⟩ := ih h
          exact ⟨line t :: ps₁, feed, ps₂, rfl, by rw [hbefore]; simp [text], hafter⟩
      | fenced b' feed' =>
          have hprose : ∀ s ∈ Segment.ofProse read, s ≠ .block b := by
            intro s hs
            by_cases hread : read = [] <;> simp [Segment.ofProse, hread] at hs
            simp [hs]
          rcases List.append_eq_append_iff.mp h with
            ⟨between, hbefore, htail⟩ | ⟨between, hread, htail⟩
          · cases between with
            | nil =>
                rw [List.nil_append, List.cons.injEq, Segment.block.injEq] at htail
                obtain ⟨rfl, rfl⟩ := htail
                refine ⟨[], feed', ps, rfl, ?_, renderAll_segments feed' ps⟩
                rw [hbefore, List.append_nil, renderAll_ofProse, textOf_nil, List.append_nil]
            | cons first rest =>
                rw [List.cons_append, List.cons.injEq] at htail
                obtain ⟨rfl, htail⟩ := htail
                obtain ⟨ps₁, feed, ps₂, rfl, hrest, hafter⟩ := ih htail
                refine ⟨fenced b' feed' :: ps₁, feed, ps₂, rfl, ?_, hafter⟩
                rw [hbefore]
                simp [hrest, Segment.render, text]
          · cases between with
            | nil =>
                rw [List.nil_append, List.cons.injEq, Segment.block.injEq] at htail
                obtain ⟨rfl, rfl⟩ := htail
                refine ⟨[], feed', ps, rfl, ?_, renderAll_segments feed' ps⟩
                rw [List.append_nil] at hread
                rw [← hread, renderAll_ofProse, textOf_nil, List.append_nil]
            | cons first rest =>
                rw [List.cons_append, List.cons.injEq] at htail
                exact absurd htail.1.symm (hprose first (by rw [hread]; simp))

private theorem dropLineFeed_append (line : Text) :
    ∃ z, line = Text.dropLineFeed line ++ z := by
  by_cases h : line.getLast? = some '\n'
  · obtain ⟨p, rfl⟩ := List.getLast?_eq_some_iff.mp h
    exact ⟨['\n'], by rw [Text.dropLineFeed_line]⟩
  · exact ⟨[], by simp [Text.dropLineFeed, h]⟩

private theorem render_line {b : FencedBlock} {f : FenceLine} {feed : Text} {rest : List Text}
    (hb : b.OpenedBy f) (hfeed : Text.Ending feed rest) {earlier later : List Text} {line : Text}
    (h : (fenced b feed).lines = earlier ++ line :: later) :
    ∃ y, b.render = earlier.flatten ++ Text.dropLineFeed line ++ y := by
  have hrender : b.render ++ feed = earlier.flatten ++ (line ++ later.flatten) := by
    have hflat := congrArg List.flatten h
    simp only [lines, List.flatten_cons, List.flatten_append, Text.linesWithEnds_flatten,
      List.flatten_nil, List.append_nil] at hflat
    rw [← hflat, FencedBlock.render]
    simp
  obtain rfl | ⟨front, last, rfl⟩ := List.eq_nil_or_concat later
  · -- The closing line is the last one, and its line feed is not part of the block.
    have hlast := congrArg List.getLast? h
    rw [lines, ← List.cons_append, List.getLast?_concat, List.getLast?_concat,
      Option.some.injEq] at hlast
    refine ⟨[], ?_⟩
    rw [← hlast, Text.dropLineFeed_ending hb.closing_line hfeed]
    rw [← hlast, List.flatten_nil, List.append_nil, ← List.append_assoc] at hrender
    rw [List.append_cancel_right hrender, List.append_nil]
  · have hlast := congrArg List.getLast? h
    rw [lines, ← List.cons_append, List.getLast?_concat, List.concat_eq_append, ← List.cons_append,
      ← List.append_assoc, List.getLast?_concat, Option.some.injEq] at hlast
    obtain ⟨z, hz⟩ := dropLineFeed_append line
    refine ⟨z ++ (front.flatten ++ b.closing), ?_⟩
    have hcancel : b.render ++ feed =
        earlier.flatten ++ (line ++ (front.flatten ++ b.closing)) ++ feed := by
      rw [hrender, ← hlast]
      simp
    have hline : line ++ (front.flatten ++ b.closing) =
        Text.dropLineFeed line ++ (z ++ (front.flatten ++ b.closing)) := by
      rw [← List.append_assoc (Text.dropLineFeed line), ← hz]
    rw [List.append_cancel_right hcancel, hline, List.append_assoc]

private theorem append_eq_append_cons {front back before after : List Text} {t : Text}
    (h : front ++ back = before ++ t :: after) :
    (∃ between, before = front ++ between ∧ back = between ++ t :: after) ∨
      ∃ more, front = before ++ t :: more := by
  rcases List.append_eq_append_iff.mp h with ⟨between, hbefore, hback⟩ | ⟨between, hfront, hback⟩
  · exact Or.inl ⟨between, hbefore, hback⟩
  · cases between with
    | nil => exact Or.inl ⟨[], by simpa using hfront.symm, by simpa using hback.symm⟩
    | cons first more =>
        rw [List.cons_append, List.cons.injEq] at hback
        exact Or.inr ⟨more, by rw [hfront, hback.1]⟩

private theorem flatten_lines (p : Piece) : p.lines.flatten = p.text := by
  cases p with
  | line t => simp [lines, text]
  | fenced b feed => simp [lines, text, FencedBlock.render, Text.linesWithEnds_flatten]

private theorem flatten_linesOf (ps : List Piece) : (linesOf ps).flatten = textOf ps := by
  induction ps with
  | nil => rfl
  | cons p ps ih => rw [linesOf_cons, List.flatten_append, flatten_lines, ih, textOf_cons]

/-- Where a line comes in some pieces, after the text `earlier`: it is a line of prose, or it lies
in a block. -/
def LineAt (ps : List Piece) (earlier t : Text) (later : List Text) : Prop :=
  (∃ ps₁ ps₂, ps = ps₁ ++ line t :: ps₂ ∧ earlier = textOf ps₁ ∧ later = linesOf ps₂) ∨
    ∃ (ps₁ : List Piece) (b : FencedBlock) (feed : Text) (ps₂ : List Piece) (x y : Text),
      ps = ps₁ ++ fenced b feed :: ps₂ ∧ earlier = textOf ps₁ ++ x ∧
        b.render = x ++ Text.dropLineFeed t ++ y

private theorem LineAt.cons {ps : List Piece} {earlier t : Text} {later : List Text}
    (h : LineAt ps earlier t later) (p : Piece) : LineAt (p :: ps) (p.text ++ earlier) t later := by
  rcases h with ⟨ps₁, ps₂, rfl, rfl, hlater⟩ | ⟨ps₁, b, feed, ps₂, x, y, rfl, rfl, hrender⟩
  · exact Or.inl ⟨p :: ps₁, ps₂, rfl, by rw [textOf_cons], hlater⟩
  · exact Or.inr
      ⟨p :: ps₁, b, feed, ps₂, x, y, rfl, by rw [textOf_cons, List.append_assoc], hrender⟩

private theorem Reading.lineAt {ps : List Piece} (h : Reading ps) {earlier later : List Text}
    {t : Text}
    (hlines : linesOf ps = earlier ++ t :: later) : LineAt ps earlier.flatten t later := by
  induction h generalizing earlier with
  | nil => simp at hlines
  | @line p feed rest plain ending nonempty prose tail ih =>
      rcases append_eq_append_cons hlines with ⟨between, hearlier, hrest⟩ | ⟨more, hline⟩
      · rw [hearlier, List.flatten_append, flatten_lines]
        exact (ih hrest).cons _
      · cases earlier with
        | nil =>
            simp only [linesOf_cons, lines, List.singleton_append, List.nil_append,
              List.cons.injEq] at hlines
            obtain ⟨rfl, rfl⟩ := hlines
            exact Or.inl ⟨[], rest, rfl, rfl, rfl⟩
        | cons first earlier => simp [lines] at hline
  | @fenced b f feed rest opened ending tail ih =>
      rcases append_eq_append_cons hlines with ⟨between, hearlier, hrest⟩ | ⟨more, hblock⟩
      · rw [hearlier, List.flatten_append, flatten_lines]
        exact (ih hrest).cons _
      · obtain ⟨y, hrender⟩ := render_line opened ending hblock
        exact Or.inr ⟨[], b, feed, rest, earlier.flatten, y, rfl, rfl, hrender⟩

end Piece

namespace Segment

theorem renderAll_ofText (t : Text) : renderAll (ofText t) = t := by
  obtain ⟨ps, hps, rfl⟩ := Piece.exists_reading t
  rw [hps.ofText_textOf, Piece.renderAll_segments, List.nil_append]

/-- A block among the segments of a text takes whole lines of it: an opening line, lines that do not
close the block, and a line that does. -/
theorem ofText_block {t : Text} {before after : List Segment} {b : FencedBlock}
    (h : ofText t = before ++ .block b :: after) :
    ∃ (f : FenceLine) (feed : Text) (earlier later : List Text), b.OpenedBy f ∧
      Text.linesWithEnds t = earlier ++ (b.opening ++ ['\n']) ::
        (Text.linesWithEnds b.body ++ (b.closing ++ feed) :: later) ∧
      Text.Ending feed later ∧ earlier.flatten = renderAll before ∧
      feed ++ later.flatten = renderAll after := by
  obtain ⟨ps, hps, rfl⟩ := Piece.exists_reading t
  rw [hps.ofText_textOf] at h
  obtain ⟨ps₁, feed, ps₂, rfl, hbefore, hafter⟩ := Piece.segments_block h
  cases hps.of_append with
  | @fenced _ f _ _ opened ending tail =>
      refine ⟨f, feed, Piece.linesOf ps₁, Piece.linesOf ps₂, opened, ?_, ending, ?_, ?_⟩
      · rw [hps.linesWithEnds_textOf]
        simp [Piece.linesOf, Piece.lines]
      · rw [hbefore, Piece.flatten_linesOf, List.nil_append]
      · rw [hafter, Piece.flatten_linesOf]

private theorem standsInProse_or_standsInBlock {t line : Text} {earlier later : List Text}
    (hlines : Text.linesWithEnds t = earlier ++ line :: later) :
    StandsInProse (ofText t) earlier.flatten line ∨
      StandsInBlock (ofText t) earlier.flatten (Text.dropLineFeed line) := by
  obtain ⟨-, -, -, -, -, -, -, hne, -⟩ := Text.linesWithEnds_split hlines
  obtain ⟨ps, hps, rfl⟩ := Piece.exists_reading t
  rw [hps.linesWithEnds_textOf] at hlines
  rw [hps.ofText_textOf]
  rcases hps.lineAt hlines with ⟨ps₁, ps₂, rfl, hearlier, -⟩ |
    ⟨ps₁, b, feed, ps₂, x, y, rfl, hearlier, hrender⟩
  · left
    rw [hearlier]
    exact Piece.standsInProse_line [] ps₁ hne ps₂
  · right
    obtain ⟨before, hsegments, hbefore⟩ := Piece.segments_fenced [] ps₁ b feed ps₂
    exact ⟨before, b, x, y, _, hsegments, by rw [hearlier, hbefore, List.nil_append], hrender⟩

/-- A line left in prose has no line after it that closes the block it could open. -/
theorem closedBy_of_standsInProse {t line : Text} {earlier later : List Text}
    (hlines : Text.linesWithEnds t = earlier ++ line :: later)
    (hprose : StandsInProse (ofText t) earlier.flatten line) {f : FenceLine}
    (hf : FenceLine.ofLine? (Text.dropLineFeed line) = some f) (hcan : f.canOpen = true) :
    ∀ l ∈ later, f.closedBy (Text.dropLineFeed l) = false := by
  obtain ⟨-, -, -, -, -, -, -, hne, -⟩ := Text.linesWithEnds_split hlines
  obtain ⟨ps, hps, rfl⟩ := Piece.exists_reading t
  rw [hps.linesWithEnds_textOf] at hlines
  rw [hps.ofText_textOf] at hprose
  rcases hps.lineAt hlines with ⟨ps₁, ps₂, rfl, -, rfl⟩ |
    ⟨ps₁, b, feed, ps₂, x, y, rfl, hearlier, hrender⟩
  · generalize hp : Piece.line line :: ps₂ = qs at hps
    cases hps.of_append with
    | nil => simp at hp
    | fenced => simp at hp
    | line plain ending nonempty prose tail =>
        rw [List.cons.injEq, Piece.line.injEq] at hp
        obtain ⟨rfl, rfl⟩ := hp
        exact opens?_eq_none_iff.mp prose f hf hcan
  · -- A line of a block does not stand in prose.
    have hplain : Text.dropLineFeed line ≠ [] := by
      intro hnil
      rw [hnil] at hf
      simp [FenceLine.ofLine?] at hf
    obtain ⟨before, hsegments, hbefore⟩ := Piece.segments_fenced [] ps₁ b feed ps₂
    exact absurd ⟨before, b, x, y, _, hsegments, by rw [hearlier, hbefore, List.nil_append],
      hrender⟩ (hprose.not_standsInBlock hne hplain)

/-- Reading is lossless and exact. The segments of a text render to it. Every block among them takes
whole lines: it opens on a fence, in the case of backticks with no backtick after it, the first
later line that closes this fence closes the block, and no line of its body does. Every line stands
in prose or in a block, and one that is left in prose and could open a block has no line that closes
it anywhere later. -/
theorem ofText_lossless_exact (t : Text) :
    renderAll (ofText t) = t ∧
    (∀ before b after, ofText t = before ++ .block b :: after →
      ∃ (f : FenceLine) (feed : Text) (earlier later : List Text),
        Text.linesWithEnds t = earlier ++ (b.opening ++ ['\n']) ::
          (Text.linesWithEnds b.body ++ (b.closing ++ feed) :: later) ∧
        earlier.flatten = renderAll before ∧ feed ++ later.flatten = renderAll after ∧
        Text.dropLineFeed (b.closing ++ feed) = b.closing ∧
        FenceLine.ofLine? b.opening = some f ∧ (f.marker = '\x60' → '\x60' ∉ f.rest) ∧
        b.fence = f.characters ∧ b.info = Text.trim f.rest ∧
        (∀ line ∈ Text.linesWithEnds b.body, f.closedBy (Text.dropLineFeed line) = false) ∧
        f.closedBy b.closing = true) ∧
    (∀ earlier line later, Text.linesWithEnds t = earlier ++ line :: later →
      (StandsInProse (ofText t) earlier.flatten line ∨
        StandsInBlock (ofText t) earlier.flatten (Text.dropLineFeed line)) ∧
      (StandsInProse (ofText t) earlier.flatten line →
        ∀ f, FenceLine.ofLine? (Text.dropLineFeed line) = some f →
          (f.marker = '\x60' → '\x60' ∉ f.rest) →
          ∀ l ∈ later, f.closedBy (Text.dropLineFeed l) = false)) := by
  refine ⟨renderAll_ofText t, ?_, ?_⟩
  · intro before b after h
    obtain ⟨f, feed, earlier, later, hb, hlines, hfeed, hbefore, hafter⟩ := ofText_block h
    exact ⟨f, feed, earlier, later, hlines, hbefore, hafter,
      Text.dropLineFeed_ending hb.closing_line hfeed, hb.opens,
      FenceLine.canOpen_iff.mp hb.canOpen, hb.fence, hb.info, hb.inside, hb.closes⟩
  · intro earlier line later hlines
    refine ⟨standsInProse_or_standsInBlock hlines, ?_⟩
    intro hprose f hf hopen
    exact closedBy_of_standsInProse hlines hprose hf (FenceLine.canOpen_iff.mpr hopen)

end Segment

end CodeAtlas
