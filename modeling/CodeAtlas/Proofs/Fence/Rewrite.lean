import CodeAtlas.Fence.Shrink
import CodeAtlas.Proofs.Fence.Segment
import Mathlib.Data.List.Forall2

/-!
# Rewritten texts

Some blocks of a text get another info and body between the same fences, and some are replaced by a
mark. The text that results reads back as the segments that were written, provided that no new info
lengthens its fence and no line of a new body is a fence.
-/

namespace CodeAtlas

/-- An info and a body that may stand between the fences of a block: they leave its fence, its first
line and its last line what they were. -/
structure FenceLine.Holds (f : FenceLine) (info body : Text) : Prop where
  trimmed : Text.trim info = info
  nonempty : info ≠ []
  one_line : '\n' ∉ info
  marker : info.head? ≠ some f.marker
  backtick : f.marker = '\x60' → '\x60' ∉ info
  body_lines : Text.EndsLine body
  body_plain : ∀ line ∈ Text.linesWithEnds body, FenceLine.ofLine? (Text.dropLineFeed line) = none

theorem FenceLine.Holds.not_blank {f : FenceLine} {info body : Text} (h : f.Holds info body) :
    Text.isBlank info = false := by
  cases hb : Text.isBlank info with
  | false => rfl
  | true =>
      exact absurd (h.trimmed.symm.trans (Text.trim_of_isBlank hb)) h.nonempty

private theorem FenceLine.Holds.of_characters {f g : FenceLine} {info body line : Text}
    (h : f.Holds info body) (hsame : g.characters = f.characters)
    (hg : FenceLine.ofLine? line = some g) : g.Holds info body := by
  have hmem : g.marker ∈ g.characters := by
    have := (FenceLine.of_ofLine? hg).1.count
    simp only [FenceLine.characters, List.mem_replicate, and_true]
    omega
  have hmarker : g.marker = f.marker := by
    rw [hsame, FenceLine.characters, List.mem_replicate] at hmem
    exact hmem.2
  refine ⟨h.trimmed, h.nonempty, h.one_line, ?_, ?_, h.body_lines, h.body_plain⟩
  · rw [hmarker]
    exact h.marker
  · rw [hmarker]
    exact h.backtick

theorem FenceLine.lineFeed_notMem_characters {f : FenceLine} (hf : f.WellFormed) :
    '\n' ∉ f.characters := by
  intro h
  rw [FenceLine.characters, List.mem_replicate] at h
  rcases hf.marker with hm | hm <;> rw [hm] at h <;> exact absurd h.2 (by decide)

theorem FencedBlock.OpenedBy.refill {b : FencedBlock} {f : FenceLine} (h : b.OpenedBy f)
    {info body : Text} (hi : f.Holds info body) :
    (b.refill info body).OpenedBy ⟨f.marker, f.count, info⟩ := by
  have hf := (FenceLine.of_ofLine? h.opens).1
  have hopening : FenceLine.WellFormed ⟨f.marker, f.count, info⟩ := ⟨hf.marker, hf.count, hi.marker⟩
  have hfeed := FenceLine.lineFeed_notMem_characters hf
  refine ⟨?_, ?_, h.fence, hi.trimmed.symm, ?_, ?_, hi.body_lines, ?_, ?_⟩
  · rw [FencedBlock.refill, h.fence]
    exact FenceLine.ofLine?_characters hopening
  · exact FenceLine.canOpen_iff.mpr hi.backtick
  · rw [FencedBlock.refill, h.fence, List.mem_append]
    exact fun hmem => hmem.elim hfeed hi.one_line
  · rw [FencedBlock.refill, h.fence]
    exact hfeed
  · intro line hline
    exact FenceLine.closedBy_eq_false_of_ofLine? (hi.body_plain line hline) _
  · rw [FencedBlock.refill, h.fence]
    exact (FenceLine.closedBy_characters hf).mpr ⟨rfl, Nat.le_refl _⟩

namespace Piece

/-- What may become of a piece: it stays, its block is filled anew, or a mark takes the place of its
block. -/
inductive Rewritten : Piece → Piece → Prop
  | same (p : Piece) : Rewritten p p
  | refilled {b : FencedBlock} {f : FenceLine} {feed info body : Text} (opened : b.OpenedBy f)
      (holds : f.Holds info body) : Rewritten (fenced b feed) (fenced (b.refill info body) feed)
  | omitted (b : FencedBlock) (feed : Text) :
      Rewritten (fenced b feed) (line (repeatMark ++ feed))

private theorem ofLine?_repeatMark : FenceLine.ofLine? repeatMark = none := by decide

private theorem Rewritten.closedBy {p q : Piece} {rest : List Piece} (h : Rewritten p q)
    (hp : Reading (p :: rest)) {g : FenceLine} {l : Text} (hl : l ∈ q.lines)
    (hg : g.closedBy (Text.dropLineFeed l) = true) :
    ∃ l ∈ p.lines, g.closedBy (Text.dropLineFeed l) = true := by
  cases h with
  | same => exact ⟨l, hl, hg⟩
  | @refilled b f feed info body opened holds =>
      cases hp with
      | fenced _ ending _ =>
          have hnew := opened.refill holds
          simp only [lines, List.mem_cons, List.mem_append, List.not_mem_nil, or_false] at hl
          rcases hl with rfl | hl | rfl
          · -- The opening line says more after its fence, so it closes nothing.
            rw [Text.dropLineFeed_line, FenceLine.closedBy_iff, hnew.opens] at hg
            obtain ⟨k, hk, -, -, hblank⟩ := hg
            rw [← Option.some.inj hk, holds.not_blank] at hblank
            exact absurd hblank (by simp)
          · rw [FenceLine.closedBy_eq_false_of_ofLine? (holds.body_plain l hl)] at hg
            exact absurd hg (by simp)
          · -- What the new closing line closes, the old one closes as well.
            refine ⟨b.closing ++ feed, by simp [lines], ?_⟩
            rw [Text.dropLineFeed_ending hnew.closing_line ending, FencedBlock.refill, opened.fence,
              FenceLine.closedBy_characters (FenceLine.of_ofLine? opened.opens).1] at hg
            rw [Text.dropLineFeed_ending opened.closing_line ending]
            exact FenceLine.closedBy_of_le hg.1 hg.2 opened.closes
  | omitted b feed =>
      cases hp with
      | fenced _ ending _ =>
          rw [lines, List.mem_singleton] at hl
          rw [hl, Text.dropLineFeed_ending (by decide) ending,
            FenceLine.closedBy_eq_false_of_ofLine? ofLine?_repeatMark] at hg
          exact absurd hg (by simp)

private theorem linesOf_eq_nil {ps : List Piece} : linesOf ps = [] ↔ ps = [] := by
  cases ps with
  | nil => simp
  | cons p ps => cases p <;> simp [lines]

private theorem ending_rewritten {ps qs : List Piece} (h : List.Forall₂ Rewritten ps qs)
    {feed : Text} (he : Text.Ending feed (linesOf ps)) : Text.Ending feed (linesOf qs) := by
  rcases he with hfeed | ⟨hfeed, hps⟩
  · exact Or.inl hfeed
  · rw [linesOf_eq_nil] at hps
    subst hps
    rw [List.forall₂_nil_left_iff.mp h]
    exact Or.inr ⟨hfeed, rfl⟩

/-- Rewriting pieces of a reading gives a reading, with no line that closes a block which no line
closed before. -/
theorem Reading.rewritten {ps qs : List Piece} (h : Reading ps)
    (hr : List.Forall₂ Rewritten ps qs) :
    Reading qs ∧ ∀ g : FenceLine, (∃ l ∈ linesOf qs, g.closedBy (Text.dropLineFeed l) = true) →
      ∃ l ∈ linesOf ps, g.closedBy (Text.dropLineFeed l) = true := by
  induction hr with
  | nil => exact ⟨.nil, by simp⟩
  | @cons p q ps qs hpq hrest ih =>
      obtain ⟨hqs, hclosed⟩ := ih h.of_cons
      refine ⟨?_, ?_⟩
      · cases hpq with
        | same =>
            cases h with
            | line plain ending nonempty prose tail =>
                refine .line plain (ending_rewritten hrest ending) nonempty ?_ hqs
                rw [Segment.opens?_eq_none_iff] at prose ⊢
                intro f hf hcan l hl
                cases hc : f.closedBy (Text.dropLineFeed l) with
                | false => rfl
                | true =>
                    obtain ⟨l', hl', hc'⟩ := hclosed f ⟨l, hl, hc⟩
                    rw [prose f hf hcan l' hl'] at hc'
                    exact absurd hc' (by simp)
            | fenced opened ending tail =>
                exact .fenced opened (ending_rewritten hrest ending) hqs
        | refilled opened holds =>
            cases h with
            | fenced _ ending _ =>
                exact .fenced (opened.refill holds) (ending_rewritten hrest ending) hqs
        | omitted b feed =>
            cases h with
            | fenced _ ending _ =>
                have hend := ending_rewritten hrest ending
                refine .line (by decide) hend (by simp [repeatMark]) ?_ hqs
                rw [Segment.opens?_eq_none_iff, Text.dropLineFeed_ending (by decide) hend,
                  ofLine?_repeatMark]
                simp
      · rintro g ⟨l, hl, hg⟩
        rw [linesOf_cons, List.mem_append] at hl
        rcases hl with hl | hl
        · obtain ⟨l', hl', hg'⟩ := hpq.closedBy h hl hg
          exact ⟨l', by rw [linesOf_cons]; exact List.mem_append_left _ hl', hg'⟩
        · obtain ⟨l', hl', hg'⟩ := hclosed g ⟨l, hl, hg⟩
          exact ⟨l', by rw [linesOf_cons]; exact List.mem_append_right _ hl', hg'⟩

end Piece

namespace Segment

def blocks (segments : List Segment) : List FencedBlock :=
  segments.filterMap fun
    | .block b => some b
    | .prose _ => none

@[simp] theorem blocks_nil : blocks [] = [] := rfl

@[simp] theorem blocks_block (b : FencedBlock) (rest : List Segment) :
    blocks (.block b :: rest) = b :: blocks rest :=
  rfl

@[simp] theorem blocks_prose (t : Text) (rest : List Segment) :
    blocks (.prose t :: rest) = blocks rest :=
  rfl

theorem mem_blocks {segments : List Segment} {b : FencedBlock} :
    b ∈ blocks segments ↔ .block b ∈ segments := by
  induction segments with
  | nil => simp
  | cons s rest ih => cases s <;> simp [ih]

theorem exists_openedBy_of_mem_blocks {t : Text} {b : FencedBlock} (h : b ∈ blocks (ofText t)) :
    ∃ f, b.OpenedBy f := by
  obtain ⟨before, after, hsplit⟩ := List.append_of_mem (mem_blocks.mp h)
  obtain ⟨f, -, -, -, hb, -⟩ := ofText_block hsplit
  exact ⟨f, hb⟩

/-- What may become of a segment of a text when blocks are filled anew or replaced by a mark. -/
inductive Rewritten : Segment → Segment → Prop
  | same (s : Segment) : Rewritten s s
  | refilled {b : FencedBlock} {f : FenceLine} {info body : Text} (fence : b.fence = f.characters)
      (holds : f.Holds info body) : Rewritten (.block b) (.block (b.refill info body))
  | omitted (b : FencedBlock) : Rewritten (.block b) (.prose repeatMark)

/-- Put prose in front of segments, as one piece with the prose they start with. -/
def joinProse (t : Text) : List Segment → List Segment
  | .prose u :: rest => .prose (t ++ u) :: rest
  | segments => .prose t :: segments

/-- Segments with neighbouring pieces of prose joined. -/
def join : List Segment → List Segment
  | [] => []
  | .prose t :: rest => joinProse t (join rest)
  | .block b :: rest => .block b :: join rest

private theorem eq_ofProse {read : Text} {segments : List Segment}
    (h : List.Forall₂ Rewritten (ofProse read) segments) : segments = ofProse read := by
  by_cases hread : read = []
  · simpa [ofProse, hread] using h
  · rw [ofProse, if_neg hread] at h ⊢
    obtain ⟨s, rest, hs, hrest, rfl⟩ := List.forall₂_cons_left_iff.mp h
    cases hs
    rw [List.forall₂_nil_left_iff.mp hrest]

private theorem forall₂_append {a b c : List Segment} (h : List.Forall₂ Rewritten (a ++ b) c) :
    ∃ a' b', c = a' ++ b' ∧ List.Forall₂ Rewritten a a' ∧ List.Forall₂ Rewritten b b' := by
  induction a generalizing c with
  | nil => exact ⟨[], c, rfl, .nil, h⟩
  | cons s a ih =>
      obtain ⟨s', c', hs, hrest, rfl⟩ := List.forall₂_cons_left_iff.mp h
      obtain ⟨a', b', rfl, ha, hb⟩ := ih hrest
      exact ⟨s' :: a', b', rfl, .cons hs ha, hb⟩

private theorem joinProse_segments {t : Text} (ht : t ≠ []) (read : Text) (ps : List Piece) :
    joinProse t (Piece.segments read ps) = Piece.segments (t ++ read) ps := by
  induction ps generalizing read with
  | nil => by_cases hread : read = [] <;> simp [Piece.segments, ofProse, joinProse, ht, hread]
  | cons p ps ih =>
      cases p with
      | line u => rw [Piece.segments, ih, Piece.segments, List.append_assoc]
      | fenced b feed =>
          by_cases hread : read = [] <;> simp [Piece.segments, ofProse, joinProse, ht, hread]

private theorem join_ofProse_block (read : Text) (b : FencedBlock) (rest : List Segment) :
    join (ofProse read ++ .block b :: rest) = ofProse read ++ .block b :: join rest := by
  by_cases hread : read = [] <;> simp [ofProse, join, joinProse, hread]

private theorem join_ofProse_prose (read : Text) {t : Text} (ht : t ≠ []) {rest : List Segment}
    {feed : Text} {ps : List Piece} (hrest : join rest = Piece.segments feed ps) :
    join (ofProse read ++ .prose t :: rest) = Piece.segments (read ++ (t ++ feed)) ps := by
  have hfront : join (.prose t :: rest) = Piece.segments (t ++ feed) ps := by
    rw [join, hrest, joinProse_segments ht]
  by_cases hread : read = []
  · simp [ofProse, hread, hfront]
  · rw [ofProse, if_neg hread, List.singleton_append, join, hfront, joinProse_segments hread]

/-- Rewriting segments of a reading rewrites the pieces they come from, and what is written are the
segments of the new pieces up to the joints of their prose. -/
theorem exists_rewritten_pieces {read : Text} {ps : List Piece} {segments : List Segment}
    (hps : Piece.Reading ps) (h : List.Forall₂ Rewritten (Piece.segments read ps) segments) :
    ∃ qs, List.Forall₂ Piece.Rewritten ps qs ∧ join segments = Piece.segments read qs := by
  induction hps generalizing read segments with
  | nil =>
      rw [eq_ofProse h]
      refine ⟨[], .nil, ?_⟩
      by_cases hread : read = [] <;> simp [ofProse, join, joinProse, Piece.segments, hread]
  | @line p feed ps _ _ _ _ _ ih =>
      obtain ⟨qs, hqs, hjoin⟩ := ih h
      exact ⟨.line (p ++ feed) :: qs, .cons (.same _) hqs, hjoin⟩
  | @fenced b f feed ps opened _ _ ih =>
      obtain ⟨front, tail, rfl, hfront, htail⟩ := forall₂_append h
      obtain ⟨s, rest, hs, hrest, rfl⟩ := List.forall₂_cons_left_iff.mp htail
      obtain ⟨qs, hqs, hjoin⟩ := ih hrest
      rw [eq_ofProse hfront]
      cases hs with
      | same =>
          refine ⟨.fenced b feed :: qs, .cons (.same _) hqs, ?_⟩
          rw [join_ofProse_block, hjoin, Piece.segments]
      | @refilled _ _ info body fence holds =>
          refine ⟨.fenced (b.refill info body) feed :: qs,
            .cons (.refilled opened (holds.of_characters ?_ opened.opens)) hqs, ?_⟩
          · rw [← fence, opened.fence]
          · rw [join_ofProse_block, hjoin, Piece.segments]
      | omitted =>
          refine ⟨.line (repeatMark ++ feed) :: qs, .cons (.omitted _ _) hqs, ?_⟩
          rw [join_ofProse_prose read (by decide) hjoin, Piece.segments]

private theorem renderAll_join (segments : List Segment) :
    renderAll (join segments) = renderAll segments := by
  induction segments with
  | nil => rfl
  | cons s rest ih =>
      cases s with
      | block b => rw [join, renderAll_cons, ih, renderAll_cons]
      | prose t =>
          rw [join, renderAll_cons, ← ih]
          cases hjoin : join rest with
          | nil => rfl
          | cons u more => cases u <;> simp [joinProse, render]

private theorem blocks_join (segments : List Segment) :
    blocks (join segments) = blocks segments := by
  induction segments with
  | nil => rfl
  | cons s rest ih =>
      cases s with
      | block b => rw [join, blocks_block, ih, blocks_block]
      | prose t =>
          rw [join, blocks_prose, ← ih]
          cases hjoin : join rest with
          | nil => rfl
          | cons u more => cases u <;> simp [joinProse]

private theorem exists_reading_of_rewritten {t : Text} {segments : List Segment}
    (h : List.Forall₂ Rewritten (ofText t) segments) :
    ∃ qs, Piece.Reading qs ∧ join segments = Piece.segments [] qs := by
  obtain ⟨ps, hps, rfl⟩ := Piece.exists_reading t
  rw [hps.ofText_textOf] at h
  obtain ⟨qs, hqs, hjoin⟩ := exists_rewritten_pieces hps h
  exact ⟨qs, (hps.rewritten hqs).1, hjoin⟩

private theorem ofText_renderAll_of_reading {segments : List Segment} {qs : List Piece}
    (hqs : Piece.Reading qs) (h : join segments = Piece.segments [] qs) :
    ofText (renderAll segments) = join segments := by
  rw [← renderAll_join, h, Piece.renderAll_segments, List.nil_append, hqs.ofText_textOf]

/-- A rewritten text reads back as the blocks that were written. -/
theorem blocks_ofText_renderAll {t : Text} {segments : List Segment}
    (h : List.Forall₂ Rewritten (ofText t) segments) :
    blocks (ofText (renderAll segments)) = blocks segments := by
  obtain ⟨qs, hqs, hjoin⟩ := exists_reading_of_rewritten h
  rw [ofText_renderAll_of_reading hqs hjoin, blocks_join]

/-- A rewritten text keeps its structure: it reads back as the segments that were written, with
neighbouring pieces of prose joined. -/
theorem ofText_renderAll_rewritten (t : Text) (segments : List Segment)
    (h : List.Forall₂ Rewritten (ofText t) segments) :
    ofText (renderAll segments) = join segments := by
  obtain ⟨qs, hqs, hjoin⟩ := exists_reading_of_rewritten h
  exact ofText_renderAll_of_reading hqs hjoin

end Segment

/-!
## A fence that stays open

The first line is a fence of five tildes that nothing closes. The block of tildes after it has a
closing line of four, and the block of backticks ends with the text.
-/

namespace OpenFence

def text : Text := "~~~~~\n~~~ a\nx\n~~~~\nmid\n```\ny\n```".toList

def tildes : FencedBlock :=
  ⟨"~~~ a".toList, "~~~".toList, "a".toList, "x\n".toList, "~~~~".toList⟩

def backticks : FencedBlock := ⟨"```".toList, "```".toList, [], "y\n".toList, "```".toList⟩

/-- The first block filled anew, and the mark in place of the second one. -/
def written : List Segment :=
  [.prose "~~~~~\n".toList, .block (tildes.refill "b `c`".toList "z\n".toList),
    .prose "\nmid\n".toList, .prose repeatMark]

end OpenFence

open OpenFence in
theorem Segment.ofText_renderAll_rewritten_openFence :
    List.Forall₂ Segment.Rewritten (Segment.ofText text) written ∧
      Segment.ofText (Segment.renderAll written) =
        [.prose "~~~~~\n".toList, .block (tildes.refill "b `c`".toList "z\n".toList),
          .prose "\nmid\n[...]".toList] := by
  have hread : Segment.ofText text = [.prose "~~~~~\n".toList, .block tildes,
      .prose "\nmid\n".toList, .block backticks] := by decide
  have hholds : FenceLine.Holds ⟨'~', 3, []⟩ "b `c`".toList "z\n".toList :=
    ⟨by decide, by decide, by decide, by decide, by decide, Or.inr (by decide), by decide⟩
  have hwritten : List.Forall₂ Segment.Rewritten (Segment.ofText text) written := by
    rw [hread]
    exact .cons (.same _) (.cons (.refilled rfl hholds) (.cons (.same _) (.cons (.omitted _) .nil)))
  exact ⟨hwritten, ofText_renderAll_rewritten text written hwritten⟩

end CodeAtlas
