import CodeAtlas.Proofs.Fence.Condense

/-!
# Symbols twice

Replacing code by its symbols changes the first line of every block it replaces, so a text is left
alone exactly if none of its blocks has symbols. What is written is of this kind as long as it reads
back as the blocks that were written.
-/

namespace CodeAtlas

namespace FencedBlock

variable {grammars : Grammars} {b c : FencedBlock} {f : FenceLine}

private theorem length_le_headWord {t : Text} (h : ∀ c ∈ t, Text.blankChar c = false) :
    t.length ≤ ((Text.words (Text.trim t)).headD []).length := by
  have htrim : Text.trim t = t := Text.trim_eq_self
    (fun c hc => h c (List.mem_of_mem_head? hc)) (fun c hc => h c (List.mem_of_getLast? hc))
  rw [htrim]
  by_cases ht : t = []
  · rw [ht]
    exact Nat.zero_le _
  · have hword := Text.headWord_append ht h [] (by simp)
    rw [List.append_nil] at hword
    exact Nat.le_of_eq (congrArg List.length hword).symm

/-- A block of symbols does not open like the block it was made from: its tag is longer. -/
theorem OpenedBy.opening_ne (hb : b.OpenedBy f) (h : b.toSymbols? grammars = some c) :
    c.opening ≠ b.opening := by
  obtain ⟨listing, rfl⟩ := toSymbols?_eq_some h
  obtain ⟨hf, indent, hindent, hopening⟩ := FenceLine.of_ofLine? hb.opens
  intro heq
  have hsame : f.characters ++ (b.tag ++ symbolsEnding) = indent ++ (f.characters ++ f.rest) := by
    rw [← hopening, ← heq, ← hb.fence, FencedBlock.refill]
  -- The new line has no blanks, so the rest of the old one is a single word, which is its tag.
  have hblank : ∀ x ∈ f.rest, Text.blankChar x = false := by
    intro x hx
    have hmem : x ∈ f.characters ++ (b.tag ++ symbolsEnding) := by
      rw [hsame]
      simp [hx]
    simp only [List.mem_append] at hmem
    rcases hmem with hmem | hmem | hmem
    · rw [FenceLine.characters, List.mem_replicate] at hmem
      rw [hmem.2]
      rcases hf.marker with hm | hm <;> rw [hm] <;> decide
    · exact (Text.mem_headWord hmem).1
    · exact follows_symbols.not_blank hmem
  have hrest : f.rest.length ≤ b.tag.length := by
    rw [tag, hb.info]
    exact length_le_headWord hblank
  have hlength := congrArg List.length hsame
  have hending : symbolsEnding.length = 8 := by decide
  simp only [List.length_append] at hlength
  omega

private theorem lineFeed_notMem_opening (hb : b.OpenedBy f) (h : b.Refilled c) :
    '\n' ∉ c.opening := by
  cases h with
  | intro takes _ _ =>
      rw [refill, hb.fence, List.mem_append]
      have hfence := FenceLine.lineFeed_notMem_characters (FenceLine.of_ofLine? hb.opens).1
      exact fun hmem => hmem.elim hfence takes.one_line

end FencedBlock

namespace Segment

variable {grammars : Grammars}

private theorem forall₂_condensed_symbolize (segments : List Segment) :
    List.Forall₂ Condensed segments (segments.map (symbolize grammars)) := by
  rw [List.forall₂_map_right_iff, List.forall₂_same]
  intro s _
  cases s with
  | prose t => exact .same _
  | block b =>
      rw [symbolize]
      cases hb : b.toSymbols? grammars with
      | none => exact .same _
      | some c => exact .refilled (FencedBlock.refilled_of_toSymbols? hb)

private theorem map_symbolize_of_settled {segments : List Segment}
    (h : ∀ b ∈ blocks segments, b.toSymbols? grammars = none) :
    segments.map (symbolize grammars) = segments := by
  refine (List.map_congr_left fun s hs => ?_).trans (List.map_id segments)
  cases s with
  | prose t => rfl
  | block b => rw [symbolize, h b (mem_blocks.mpr hs), Option.getD_none, id]

private theorem settled_of_renderAll {segments : List Segment}
    (hopened : ∀ b ∈ blocks segments, ∃ f, b.OpenedBy f)
    (h : renderAll (segments.map (symbolize grammars)) = renderAll segments) :
    ∀ b ∈ blocks segments, b.toSymbols? grammars = none := by
  induction segments with
  | nil => simp
  | cons s rest ih =>
      rw [List.map_cons, renderAll_cons, renderAll_cons] at h
      cases s with
      | prose t => exact ih hopened (List.append_cancel_left h)
      | block b =>
          rw [blocks_block, List.forall_mem_cons] at hopened ⊢
          obtain ⟨⟨f, hf⟩, hrest⟩ := hopened
          cases hb : b.toSymbols? grammars with
          | none =>
              rw [symbolize, hb, Option.getD_none] at h
              exact ⟨rfl, ih hrest (List.append_cancel_left h)⟩
          | some c =>
              rw [symbolize, hb, Option.getD_some] at h
              simp only [render, FencedBlock.render, List.append_assoc, List.cons_append] at h
              exact absurd (Text.eq_of_append_lineFeed
                (FencedBlock.lineFeed_notMem_opening hf (FencedBlock.refilled_of_toSymbols? hb))
                hf.opening_line h) (hf.opening_ne hb)

private theorem settled_map_symbolize (segments : List Segment) :
    ∀ c ∈ blocks (segments.map (symbolize grammars)), c.toSymbols? grammars = none := by
  intro c hc
  obtain ⟨s, hs, hsc⟩ := List.mem_map.mp (mem_blocks.mp hc)
  cases s with
  | prose t => simp [symbolize] at hsc
  | block b =>
      rw [symbolize, Segment.block.injEq] at hsc
      cases hb : b.toSymbols? grammars with
      | none =>
          rw [hb, Option.getD_none] at hsc
          rw [← hsc]
          exact hb
      | some d =>
          rw [hb, Option.getD_some] at hsc
          rw [← hsc]
          exact FencedBlock.toSymbols?_of_isCode (FencedBlock.refilled_of_toSymbols? hb).isCode

end Segment

section Twice

variable (grammars : Grammars)

/-- The texts that are left alone. -/
theorem symbolize_eq_self_iff (text : Text) :
    symbolize grammars text = text ↔
      ∀ b ∈ Segment.blocks (Segment.ofText text), b.toSymbols? grammars = none := by
  rw [symbolize]
  constructor
  · intro h
    apply Segment.settled_of_renderAll fun _ => Segment.exists_openedBy_of_mem_blocks
    rw [h, Segment.renderAll_ofText]
  · intro h
    rw [Segment.map_symbolize_of_settled h, Segment.renderAll_ofText]

/-- Replacing code by symbols a second time changes nothing exactly if what was written has no block
with symbols. That is so whenever it reads back as the blocks that were written, and it does so if
every block of symbols is plain. -/
theorem symbolize_symbolize_eq_iff (text : Text) :
    let once := symbolize grammars text
    let left := (Segment.ofText text).map (Segment.symbolize grammars)
    (symbolize grammars once = once ↔
        ∀ b ∈ Segment.blocks (Segment.ofText once), b.toSymbols? grammars = none) ∧
      (Segment.blocks (Segment.ofText once) = Segment.blocks left →
        symbolize grammars once = once) ∧
      ((∀ b ∈ Segment.blocks (Segment.ofText text), ∀ c,
          b.toSymbols? grammars = some c → c.Plain) →
        Segment.blocks (Segment.ofText once) = Segment.blocks left) := by
  intro once left
  refine ⟨symbolize_eq_self_iff grammars once, ?_, ?_⟩
  · intro hblocks
    rw [symbolize_eq_self_iff, hblocks]
    exact Segment.settled_map_symbolize _
  · intro hplain
    refine Segment.blocks_ofText_of_condensed (Segment.forall₂_condensed_symbolize _) ?_
    intro i c hc
    rw [List.getElem?_map, Option.map_eq_some_iff] at hc
    obtain ⟨s, hs, hsc⟩ := hc
    cases s with
    | prose t => simp [Segment.symbolize] at hsc
    | block b =>
        rw [Segment.symbolize, Segment.block.injEq] at hsc
        cases hb : b.toSymbols? grammars with
        | none =>
            rw [hb, Option.getD_none] at hsc
            exact Or.inl (hsc ▸ hs)
        | some d =>
            rw [hb, Option.getD_some] at hsc
            rw [← hsc]
            exact Or.inr (hplain b (Segment.mem_blocks.mpr (List.mem_of_getElem? hs)) d hb)

end Twice

/-- A tag that lengthens its fence uncovers code that a second run replaces. -/
theorem symbolize_symbolize_tildeTag_ne :
    symbolize TildeTag.grammars (symbolize TildeTag.grammars TildeTag.text) ≠
      symbolize TildeTag.grammars TildeTag.text := by
  decide +kernel

end CodeAtlas
