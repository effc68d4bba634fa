import CodeAtlas.Proofs.Fence.Condense
import CodeAtlas.Proofs.Order

/-!
# Shrinking twice

A text that fits, or in which no code is repeated and no block can be condensed, is left alone, and
no other one is. What shrinking leaves is of this kind as long as it reads back as the blocks that
were written.
-/

namespace CodeAtlas

/-- Blocks that shrinking can do nothing about: no code comes twice and nothing can be condensed. -/
structure FencedBlock.Exhausted (grammars : Grammars) (blocks : List FencedBlock) : Prop where
  distinct : (codeTexts blocks).Nodup
  settled : ∀ b ∈ blocks, b.toSignatures? grammars = none ∧ b.withoutComments? grammars = none

theorem FencedBlock.OpenedBy.length_render {b : FencedBlock} {f : FenceLine} (h : b.OpenedBy f) :
    repeatMark.length < b.render.length := by
  obtain ⟨hf, indent, -, hopening⟩ := FenceLine.of_ofLine? h.opens
  obtain ⟨g, hg, -, -, -⟩ := FenceLine.closedBy_iff.mp h.closes
  obtain ⟨hgw, indent', -, hclosing⟩ := FenceLine.of_ofLine? hg
  have hfcount := hf.count
  have hgcount := hgw.count
  have hmark : repeatMark.length = 5 := by decide
  simp only [render, hopening, hclosing, FenceLine.characters, List.length_append, List.length_cons,
    List.length_replicate]
  omega

namespace Segment

theorem forall₂_condensed_dropRepeated (seen : List FencedBlock) (segments : List Segment) :
    List.Forall₂ Condensed segments (dropRepeated seen segments) := by
  fun_induction dropRepeated seen segments with
  | case1 => exact .nil
  | case2 seen b rest hcode hseen ih => exact .cons (.omitted b) ih
  | case3 seen b rest hcode hseen ih => exact .cons (.same _) ih
  | case4 seen b rest hcode ih => exact .cons (.same _) ih
  | case5 seen t rest ih => exact .cons (.same _) ih

private theorem codeTexts_cons_of_isCode {b : FencedBlock} (hb : b.isCode = true)
    (bs : List FencedBlock) :
    FencedBlock.codeTexts (b :: bs) = b.render :: FencedBlock.codeTexts bs := by
  rw [FencedBlock.codeTexts, List.filter_cons_of_pos hb, List.map_cons, FencedBlock.codeTexts]

private theorem codeTexts_cons_of_not_isCode {b : FencedBlock} (hb : ¬b.isCode = true)
    (bs : List FencedBlock) : FencedBlock.codeTexts (b :: bs) = FencedBlock.codeTexts bs := by
  rw [FencedBlock.codeTexts, List.filter_cons_of_neg hb, FencedBlock.codeTexts]

theorem any_render_eq {seen : List FencedBlock} {b : FencedBlock} :
    (seen.any fun other => other.render == b.render) = true ↔ ∃ o ∈ seen, o.render = b.render := by
  simp only [List.any_eq_true, beq_iff_eq]

/-- No code is repeated once repeated blocks are left out. -/
theorem nodup_dropRepeated (seen : List FencedBlock) (segments : List Segment) :
    (FencedBlock.codeTexts (blocks (dropRepeated seen segments))).Nodup ∧
      ∀ o ∈ seen, o.render ∉ FencedBlock.codeTexts (blocks (dropRepeated seen segments)) := by
  fun_induction dropRepeated seen segments with
  | case1 => exact ⟨List.nodup_nil, fun _ _ => List.not_mem_nil⟩
  | case2 seen b rest hcode hseen ih => exact ih
  | case3 seen b rest hcode hseen ih =>
      obtain ⟨hnodup, hnew⟩ := ih
      rw [blocks_block, codeTexts_cons_of_isCode hcode]
      refine ⟨List.nodup_cons.mpr ⟨hnew b (.head _), hnodup⟩, fun o ho hmem => ?_⟩
      rcases List.mem_cons.mp hmem with hsame | hmem
      · exact hseen (any_render_eq.mpr ⟨o, ho, hsame⟩)
      · exact hnew o (.tail _ ho) hmem
  | case4 seen b rest hcode ih =>
      rw [blocks_block, codeTexts_cons_of_not_isCode hcode]
      exact ih
  | case5 seen t rest ih => exact ih

private theorem dropRepeated_of_nodup {seen : List FencedBlock} {segments : List Segment}
    (hnodup : (FencedBlock.codeTexts (blocks segments)).Nodup)
    (hseen : ∀ o ∈ seen, o.render ∉ FencedBlock.codeTexts (blocks segments)) :
    dropRepeated seen segments = segments := by
  fun_induction dropRepeated seen segments with
  | case1 => rfl
  | case2 seen b rest hcode hrepeated ih =>
      rw [blocks_block, codeTexts_cons_of_isCode hcode] at hseen
      obtain ⟨o, ho, hsame⟩ := any_render_eq.mp hrepeated
      exact absurd (by simp [hsame]) (hseen o ho)
  | case3 seen b rest hcode _ ih =>
      rw [blocks_block, codeTexts_cons_of_isCode hcode] at hseen hnodup
      obtain ⟨hb, hrest⟩ := List.nodup_cons.mp hnodup
      rw [ih hrest]
      intro o ho
      rcases List.mem_cons.mp ho with rfl | ho
      · exact hb
      · exact fun hmem => hseen o ho (.tail _ hmem)
  | case4 seen b rest hcode ih =>
      rw [blocks_block, codeTexts_cons_of_not_isCode hcode] at hseen hnodup
      rw [ih hnodup hseen]
  | case5 seen t rest ih => rw [ih hnodup hseen]

private theorem cons_eq_or_lt (s : Segment) {rest rest' : List Segment}
    (h : rest' = rest ∨ length rest' < length rest) :
    s :: rest' = s :: rest ∨ length (s :: rest') < length (s :: rest) := by
  rcases h with hsame | hlt
  · exact Or.inl (by rw [hsame])
  · exact Or.inr (by simpa using hlt)

theorem dropRepeated_eq_or_lt (seen : List FencedBlock) {segments : List Segment}
    (h : ∀ b ∈ blocks segments, repeatMark.length < b.render.length) :
    dropRepeated seen segments = segments ∨
      length (dropRepeated seen segments) < length segments := by
  fun_induction dropRepeated seen segments with
  | case1 => exact Or.inl rfl
  | case2 seen b rest hcode hseen ih =>
      rw [blocks_block, List.forall_mem_cons] at h
      have hb := h.1
      have hrest : length (dropRepeated seen rest) ≤ length rest := by
        rcases ih h.2 with hsame | hlt
        · rw [hsame]
        · exact Nat.le_of_lt hlt
      refine Or.inr ?_
      simp only [length_cons, render]
      omega
  | case3 seen b rest hcode hseen ih =>
      exact cons_eq_or_lt _ (ih (List.forall_mem_cons.mp h).2)
  | case4 seen b rest hcode ih => exact cons_eq_or_lt _ (ih (List.forall_mem_cons.mp h).2)
  | case5 seen t rest ih => exact cons_eq_or_lt _ (ih h)

theorem mem_blockOrder {segments : List Segment} {i : Nat} {b : FencedBlock}
    (h : segments[i]? = some (.block b)) (longestFirst : Bool) :
    i ∈ blockOrder longestFirst segments := by
  have hzip : (.block b, i) ∈ segments.zipIdx := List.mem_zipIdx_iff_getElem?.mpr h
  rw [blockOrder, List.mem_map]
  refine ⟨(b.body.length, i), ?_, rfl⟩
  split
  · rw [(sortBy_perm _ _).mem_iff]
    exact List.mem_filterMap.mpr ⟨_, hzip, rfl⟩
  · exact List.mem_filterMap.mpr ⟨_, hzip, rfl⟩

end Segment

namespace Draft

section Shorten

variable {grammars : Grammars} {limit : Nat} {places : List Nat} {d : Draft}

theorem Condenses.shorten {origin : List Segment} (h : d.Condenses origin) :
    (d.shorten grammars limit places).Condenses origin := by
  have hfirst : (d.condenseIn limit (·.toSignatures? grammars) places).Condenses origin :=
    h.condenseIn (fun _ _ => FencedBlock.refilled_of_toSignatures?) limit places
  exact hfirst.condenseIn (fun _ _ => FencedBlock.refilled_of_withoutComments?) limit places

private theorem shorten_of_settled
    (h : ∀ b ∈ Segment.blocks d.segments,
      b.toSignatures? grammars = none ∧ b.withoutComments? grammars = none) :
    d.shorten grammars limit places = d := by
  rw [shorten, condenseIn_of_settled fun b hb => (h b hb).1,
    condenseIn_of_settled fun b hb => (h b hb).2]

private theorem shorten_eq_or_changed :
    d.shorten grammars limit places = d ∨ (d.shorten grammars limit places).changed = true := by
  rw [shorten]
  rcases condenseIn_eq_or_changed places
    (d.condenseIn limit (·.toSignatures? grammars) places) with hsame | hchanged
  · rw [hsame]
    exact condenseIn_eq_or_changed places d
  · exact Or.inr hchanged

private theorem shorten_settles (grammars : Grammars) (limit : Nat)
    (hplaces : ∀ i b, d.segments[i]? = some (.block b) → i ∈ places) :
    (d.shorten grammars limit places).length ≤ limit ∨
      ∀ b ∈ Segment.blocks (d.shorten grammars limit places).segments,
        b.toSignatures? grammars = none ∧ b.withoutComments? grammars = none := by
  have hsignatures (b c : FencedBlock) (hc : b.toSignatures? grammars = some c) :
      c.toSignatures? grammars = none :=
    FencedBlock.toSignatures?_of_isCode (FencedBlock.refilled_of_toSignatures? hc).isCode
  have hcomments (b c : FencedBlock) (hc : b.withoutComments? grammars = some c) :
      c.withoutComments? grammars = none :=
    FencedBlock.withoutComments?_of_withoutComments? hc
  rw [shorten]
  generalize hfirst : d.condenseIn limit (·.toSignatures? grammars) places = e
  have hsettled := condenseIn_settles hsignatures limit places d
  rw [hfirst] at hsettled
  rcases hsettled with hfits | hsettled
  · rw [condenseIn_of_fits hfits]
    exact Or.inl hfits
  rcases condenseIn_settles hcomments limit places e with hfits | hstripped
  · exact Or.inl hfits
  refine Or.inr fun b hb => ?_
  obtain ⟨i, hi⟩ := List.mem_iff_getElem?.mp (Segment.mem_blocks.mp hb)
  -- Condensing makes no blocks, so a block that is left has its turn.
  have hturn : i ∈ places := by
    have he : Segment.BlockAt (fun _ => i ∈ places) e.segments i := by
      rw [← hfirst]
      exact condenseIn_blockAt (fun _ _ h _ => h) (hplaces i) places
    exact condenseIn_blockAt (fun _ _ h _ => h) he places b hi
  refine ⟨?_, hstripped i hturn b hi⟩
  refine condenseIn_blockAt (p := (·.toSignatures? grammars = none)) (fun _ c _ hc => ?_)
    (hsettled i hturn) places b hi
  exact FencedBlock.toSignatures?_of_isCode (FencedBlock.refilled_of_withoutComments? hc).isCode

end Shorten

section Shrunk

variable (grammars : Grammars) (longestFirst : Bool) (limit : Nat) (text : Text)

theorem condenses_shrunk :
    (shrunk grammars longestFirst limit text).Condenses
      (Segment.dropRepeated [] (Segment.ofText text)) :=
  Condenses.shorten ⟨Segment.forall₂_condensed_refl _, rfl⟩

/-- What is left of a text that still does not fit is exhausted. -/
theorem shrunk_exhausted (h : limit < (shrunk grammars longestFirst limit text).length) :
    FencedBlock.Exhausted grammars
      (Segment.blocks (shrunk grammars longestFirst limit text).segments) := by
  have hcondensed := (condenses_shrunk grammars longestFirst limit text).condensed
  refine ⟨(Segment.nodup_dropRepeated [] _).1.sublist (Segment.codeTexts_sublist hcondensed), ?_⟩
  rcases shorten_settles grammars limit
    (fun i b hb => Segment.mem_blockOrder hb longestFirst) with hfits | hsettled
  · exact absurd hfits (Nat.not_le.mpr h)
  · exact hsettled

end Shrunk

end Draft

section Twice

variable (grammars : Grammars) (longestFirst : Bool) (limit : Nat)

private theorem shrink_of_exhausted {text : Text}
    (h : FencedBlock.Exhausted grammars (Segment.blocks (Segment.ofText text))) :
    shrink grammars longestFirst limit text = (text, false) := by
  by_cases hfits : text.length ≤ limit
  · rw [shrink, if_pos hfits]
  · have hdraft : Draft.ofText text =
        ⟨Segment.ofText text, Segment.length (Segment.ofText text), false⟩ := by
      rw [Draft.ofText, Segment.dropRepeated_of_nodup h.distinct (by simp)]
    rw [shrink, if_neg hfits, Draft.shrunk, hdraft, Draft.shorten_of_settled h.settled]
    exact Prod.ext (Segment.renderAll_ofText text) rfl

private theorem exhausted_of_shrink {text : Text} (hlong : limit < text.length)
    (h : shrink grammars longestFirst limit text = (text, false)) :
    FencedBlock.Exhausted grammars (Segment.blocks (Segment.ofText text)) := by
  rw [shrink, if_neg (Nat.not_le.mpr hlong), Prod.mk.injEq] at h
  obtain ⟨htext, hchanged⟩ := h
  have hsame : Draft.shrunk grammars longestFirst limit text = Draft.ofText text := by
    rcases Draft.shorten_eq_or_changed with hsame | hyes
    · exact hsame
    · exact absurd (hyes.symm.trans hchanged) (by simp)
  have hdrop : Segment.dropRepeated [] (Segment.ofText text) = Segment.ofText text := by
    rcases Segment.dropRepeated_eq_or_lt [] (fun b hb =>
      (Segment.exists_openedBy_of_mem_blocks hb).elim fun _ hf => hf.length_render) with heq | hlt
    · exact heq
    · -- The text would have become shorter.
      rw [hsame, Draft.ofText] at htext
      rw [Segment.length_eq, Segment.length_eq, Segment.renderAll_ofText, htext] at hlt
      exact absurd hlt (Nat.lt_irrefl _)
  have hexhausted := Draft.shrunk_exhausted grammars longestFirst limit text
  rw [hsame, Draft.ofText, hdrop, Segment.length_eq, Segment.renderAll_ofText] at hexhausted
  exact hexhausted hlong

/-- The texts that shrinking leaves alone. -/
theorem shrink_eq_self_iff (text : Text) :
    shrink grammars longestFirst limit text = (text, false) ↔
      text.length ≤ limit ∨
        FencedBlock.Exhausted grammars (Segment.blocks (Segment.ofText text)) := by
  constructor
  · intro h
    by_cases hfits : text.length ≤ limit
    · exact Or.inl hfits
    · exact Or.inr (exhausted_of_shrink grammars longestFirst limit (Nat.not_le.mp hfits) h)
  · rintro (hfits | hexhausted)
    · rw [shrink, if_pos hfits]
    · exact shrink_of_exhausted grammars longestFirst limit hexhausted

/-- The segments that shrinking writes. -/
def Segment.remaining (text : Text) : List Segment :=
  if text.length ≤ limit then ofText text
  else (Draft.shrunk grammars longestFirst limit text).segments

theorem fst_shrink (text : Text) :
    (shrink grammars longestFirst limit text).1 =
      Segment.renderAll (Segment.remaining grammars longestFirst limit text) := by
  rw [shrink, Segment.remaining]
  split
  · exact (Segment.renderAll_ofText text).symm
  · rfl

private theorem forall₂_condensed_remaining (text : Text) :
    List.Forall₂ Segment.Condensed (Segment.ofText text)
      (Segment.remaining grammars longestFirst limit text) := by
  rw [Segment.remaining]
  split
  · exact Segment.forall₂_condensed_refl _
  · exact Segment.forall₂_condensed_trans (Segment.forall₂_condensed_dropRepeated [] _)
      (Draft.condenses_shrunk grammars longestFirst limit text).condensed

private theorem fits_or_exhausted_remaining (text : Text) :
    (shrink grammars longestFirst limit text).1.length ≤ limit ∨
      FencedBlock.Exhausted grammars
        (Segment.blocks (Segment.remaining grammars longestFirst limit text)) := by
  rw [fst_shrink, Segment.remaining]
  split
  · next hfits =>
      rw [Segment.renderAll_ofText]
      exact Or.inl hfits
  · rw [← Segment.length_eq, ← (Draft.condenses_shrunk grammars longestFirst limit text).length]
    by_cases hfits : (Draft.shrunk grammars longestFirst limit text).length ≤ limit
    · exact Or.inl hfits
    · exact Or.inr (Draft.shrunk_exhausted _ _ _ _ (Nat.not_le.mp hfits))

/-- Shrinking what shrinking has left changes nothing exactly if it fits or is exhausted. That is so
whenever the text reads back as the blocks that were written, and it does so if each of these stood
there before or is plain. -/
theorem shrink_shrink_eq_self_iff (text : Text) :
    let once := (shrink grammars longestFirst limit text).1
    let left := Segment.remaining grammars longestFirst limit text
    once = Segment.renderAll left ∧
      (shrink grammars longestFirst limit once = (once, false) ↔ once.length ≤ limit ∨
        FencedBlock.Exhausted grammars (Segment.blocks (Segment.ofText once))) ∧
      (Segment.blocks (Segment.ofText once) = Segment.blocks left →
        shrink grammars longestFirst limit once = (once, false)) ∧
      ((∀ (i : Nat) (b : FencedBlock), left[i]? = some (.block b) →
          (Segment.ofText text)[i]? = some (.block b) ∨ b.Plain) →
        Segment.blocks (Segment.ofText once) = Segment.blocks left) := by
  intro once left
  have honce : once = Segment.renderAll left := fst_shrink grammars longestFirst limit text
  refine ⟨honce, shrink_eq_self_iff grammars longestFirst limit once, ?_, ?_⟩
  · intro hblocks
    rw [shrink_eq_self_iff, hblocks]
    exact fits_or_exhausted_remaining grammars longestFirst limit text
  · intro hplain
    rw [honce]
    exact Segment.blocks_ofText_of_condensed
      (forall₂_condensed_remaining grammars longestFirst limit text) hplain

end Twice

/-- A tag that lengthens its fence uncovers code that a second run condenses. -/
theorem shrink_shrink_tildeTag_ne :
    shrink TildeTag.grammars false 0 (shrink TildeTag.grammars false 0 TildeTag.text).1 ≠
      ((shrink TildeTag.grammars false 0 TildeTag.text).1, false) := by
  decide +kernel

end CodeAtlas
