import CodeAtlas.Proofs.Fence.Refill
import Mathlib.Data.List.Basic

/-!
# Condensed drafts

Condensing goes from place to place over the segments of a text until they fit. A step refills one
block or changes nothing; a run that does not end in a text that fits has settled every block it
came to.
-/

namespace CodeAtlas

def FencedBlock.codeTexts (blocks : List FencedBlock) : List Text :=
  (blocks.filter (·.isCode)).map (·.render)

namespace Segment

/-- What condensing may make of a segment. -/
inductive Condensed : Segment → Segment → Prop
  | same (s : Segment) : Condensed s s
  | refilled {b c : FencedBlock} (h : b.Refilled c) : Condensed (.block b) (.block c)
  | omitted (b : FencedBlock) : Condensed (.block b) (.prose repeatMark)

theorem Condensed.trans {r s t : Segment} (hrs : Condensed r s) (hst : Condensed s t) :
    Condensed r t := by
  cases hrs with
  | same => exact hst
  | refilled h =>
      cases hst with
      | same => exact .refilled h
      | refilled h' => exact .refilled (h.trans h')
      | omitted => exact .omitted _
  | omitted b =>
      cases hst with
      | same => exact .omitted b

theorem forall₂_condensed_refl (segments : List Segment) :
    List.Forall₂ Condensed segments segments :=
  List.forall₂_same.mpr fun s _ => .same s

theorem forall₂_condensed_trans {a b c : List Segment} (hab : List.Forall₂ Condensed a b)
    (hbc : List.Forall₂ Condensed b c) : List.Forall₂ Condensed a c := by
  induction hab generalizing c with
  | nil => exact hbc
  | cons hd _ ih =>
      obtain ⟨t, c', ht, hrest, rfl⟩ := List.forall₂_cons_left_iff.mp hbc
      exact .cons (hd.trans ht) (ih hrest)

theorem codeTexts_sublist {a b : List Segment} (h : List.Forall₂ Condensed a b) :
    (FencedBlock.codeTexts (blocks b)).Sublist (FencedBlock.codeTexts (blocks a)) := by
  apply List.Sublist.map
  induction h with
  | nil => exact .slnil
  | @cons s t a b hst _ ih =>
      cases hst with
      | same =>
          cases s with
          | prose t => exact ih
          | block c =>
              rw [blocks_block, blocks_block, List.filter_cons, List.filter_cons]
              split
              · exact ih.cons_cons c
              · exact ih
      | @refilled c d hd =>
          rw [blocks_block, blocks_block, List.filter_cons_of_neg (by simp [hd.isCode])]
          exact ih.trans ((List.sublist_cons_self c _).filter _)
      | omitted c => exact ih.trans ((List.sublist_cons_self c _).filter _)

@[simp] theorem length_cons (s : Segment) (rest : List Segment) :
    length (s :: rest) = s.render.length + length rest :=
  rfl

theorem length_eq (segments : List Segment) : length segments = (renderAll segments).length := by
  induction segments with
  | nil => rfl
  | cons s rest ih => rw [length_cons, renderAll_cons, List.length_append, ih]

theorem blocks_ofText_of_condensed {t : Text} {segments : List Segment}
    (h : List.Forall₂ Condensed (ofText t) segments)
    (hplain : ∀ (i : Nat) (c : FencedBlock), segments[i]? = some (.block c) →
      (ofText t)[i]? = some (.block c) ∨ c.Plain) :
    blocks (ofText (renderAll segments)) = blocks segments := by
  apply blocks_ofText_renderAll (t := t)
  have hopened : ∀ b, .block b ∈ ofText t → ∃ f, b.OpenedBy f := fun b hb =>
    exists_openedBy_of_mem_blocks (mem_blocks.mpr hb)
  generalize ofText t = origin at h hplain hopened ⊢
  induction h with
  | nil => exact .nil
  | @cons s s' a a' hs _ ih =>
      refine .cons ?_ (ih (fun i c => hplain (i + 1) c) fun b hb => hopened b (.tail _ hb))
      cases hs with
      | same => exact .same _
      | @refilled b c hc =>
          obtain ⟨f, hf⟩ := hopened b (.head _)
          rcases hplain 0 c rfl with hsame | hplain
          · rw [List.getElem?_cons_zero] at hsame
            rw [Option.some.inj hsame]
            exact .same _
          · exact hc.rewritten hf hplain
      | omitted b => exact .omitted b

/-- A block in some place satisfies a property, if there is one. -/
def BlockAt (p : FencedBlock → Prop) (segments : List Segment) (i : Nat) : Prop :=
  ∀ b, segments[i]? = some (.block b) → p b

private theorem forall₂_condensed_set {segments : List Segment} {i : Nat} {b c : FencedBlock}
    (hi : segments[i]? = some (.block b)) (hc : b.Refilled c) :
    List.Forall₂ Condensed segments (segments.set i (.block c)) := by
  induction segments generalizing i with
  | nil => simp at hi
  | cons s rest ih =>
      cases i with
      | zero =>
          rw [List.getElem?_cons_zero, Option.some.injEq] at hi
          subst hi
          exact .cons (.refilled hc) (forall₂_condensed_refl rest)
      | succ i => exact .cons (.same s) (ih hi)

theorem length_set {segments : List Segment} {i : Nat} {b : FencedBlock}
    (hi : segments[i]? = some (.block b)) (c : FencedBlock) :
    length (segments.set i (.block c)) = length segments - b.render.length + c.render.length ∧
      b.render.length ≤ length segments := by
  induction segments generalizing i with
  | nil => simp at hi
  | cons s rest ih =>
      cases i with
      | zero =>
          rw [List.getElem?_cons_zero, Option.some.injEq] at hi
          subst hi
          simp only [List.set_cons_zero, length_cons, render]
          omega
      | succ i =>
          obtain ⟨hset, hle⟩ := ih hi
          simp only [List.set_cons_succ, length_cons, hset]
          omega

end Segment

namespace Draft

variable {limit : Nat} {condense : FencedBlock → Option FencedBlock}

/-- What one step does: nothing, if the draft fits or the block stays as it is, or it puts the
condensed block in its place. -/
theorem condenseAt_cases (limit : Nat) (condense : FencedBlock → Option FencedBlock) (d : Draft)
    (i : Nat) :
    d.condenseAt limit condense i = d ∧
        (d.length ≤ limit ∨ Segment.BlockAt (condense · = none) d.segments i) ∨
      ∃ b c, d.segments[i]? = some (.block b) ∧ condense b = some c ∧
        d.condenseAt limit condense i = ⟨d.segments.set i (.block c),
          d.length - b.render.length + c.render.length, true⟩ := by
  rw [condenseAt]
  by_cases hfits : d.length ≤ limit
  · rw [if_pos hfits]
    exact Or.inl ⟨rfl, Or.inl hfits⟩
  · rw [if_neg hfits]
    split
    · next b hb =>
        split
        · next c hc => exact Or.inr ⟨b, c, hb, hc, rfl⟩
        · next hc =>
            refine Or.inl ⟨rfl, Or.inr ?_⟩
            intro b' hb'
            rw [hb, Option.some.injEq, Segment.block.injEq] at hb'
            rw [← hb']
            exact hc
    · next hb => exact Or.inl ⟨rfl, Or.inr fun b hb' => absurd hb' (hb b)⟩

theorem condenseAt_of_fits {d : Draft} (h : d.length ≤ limit) (i : Nat) :
    d.condenseAt limit condense i = d := by
  rw [condenseAt, if_pos h]

theorem condenseIn_of_fits {d : Draft} (h : d.length ≤ limit) (places : List Nat) :
    d.condenseIn limit condense places = d :=
  List.foldl_fixed' (condenseAt_of_fits h) places

theorem condenseIn_of_settled {d : Draft} (h : ∀ b ∈ Segment.blocks d.segments, condense b = none)
    (places : List Nat) : d.condenseIn limit condense places = d := by
  refine List.foldl_fixed' (fun i => ?_) places
  rcases condenseAt_cases limit condense d i with ⟨hsame, -⟩ | ⟨b, c, hb, hc, -⟩
  · exact hsame
  · rw [h b (Segment.mem_blocks.mpr (List.mem_of_getElem? hb))] at hc
    exact absurd hc (by simp)

theorem condenseIn_eq_or_changed (places : List Nat) (d : Draft) :
    d.condenseIn limit condense places = d ∨
      (d.condenseIn limit condense places).changed = true := by
  induction places generalizing d with
  | nil => exact Or.inl rfl
  | cons i places ih =>
      rcases ih (d.condenseAt limit condense i) with hsame | hchanged
      · rw [condenseIn, List.foldl_cons, ← condenseIn, hsame]
        rcases condenseAt_cases limit condense d i with ⟨hstep, -⟩ | ⟨b, c, -, -, hstep⟩
        · exact Or.inl hstep
        · rw [hstep]
          exact Or.inr rfl
      · exact Or.inr hchanged

/-- A draft of some segments: they were condensed, and their length is known. -/
structure Condenses (origin : List Segment) (d : Draft) : Prop where
  condensed : List.Forall₂ Segment.Condensed origin d.segments
  length : d.length = Segment.length d.segments

theorem Condenses.condenseAt {origin : List Segment} {d : Draft} (h : d.Condenses origin)
    (hrefill : ∀ b c, condense b = some c → b.Refilled c) (limit i : Nat) :
    (d.condenseAt limit condense i).Condenses origin := by
  rcases condenseAt_cases limit condense d i with ⟨hstep, -⟩ | ⟨b, c, hb, hc, hstep⟩
  · rw [hstep]
    exact h
  · rw [hstep]
    refine ⟨Segment.forall₂_condensed_trans h.condensed
      (Segment.forall₂_condensed_set hb (hrefill b c hc)), ?_⟩
    rw [h.length]
    exact (Segment.length_set hb c).1.symm

theorem Condenses.condenseIn {origin : List Segment} {d : Draft} (h : d.Condenses origin)
    (hrefill : ∀ b c, condense b = some c → b.Refilled c) (limit : Nat) (places : List Nat) :
    (d.condenseIn limit condense places).Condenses origin := by
  induction places generalizing d with
  | nil => exact h
  | cons i places ih => exact ih (h.condenseAt hrefill limit i)

private theorem condenseAt_blockAt {p : FencedBlock → Prop}
    (hp : ∀ b c, p b → condense b = some c → p c)
    {d : Draft} {i : Nat} (h : Segment.BlockAt p d.segments i) (j : Nat) :
    Segment.BlockAt p (d.condenseAt limit condense j).segments i := by
  rcases condenseAt_cases limit condense d j with ⟨hstep, -⟩ | ⟨b, c, hb, hc, hstep⟩
  · rw [hstep]
    exact h
  · rw [hstep]
    intro b' hb'
    by_cases hij : j = i
    · subst hij
      have hlt := (List.getElem?_eq_some_iff.mp hb).1
      rw [List.getElem?_set_self hlt, Option.some.injEq, Segment.block.injEq] at hb'
      rw [← hb']
      exact hp b c (h b hb) hc
    · rw [List.getElem?_set_ne hij] at hb'
      exact h b' hb'

theorem condenseIn_blockAt {p : FencedBlock → Prop} (hp : ∀ b c, p b → condense b = some c → p c)
    {d : Draft} {i : Nat} (h : Segment.BlockAt p d.segments i) (places : List Nat) :
    Segment.BlockAt p (d.condenseIn limit condense places).segments i := by
  induction places generalizing d with
  | nil => exact h
  | cons j places ih => exact ih (condenseAt_blockAt hp h j)

/-- A run ends in a draft that fits, or with every block it came to settled. -/
theorem condenseIn_settles (hfinal : ∀ b c, condense b = some c → condense c = none)
    (limit : Nat) (places : List Nat) (d : Draft) :
    (d.condenseIn limit condense places).length ≤ limit ∨ ∀ i ∈ places,
      Segment.BlockAt (condense · = none) (d.condenseIn limit condense places).segments i := by
  induction places generalizing d with
  | nil => exact Or.inr (by simp)
  | cons i places ih =>
      have hkeeps : ∀ b c, condense b = none → condense b = some c → condense c = none :=
        fun b c _ hc => hfinal b c hc
      rcases ih (d.condenseAt limit condense i) with hfits | hsettled
      · exact Or.inl hfits
      · rcases condenseAt_cases limit condense d i with ⟨hstep, hfits | hnone⟩ |
          ⟨b, c, hb, hc, hstep⟩
        · refine Or.inl ?_
          rw [condenseIn_of_fits hfits]
          exact hfits
        · refine Or.inr (List.forall_mem_cons.mpr ⟨?_, hsettled⟩)
          exact condenseIn_blockAt hkeeps hnone (i :: places)
        · refine Or.inr (List.forall_mem_cons.mpr ⟨?_, hsettled⟩)
          refine condenseIn_blockAt hkeeps ?_ places
          rw [hstep]
          intro b' hb'
          rw [List.getElem?_set_self (List.getElem?_eq_some_iff.mp hb).1, Option.some.injEq,
            Segment.block.injEq] at hb'
          rw [← hb']
          exact hfinal b c hc

end Draft

end CodeAtlas
