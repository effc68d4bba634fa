import CodeAtlas.Proofs.Fence.Budget
import CodeAtlas.Proofs.Syntax.Tree

/-!
# Shrinking and growth

Leaving out a repeated block and writing signatures for code make a text shorter. Taking comments
out of signatures need not: the hint that they are gone may be longer than they were. What is left
of a text that still does not fit is every block condensed as far as it goes, in whatever order, so
this alone decides whether the text has grown.
-/

namespace CodeAtlas

namespace FencedBlock

variable {grammars : Grammars} {b c : FencedBlock}

/-- A block condensed as far as it goes: to its signatures, and these without comments. -/
def condensed (grammars : Grammars) (b : FencedBlock) : FencedBlock :=
  let short := (b.toSignatures? grammars).getD b
  (short.withoutComments? grammars).getD short

private theorem length_render_withSignatures (b : FencedBlock) (hint body : Text) :
    (b.withSignatures hint body).render.length =
      2 * b.fence.length + b.baseTag.length + hint.length + body.length + 13 := by
  have hending : signaturesEnding.length = 11 := by decide
  simp only [withSignatures, refill, render, List.length_append, List.length_cons, hending]
  omega

/-- Signatures are written only where they are shorter. -/
theorem length_getD_toSignatures? (grammars : Grammars) (b : FencedBlock) :
    ((b.toSignatures? grammars).getD b).render.length ≤ b.render.length := by
  cases h : b.toSignatures? grammars with
  | none => exact Nat.le_refl _
  | some c => exact Nat.le_of_lt (toSignatures?_eq_some h).2.2.1

private theorem length_render_withoutComments?
    (h : ((b.toSignatures? grammars).getD b).withoutComments? grammars = some c) :
    c.render.length = 2 * b.fence.length + b.baseTag.length + c.body.length + 42 := by
  have hhint : strippedHint.length = 29 := by decide
  have hwritten : ∃ body, c = b.withSignatures strippedHint body := by
    obtain ⟨-, -, body, rfl⟩ := withoutComments?_eq_some h
    cases hshort : b.toSignatures? grammars with
    | none => exact ⟨_, rfl⟩
    | some short =>
        obtain ⟨-, -, -, _, rfl⟩ := toSignatures?_eq_some hshort
        rw [Option.getD_some, withSignatures_withSignatures follows_signatures]
        exact ⟨_, rfl⟩
  obtain ⟨body, rfl⟩ := hwritten
  rw [length_render_withSignatures, hhint]
  simp only [withSignatures, refill]
  omega

/-- A block grows exactly if it loses its comments and the new info and fences are longer than all
that they and the comments replace. -/
theorem length_condensed_lt_iff (grammars : Grammars) (b : FencedBlock) :
    b.render.length < (b.condensed grammars).render.length ↔
      ∃ c, ((b.toSignatures? grammars).getD b).withoutComments? grammars = some c ∧
        b.opening.length + b.body.length + b.closing.length <
          2 * b.fence.length + b.baseTag.length + c.body.length + 41 := by
  have hrender : b.render.length = b.opening.length + b.body.length + b.closing.length + 1 := by
    simp only [render, List.length_append, List.length_cons]
    omega
  rw [condensed]
  cases h : ((b.toSignatures? grammars).getD b).withoutComments? grammars with
  | none =>
      have hshort := length_getD_toSignatures? grammars b
      simp only [Option.getD_none, reduceCtorEq, false_and, exists_false, iff_false]
      omega
  | some c =>
      have hlength := length_render_withoutComments? h
      simp only [Option.getD_some, Option.some.injEq, exists_eq_left']
      omega

end FencedBlock

namespace Segment

/-- A segment with its block condensed in some way, if it has one for which that is possible. -/
def condensedBy (condense : FencedBlock → Option FencedBlock) : Segment → Segment
  | .block b => .block ((condense b).getD b)
  | .prose t => .prose t

/-- A segment with its block condensed as far as it goes. -/
def condensed (grammars : Grammars) (s : Segment) : Segment :=
  (s.condensedBy (·.toSignatures? grammars)).condensedBy (·.withoutComments? grammars)

private theorem length_map_condensed {grammars : Grammars} {segments : List Segment}
    (h : ∀ b ∈ blocks segments, (b.condensed grammars).render.length ≤ b.render.length) :
    length (segments.map (condensed grammars)) ≤ length segments := by
  induction segments with
  | nil => exact Nat.le_refl _
  | cons s rest ih =>
      rw [List.map_cons, length_cons, length_cons]
      cases s with
      | prose t => exact Nat.add_le_add_left (ih h) _
      | block b =>
          rw [blocks_block, List.forall_mem_cons] at h
          exact Nat.add_le_add h.1 (ih h.2)

private theorem mem_of_mem_blocks_dropRepeated {text : Text} {b : FencedBlock}
    (h : b ∈ blocks (dropRepeated [] (ofText text))) : b ∈ blocks (ofText text) := by
  obtain ⟨i, hi⟩ := List.mem_iff_getElem?.mp (mem_blocks.mp h)
  rcases dropRepeated_place text i with ⟨hsame, -⟩ | ⟨hmark, -⟩
  · rw [hsame] at hi
    exact mem_blocks.mpr (List.mem_of_getElem? hi)
  · rw [hmark, Option.some.injEq] at hi
    cases hi

private theorem length_dropRepeated_le (text : Text) :
    length (dropRepeated [] (ofText text)) ≤ text.length := by
  have htext : length (ofText text) = text.length := by rw [length_eq, renderAll_ofText]
  rcases dropRepeated_eq_or_lt [] (fun b hb =>
    (exists_openedBy_of_mem_blocks hb).elim fun _ hf => hf.length_render) with hsame | hlt
  · rw [hsame, htext]
  · omega

private theorem nodup_blockOrder (longestFirst : Bool) (segments : List Segment) :
    (blockOrder longestFirst segments).Nodup := by
  apply (ordered_blockOrder longestFirst segments).sorted.imp
  intro i j hij heq
  subst heq
  cases longestFirst <;> simp [Precedes] at hij

end Segment

namespace Draft

variable {limit : Nat} {condense : FencedBlock → Option FencedBlock} {places : List Nat} {d : Draft}

private theorem getElem?_condenseAt (h : limit < d.length) (i j : Nat) :
    (d.condenseAt limit condense i).segments[j]? =
      if i = j then d.segments[j]?.map (Segment.condensedBy condense) else d.segments[j]? := by
  rcases condenseAt_cases limit condense d i with ⟨hsame, hcase⟩ | ⟨b, c, hb, hc, hstep⟩
  · have hnone := hcase.resolve_left (Nat.not_le.mpr h)
    rw [hsame]
    split
    · next hij =>
        subst hij
        cases hs : d.segments[i]? with
        | none => rfl
        | some s =>
            cases s with
            | prose t => rfl
            | block b => simp [Segment.condensedBy, hnone b hs]
    · rfl
  · rw [hstep]
    split
    · next hij =>
        subst hij
        rw [List.getElem?_set_self (List.getElem?_eq_some_iff.mp hb).1, hb]
        simp [Segment.condensedBy, hc]
    · next hij => exact List.getElem?_set_ne hij

private theorem getElem?_condenseIn (hnodup : places.Nodup)
    (h : limit < (d.condenseIn limit condense places).length) (j : Nat) :
    (d.condenseIn limit condense places).segments[j]? =
      if j ∈ places then d.segments[j]?.map (Segment.condensedBy condense) else d.segments[j]? := by
  induction places generalizing d with
  | nil => simp [condenseIn]
  | cons i places ih =>
      have hlong : limit < d.length := by
        by_contra hfits
        rw [condenseIn_of_fits (Nat.not_lt.mp hfits)] at h
        exact hfits h
      have hsplit := List.nodup_cons.mp hnodup
      have hrest := @ih (d.condenseAt limit condense i) hsplit.2 h
      rw [getElem?_condenseAt hlong] at hrest
      rw [condenseIn, List.foldl_cons, ← condenseIn, hrest]
      by_cases hij : i = j
      · subst hij
        simp [hsplit.1]
      · simp [hij, Ne.symm hij]

private theorem segments_condenseIn (hnodup : places.Nodup)
    (hplaces : ∀ i b, d.segments[i]? = some (.block b) → i ∈ places)
    (h : limit < (d.condenseIn limit condense places).length) :
    (d.condenseIn limit condense places).segments =
      d.segments.map (Segment.condensedBy condense) := by
  apply List.ext_getElem?
  intro j
  rw [getElem?_condenseIn hnodup h, List.getElem?_map]
  split
  · rfl
  · next hj =>
      cases hs : d.segments[j]? with
      | none => rfl
      | some s =>
          cases s with
          | prose t => rfl
          | block b => exact absurd (hplaces j b hs) hj

/-- What is left of a text that does not fit depends on neither the order nor the limit. -/
theorem segments_shrunk {grammars : Grammars} {longestFirst : Bool} {text : Text}
    (h : limit < (shrunk grammars longestFirst limit text).length) :
    (shrunk grammars longestFirst limit text).segments =
      (Segment.dropRepeated [] (Segment.ofText text)).map (Segment.condensed grammars) := by
  have hnodup := Segment.nodup_blockOrder longestFirst (ofText text).segments
  have hplaces : ∀ i b, (ofText text).segments[i]? = some (.block b) →
      i ∈ Segment.blockOrder longestFirst (ofText text).segments :=
    fun i b hb => Segment.mem_blockOrder hb longestFirst
  rw [shrunk, shorten] at h ⊢
  generalize Segment.blockOrder longestFirst (ofText text).segments = places at hnodup hplaces h ⊢
  have hfirst :
      limit < ((ofText text).condenseIn limit (·.toSignatures? grammars) places).length := by
    by_contra hfits
    rw [condenseIn_of_fits (Nat.not_lt.mp hfits)] at h
    exact hfits h
  have hsignatures := segments_condenseIn hnodup hplaces hfirst
  rw [segments_condenseIn hnodup ?_ h, hsignatures, List.map_map]
  · rfl
  · -- Condensing leaves blocks blocks, so their places are the same in the second run.
    intro i b hb
    rw [hsignatures, List.getElem?_map, Option.map_eq_some_iff] at hb
    obtain ⟨s, hs, hsb⟩ := hb
    cases s with
    | prose t => cases hsb
    | block a => exact hplaces i a hs

end Draft

private theorem fst_shrink_of_lt {grammars : Grammars} {longestFirst : Bool} {limit : Nat}
    {text : Text} (htext : limit < text.length)
    (h : limit < (shrink grammars longestFirst limit text).1.length) :
    (shrink grammars longestFirst limit text).1 = Segment.renderAll
      ((Segment.dropRepeated [] (Segment.ofText text)).map (Segment.condensed grammars)) := by
  have hshrink : (shrink grammars longestFirst limit text).1 =
      Segment.renderAll (Draft.shrunk grammars longestFirst limit text).segments := by
    rw [shrink, if_neg (Nat.not_le.mpr htext)]
  have hkept := (Draft.condenses_shrunk grammars longestFirst limit text).length
  rw [hshrink, ← Segment.length_eq, ← hkept] at h
  rw [hshrink, Draft.segments_shrunk h]

/-- Shrinking does not make a text longer exactly if what it returns fits, or all blocks condensed
as far as they go are not longer than the text. This is so whenever no single block grows, and a
block grows exactly if it loses its comments and these were shorter than what its info and fences
gain. -/
theorem shrink_length_le_iff (grammars : Grammars) (longestFirst : Bool) (limit : Nat)
    (text : Text) :
    let once := (shrink grammars longestFirst limit text).1
    let all := (Segment.dropRepeated [] (Segment.ofText text)).map (Segment.condensed grammars)
    (once.length ≤ text.length ↔
        once.length ≤ limit ∨ (Segment.renderAll all).length ≤ text.length) ∧
      ((∀ b ∈ Segment.blocks (Segment.ofText text),
          (b.condensed grammars).render.length ≤ b.render.length) → once.length ≤ text.length) ∧
      ∀ b : FencedBlock, b.render.length < (b.condensed grammars).render.length ↔
        ∃ c, ((b.toSignatures? grammars).getD b).withoutComments? grammars = some c ∧
          b.opening.length + b.body.length + b.closing.length <
            2 * b.fence.length + b.baseTag.length + c.body.length + 41 := by
  intro once all
  have hiff : once.length ≤ text.length ↔
      once.length ≤ limit ∨ (Segment.renderAll all).length ≤ text.length := by
    by_cases hfits : text.length ≤ limit
    · have honce : once = text := by simp only [once, shrink, if_pos hfits]
      rw [honce]
      exact iff_of_true (Nat.le_refl _) (Or.inl hfits)
    · by_cases hlong : once.length ≤ limit
      · exact iff_of_true (by omega) (Or.inl hlong)
      · have hall : once = Segment.renderAll all :=
          fst_shrink_of_lt (Nat.not_le.mp hfits) (Nat.not_le.mp hlong)
        rw [← hall]
        exact (or_iff_right hlong).symm
  refine ⟨hiff, ?_, FencedBlock.length_condensed_lt_iff grammars⟩
  intro hblocks
  refine hiff.mpr (Or.inr ?_)
  calc (Segment.renderAll all).length
      = Segment.length all := (Segment.length_eq all).symm
    _ ≤ Segment.length (Segment.dropRepeated [] (Segment.ofText text)) :=
        Segment.length_map_condensed fun b hb =>
          hblocks b (Segment.mem_of_mem_blocks_dropRepeated hb)
    _ ≤ text.length := Segment.length_dropRepeated_le text

/-!
## A hint that is longer than the comment

The block below holds signatures, but its info does not say so in words. The hint that is written
for the comment takes thirty characters, and the comment had fifteen.
-/

namespace BareSignatures

def body : Text := "// Run starts.\nfunc Run()\n".toList

def grammars : Grammars := fun language t =>
  if language = .go ∧ t = body then
    some (.named "source_file" 0 26 ""
      [.named "comment" 0 14 "" [],
        .named "function_declaration" 15 25 ""
          [.mark "func" 15 19, .named "identifier" 20 23 "name" [],
            .named "parameter_list" 23 25 "parameters"
              [.mark "(" 23 24, .mark ")" 24 25]]])
  else none

def text : Text := "```go-signatures\n".toList ++ body ++ "```\n".toList

end BareSignatures

/-- Taking out a comment can make a text longer. -/
theorem shrink_bareSignatures_longer :
    shrink BareSignatures.grammars false 0 BareSignatures.text =
        ("```go-signatures (bodies and comments omitted)\nfunc Run()\n```\n".toList, true) ∧
      BareSignatures.text.length <
        (shrink BareSignatures.grammars false 0 BareSignatures.text).1.length := by
  decide +kernel

end CodeAtlas
