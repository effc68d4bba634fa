import CodeAtlas.Proofs.Fence.Kept
import Mathlib.Data.List.Range

/-!
# Shrinking to a budget

Shrinking takes turns: every block in the chosen order may become signatures, and then every block
in the same order may lose its comments. The length it keeps is the length of the text at every
turn, no turn changes a text that fits, and a text that does not fit in the end has no block left
that could be condensed.
-/

namespace CodeAtlas

namespace FencedBlock

/-- Why a block cannot be condensed. -/
inductive Incompressible (grammars : Grammars) (b : FencedBlock) : Prop
  | patch (guarded : b.isPatch = true)
  | symbols (guarded : b.isSymbols = true)
  | unknown (language : b.language? = none)
  | noSignatures {language : Language} {e : ExtractError} (code : b.isCode = true)
      (known : b.language? = some language)
      (fails : (Document.read grammars language b.body >>= (·.signatures grammars)) = .error e)
  | emptySignatures {language : Language} (code : b.isCode = true)
      (known : b.language? = some language)
      (empty : (Document.read grammars language b.body >>= (·.signatures grammars)) = .ok [])
  | longSignatures {language : Language} {signatures : List Signature} (code : b.isCode = true)
      (known : b.language? = some language)
      (found :
        (Document.read grammars language b.body >>= (·.signatures grammars)) = .ok signatures)
      (long : b.render.length ≤ (b.withSignatures signaturesHint
        (endLine (Text.joinWith ['\n'] (signatures.map (·.content))))).render.length)
  | stripped (signatures : b.isSignatures = true) (hint : Text.occursIn strippedHint b.info = true)
  | unread {language : Language} {e : ExtractError} (signatures : b.isSignatures = true)
      (known : b.language? = some language)
      (fails : Document.read grammars language b.body = .error e)
  | commentFree {language : Language} {document : Document} (signatures : b.isSignatures = true)
      (known : b.language? = some language)
      (found : Document.read grammars language b.body = .ok document)
      (same : endLine document.commentFree = b.body)

section Settled

variable {grammars : Grammars} {b : FencedBlock}

private theorem isSignatures_of_isCode (h : b.isCode = true) : b.isSignatures = false := by
  simp only [isCode, Bool.and_eq_true, Bool.not_eq_true'] at h
  exact h.1.2

private theorem incompressible_of_toSignatures? {language : Language} (hcode : b.isCode = true)
    (hknown : b.language? = some language) (h : b.toSignatures? grammars = none) :
    b.Incompressible grammars := by
  simp only [toSignatures?, hcode, if_true, hknown, Option.bind_eq_bind, Option.bind_some] at h
  cases hfound : Document.read grammars language b.body >>= (·.signatures grammars) with
  | error e => exact .noSignatures hcode hknown hfound
  | ok signatures =>
      rw [hfound] at h
      cases signatures with
      | nil => exact .emptySignatures hcode hknown hfound
      | cons s rest =>
          apply Incompressible.longSignatures hcode hknown hfound
          simpa [Except.toOption] using h

private theorem incompressible_of_withoutComments? {language : Language}
    (hsignatures : b.isSignatures = true) (hknown : b.language? = some language)
    (h : b.withoutComments? grammars = none) : b.Incompressible grammars := by
  by_cases hhint : Text.occursIn strippedHint b.info = true
  · exact .stripped hsignatures hhint
  · rw [Bool.not_eq_true] at hhint
    simp only [withoutComments?, hsignatures, hhint, Bool.not_false, Bool.and_true, if_true, hknown,
      Option.bind_eq_bind, Option.bind_some] at h
    cases hfound : Document.read grammars language b.body with
    | error e => exact .unread hsignatures hknown hfound
    | ok document =>
        apply Incompressible.commentFree hsignatures hknown hfound
        by_contra hnew
        simp [hfound, Except.toOption, hnew] at h

theorem Incompressible.toSignatures? (h : b.Incompressible grammars) :
    b.toSignatures? grammars = none := by
  have hsignatures (hs : b.isSignatures = true) : b.toSignatures? grammars = none :=
    toSignatures?_of_isCode (by simp [FencedBlock.isCode, hs])
  cases h with
  | patch guarded => exact toSignatures?_of_isCode (by simp [FencedBlock.isCode, guarded])
  | symbols guarded => exact toSignatures?_of_isCode (by simp [FencedBlock.isCode, guarded])
  | unknown language => simp [FencedBlock.toSignatures?, language]
  | noSignatures code known fails =>
      simp [FencedBlock.toSignatures?, code, known, fails, Except.toOption]
  | emptySignatures code known empty =>
      simp [FencedBlock.toSignatures?, code, known, empty, Except.toOption]
  | longSignatures code known found long =>
      simp [FencedBlock.toSignatures?, code, known, found, long, Except.toOption]
  | stripped signatures _ => exact hsignatures signatures
  | unread signatures _ _ => exact hsignatures signatures
  | commentFree signatures _ _ _ => exact hsignatures signatures

theorem Incompressible.withoutComments? (h : b.Incompressible grammars) :
    b.withoutComments? grammars = none := by
  have hother (hs : b.isSignatures = false) : b.withoutComments? grammars = none := by
    simp [FencedBlock.withoutComments?, hs]
  cases h with
  | patch guarded =>
      apply hother
      by_contra hs
      simp [isPatch_of_isSignatures (Bool.not_eq_false _ ▸ hs)] at guarded
  | symbols guarded =>
      apply hother
      by_contra hs
      simp [isSymbols_of_isSignatures (Bool.not_eq_false _ ▸ hs)] at guarded
  | unknown language => simp [FencedBlock.withoutComments?, language]
  | noSignatures code _ _ => exact hother (isSignatures_of_isCode code)
  | emptySignatures code _ _ => exact hother (isSignatures_of_isCode code)
  | longSignatures code _ _ _ => exact hother (isSignatures_of_isCode code)
  | stripped _ hint => simp [FencedBlock.withoutComments?, hint]
  | unread signatures known fails =>
      simp [FencedBlock.withoutComments?, known, fails, Except.toOption]
  | commentFree signatures known found same =>
      simp [FencedBlock.withoutComments?, known, found, same, Except.toOption]

/-- A block that has no turn left is one of those that cannot be condensed. -/
theorem incompressible_iff : b.Incompressible grammars ↔
    b.toSignatures? grammars = none ∧ b.withoutComments? grammars = none := by
  constructor
  · intro h
    exact ⟨h.toSignatures?, h.withoutComments?⟩
  · intro h
    by_cases hpatch : b.isPatch = true
    · exact .patch hpatch
    by_cases hsymbols : b.isSymbols = true
    · exact .symbols hsymbols
    cases hknown : b.language? with
    | none => exact .unknown hknown
    | some language =>
        by_cases hsignatures : b.isSignatures = true
        · exact incompressible_of_withoutComments? hsignatures hknown h.2
        · have hcode : b.isCode = true := by simp [isCode, hpatch, hsymbols, hsignatures]
          exact incompressible_of_toSignatures? hcode hknown h.1

end Settled

end FencedBlock

namespace Segment

def bodyLength (segments : List Segment) (i : Nat) : Nat :=
  match segments[i]? with
  | some (.block b) => b.body.length
  | _ => 0

/-- Whether the block in one place has its turn before the block in another one: the longer body
goes first, and of bodies of one length the first in the text, or simply the first in the text. -/
def Precedes (longestFirst : Bool) (segments : List Segment) (i j : Nat) : Prop :=
  if longestFirst = true then
    bodyLength segments j < bodyLength segments i ∨
      bodyLength segments i = bodyLength segments j ∧ i < j
  else i < j

/-- An order in which each block has its place once. -/
structure Ordered (longestFirst : Bool) (segments : List Segment) (places : List Nat) : Prop where
  blocks : ∀ i, i ∈ places ↔ ∃ b, segments[i]? = some (.block b)
  sorted : places.Pairwise (Precedes longestFirst segments)

private theorem exists_bodies (segments : List Segment) : ∃ bodies : List (Nat × Nat),
    blockOrder true segments = (sortBy (fun a b => decide (b.1 ≤ a.1)) bodies).map (·.2) ∧
      blockOrder false segments = bodies.map (·.2) ∧ bodies.Pairwise (fun a b => a.2 < b.2) ∧
      ∀ p, p ∈ bodies ↔ ∃ b, segments[p.2]? = some (.block b) ∧ b.body.length = p.1 := by
  refine ⟨_, rfl, rfl, ?_, ?_⟩
  · have hplaces : (segments.zipIdx.map (·.2)).Pairwise (· < ·) := by
      rw [List.zipIdx_map_snd]
      exact List.pairwise_lt_range'
    apply (List.pairwise_map.mp hplaces).filterMap
    intro p q hpq x hx y hy
    obtain ⟨s, i⟩ := p
    obtain ⟨t, j⟩ := q
    cases s with
    | prose u => simp at hx
    | block b =>
        cases t with
        | prose u => simp at hy
        | block c =>
            simp only [Option.some.injEq] at hx hy
            rw [← hx, ← hy]
            exact hpq
  · intro p
    rw [List.mem_filterMap]
    constructor
    · intro h
      obtain ⟨⟨s, i⟩, hmem, hp⟩ := h
      have hi := List.mem_zipIdx_iff_getElem?.mp hmem
      cases s with
      | prose t => simp at hp
      | block b =>
          simp only [Option.some.injEq] at hp
          exact ⟨b, by rw [← hp]; exact hi, by rw [← hp]⟩
    · intro h
      obtain ⟨b, hb, hlength⟩ := h
      exact ⟨(.block b, p.2), List.mem_zipIdx_iff_getElem?.mpr hb, by simp [hlength]⟩

/-- The places of the blocks come in the chosen order. -/
theorem ordered_blockOrder (longestFirst : Bool) (segments : List Segment) :
    Ordered longestFirst segments (blockOrder longestFirst segments) := by
  obtain ⟨bodies, hlongest, hfirst, hplaces, hmem⟩ := exists_bodies segments
  have hlength : ∀ p ∈ bodies, bodyLength segments p.2 = p.1 := by
    intro p hp
    obtain ⟨b, hb, hlength⟩ := (hmem p).mp hp
    simp [bodyLength, hb, hlength]
  have hplace (i : Nat) : (∃ p ∈ bodies, p.2 = i) ↔ ∃ b, segments[i]? = some (.block b) := by
    constructor
    · intro h
      obtain ⟨p, hp, rfl⟩ := h
      obtain ⟨b, hb, -⟩ := (hmem p).mp hp
      exact ⟨b, hb⟩
    · intro h
      obtain ⟨b, hb⟩ := h
      exact ⟨(b.body.length, i), (hmem _).mpr ⟨b, hb, rfl⟩, rfl⟩
  cases longestFirst with
  | false =>
      rw [hfirst]
      refine ⟨?_, ?_⟩
      · intro i
        rw [List.mem_map, hplace]
      · rw [List.pairwise_map]
        apply hplaces.imp
        intro p q hpq
        simpa [Precedes] using hpq
  | true =>
      rw [hlongest]
      refine ⟨?_, ?_⟩
      · intro i
        simp only [List.mem_map, (sortBy_perm _ bodies).mem_iff, hplace]
      · rw [List.pairwise_map]
        have hstable : (sortBy (fun a b : Nat × Nat => decide (b.1 ≤ a.1)) bodies).Pairwise
            (fun a b => decide (b.1 ≤ a.1) = true ∧ (decide (a.1 ≤ b.1) = true → a.2 < b.2)) := by
          apply pairwise_sortBy_stable _ _ hplaces
          · intro a b
            simp only [decide_eq_true_eq]
            omega
          · intro a b c
            simp only [decide_eq_true_eq]
            omega
        apply hstable.imp_of_mem
        intro p q hp hq hpq
        rw [(sortBy_perm _ bodies).mem_iff] at hp hq
        simp only [decide_eq_true_eq] at hpq
        simp only [Precedes, if_true, hlength p hp, hlength q hq]
        omega

end Segment

namespace Draft

/-- A turn of shrinking: a way to condense a block, and the place of the block. -/
structure Turn where
  condense : FencedBlock → Option FencedBlock
  place : Nat

/-- The turns of shrinking: each place in order for signatures, and then each place again in the
same order for comments. -/
def turns (grammars : Grammars) (places : List Nat) : List Turn :=
  places.map (Turn.mk (·.toSignatures? grammars)) ++
    places.map (Turn.mk (·.withoutComments? grammars))

def take (limit : Nat) (d : Draft) (turn : Turn) : Draft :=
  d.condenseAt limit turn.condense turn.place

def stage (grammars : Grammars) (limit : Nat) (places : List Nat) (d : Draft) (k : Nat) : Draft :=
  ((turns grammars places).take k).foldl (take limit) d

/-- What a turn does to a draft. A block is condensed only if the text is too long, and the length
of the block is part of the length that is kept, so that it can be taken away first. -/
inductive Step (limit : Nat) (turn : Turn) (d : Draft) : Draft → Prop
  | fits (short : (Segment.renderAll d.segments).length ≤ limit) : Step limit turn d d
  | settled (long : limit < (Segment.renderAll d.segments).length)
      (stays : Segment.BlockAt (turn.condense · = none) d.segments turn.place) : Step limit turn d d
  | condensed {b c : FencedBlock} (long : limit < (Segment.renderAll d.segments).length)
      (block : d.segments[turn.place]? = some (.block b)) (gives : turn.condense b = some c)
      (room : b.render.length ≤ d.length) :
      Step limit turn d ⟨d.segments.set turn.place (.block c),
        d.length - b.render.length + c.render.length, true⟩

/-- Whether the length that a draft keeps is the length of its text. -/
def Measured (d : Draft) : Prop := d.length = (Segment.renderAll d.segments).length

section Stages

variable {grammars : Grammars} {limit : Nat} {places : List Nat} {d : Draft}

private theorem Measured.step_take (h : d.Measured) (turn : Turn) :
    Step limit turn d (d.take limit turn) := by
  by_cases hfits : d.length ≤ limit
  · rw [take, condenseAt_of_fits hfits]
    exact .fits (h ▸ hfits)
  · have hlong : limit < (Segment.renderAll d.segments).length := h ▸ Nat.not_le.mp hfits
    rcases condenseAt_cases limit turn.condense d turn.place with
      ⟨hsame, hcase⟩ | ⟨b, c, hb, hc, hstep⟩
    · rw [take, hsame]
      exact .settled hlong (hcase.resolve_left hfits)
    · rw [take, hstep]
      refine .condensed hlong hb hc ?_
      rw [h, ← Segment.length_eq]
      exact (Segment.length_set hb c).2

private theorem Step.measured {turn : Turn} {e : Draft} (hstep : Step limit turn d e)
    (h : d.Measured) :
    e.Measured := by
  cases hstep with
  | fits => exact h
  | settled => exact h
  | @condensed b c _ hb _ _ =>
      rw [Measured, ← Segment.length_eq] at h ⊢
      rw [h]
      exact (Segment.length_set hb c).1.symm

private theorem stage_succ {k : Nat} {turn : Turn} (h : (turns grammars places)[k]? = some turn) :
    d.stage grammars limit places (k + 1) = (d.stage grammars limit places k).take limit turn := by
  rw [stage, List.take_add_one, h, Option.toList_some, List.foldl_append, ← stage]
  rfl

private theorem stage_of_length_le {k : Nat} (h : (turns grammars places).length ≤ k) :
    d.stage grammars limit places k = d.shorten grammars limit places := by
  rw [stage, List.take_of_length_le h, turns, List.foldl_append, List.foldl_map, List.foldl_map]
  rfl

private theorem length_turns : (turns grammars places).length = 2 * places.length := by
  simp only [turns, List.length_append, List.length_map]
  omega

private theorem Measured.stage (h : d.Measured) (k : Nat) :
    (d.stage grammars limit places k).Measured := by
  induction k with
  | zero => exact h
  | succ k ih =>
      cases hturn : (turns grammars places)[k]? with
      | none =>
          have hlength := List.getElem?_eq_none_iff.mp hturn
          rw [stage_of_length_le hlength] at ih
          rw [stage_of_length_le (Nat.le_succ_of_le hlength)]
          exact ih
      | some turn =>
          rw [stage_succ hturn]
          exact (ih.step_take turn).measured ih

/-- No turn changes a draft that fits. -/
theorem stage_of_fits {j k : Nat} (hjk : j ≤ k)
    (h : (d.stage grammars limit places j).length ≤ limit) :
    d.stage grammars limit places k = d.stage grammars limit places j := by
  have hsplit := List.take_append_drop j ((turns grammars places).take k)
  rw [List.take_take, Nat.min_eq_left hjk] at hsplit
  rw [stage, ← hsplit, List.foldl_append, ← stage]
  exact List.foldl_fixed' (fun turn => condenseAt_of_fits h turn.place) _

end Stages

private theorem measured_ofText (text : Text) : (ofText text).Measured :=
  Segment.length_eq _

end Draft

/-- Shrinking stops exactly when it should. A text that fits is left alone. Any other one goes
through the turns of its blocks in the chosen order: the length that is kept is the length of the
text at every stage, a turn condenses a block only if the text does not fit, and nothing changes
once it fits. If the text does not fit in the end, no block that is left can be condensed. -/
theorem shrink_stops_when_it_fits (grammars : Grammars) (longestFirst : Bool) (limit : Nat)
    (text : Text) :
    let start := Draft.ofText text
    let places := Segment.blockOrder longestFirst start.segments
    let stage := start.stage grammars limit places
    let last := stage (2 * places.length)
    (text.length ≤ limit → shrink grammars longestFirst limit text = (text, false)) ∧
      (limit < text.length → shrink grammars longestFirst limit text =
        (Segment.renderAll last.segments, last.changed)) ∧
      Segment.Ordered longestFirst start.segments places ∧
      (∀ k, (stage k).length = (Segment.renderAll (stage k).segments).length) ∧
      (∀ k turn, (Draft.turns grammars places)[k]? = some turn →
        Draft.Step limit turn (stage k) (stage (k + 1))) ∧
      (∀ j k, j ≤ k → (Segment.renderAll (stage j).segments).length ≤ limit → stage k = stage j) ∧
      (limit < (shrink grammars longestFirst limit text).1.length →
        ∀ b ∈ Segment.blocks last.segments, b.Incompressible grammars) := by
  intro start places stage last
  have hlast : last = Draft.shrunk grammars longestFirst limit text :=
    Draft.stage_of_length_le (Nat.le_of_eq Draft.length_turns)
  have hmeasured (k : Nat) : (stage k).Measured := (Draft.measured_ofText text).stage k
  have hshort (h : text.length ≤ limit) :
      shrink grammars longestFirst limit text = (text, false) := by
    rw [shrink, if_pos h]
  have hlong (h : limit < text.length) : shrink grammars longestFirst limit text =
      (Segment.renderAll last.segments, last.changed) := by
    rw [shrink, if_neg (Nat.not_le.mpr h), hlast]
  refine ⟨hshort, hlong, Segment.ordered_blockOrder longestFirst start.segments, hmeasured, ?_, ?_,
    ?_⟩
  · intro k turn hturn
    have hnext : stage (k + 1) = (stage k).take limit turn := Draft.stage_succ hturn
    rw [hnext]
    exact (hmeasured k).step_take turn
  · intro j k hjk hfits
    exact Draft.stage_of_fits hjk ((hmeasured j).symm ▸ hfits)
  · intro hover b hb
    by_cases hfits : text.length ≤ limit
    · rw [hshort hfits] at hover
      exact absurd hfits (Nat.not_le.mpr hover)
    · have hkept : last.length = (Segment.renderAll last.segments).length := hmeasured _
      rw [hlong (Nat.not_le.mp hfits), ← hkept, hlast] at hover
      rw [hlast] at hb
      exact FencedBlock.incompressible_iff.mpr
        ((Draft.shrunk_exhausted grammars longestFirst limit text hover).settled b hb)

end CodeAtlas
