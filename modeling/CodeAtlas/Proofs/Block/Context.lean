import CodeAtlas.Proofs.Block.Normal

/-!
# Context in steps

Context can be added in steps: widening a block by some rows and then by some more is widening it
once by all of them. This holds of every span, also of one that ends before it starts or past the
end of the buffer.
-/

namespace CodeAtlas.Block

open LineTable

/-- The block with its start moved back to its end, if it stands behind it. -/
def upright (b : Block) : Block :=
  { b with span := { b.span with startByte := min b.span.startByte b.span.endByte } }

theorem startByte_upright_le (b : Block) : b.upright.span.startByte ≤ b.upright.span.endByte :=
  Nat.min_le_right _ _

/-- Widening cuts the start of a block back to its end by itself. -/
theorem widen_upright (t : LineTable) (context : Nat) (b : Block) :
    widen t context b.upright = widen t context b := by
  have hspan : t.spanOf (min b.span.startByte b.span.endByte) b.span.endByte =
      t.spanOf b.span.startByte b.span.endByte := by
    have hstart : min (min b.span.startByte b.span.endByte) (min b.span.endByte t.size) =
        min b.span.startByte (min b.span.endByte t.size) := by omega
    simp only [spanOf, hstart]
  simp only [widen, upright, hspan]

section Steps

variable (source : Bytes) (b : Block)

private theorem span_widen_widen (n m : Nat) :
    (widen (ofBytes source) m (widen (ofBytes source) n b)).span =
      (widen (ofBytes source) (n + m) b).span := by
  have hb := startByte_upright_le b
  have hspan := widen_span source hb n
  rw [widen_upright] at hspan
  rw [widen_span_of_rows (widen_rows_le hb n) (Nat.min_le_right _ _) hspan,
    ← widen_upright _ (n + m), widen_span source hb, Nat.sub_sub]
  -- The last row of the buffer bounds the sum, whether it was reached before or not.
  have hlast : min (min (b.upright.finalRow source + n) (ofBytes source).lastRow + m)
      (ofBytes source).lastRow =
        min (b.upright.finalRow source + (n + m)) (ofBytes source).lastRow := by
    omega
  rw [hlast]

theorem contains_widen_iff (context : Nat) {name : Span} (h : b.span.contains name = true) :
    (widen (ofBytes source) context b).span.contains name = true ↔
      name.endByte ≤ source.length := by
  have hb := startByte_upright_le b
  have hcovers := widen_covers source hb context
  have hfits := (ofRows_widen source hb context).wholeLines.fits
  rw [widen_upright] at hcovers hfits
  simp only [upright] at hcovers
  simp only [Span.contains, Bool.and_eq_true, decide_eq_true_eq] at h ⊢
  omega

private theorem name_widen_widen (hname : ∀ name, b.name = some name → b.span.contains name = true)
    (n m : Nat) :
    (widen (ofBytes source) m (widen (ofBytes source) n b)).name =
      (widen (ofBytes source) (n + m) b).name := by
  change (b.name.filter (widen (ofBytes source) n b).span.contains).filter
      (widen (ofBytes source) m (widen (ofBytes source) n b)).span.contains =
    b.name.filter (widen (ofBytes source) (n + m) b).span.contains
  rw [span_widen_widen]
  cases hn : b.name with
  | none => rfl
  | some name =>
      have hfirst := contains_widen_iff source b n (hname name hn)
      have hboth := contains_widen_iff source b (n + m) (hname name hn)
      by_cases hfits : name.endByte ≤ source.length
      · rw [Option.filter_some_pos (hfirst.mpr hfits)]
      · rw [Option.filter_some_neg (Bool.eq_false_iff.mpr fun h => hfits (hfirst.mp h)),
          Option.filter_some_neg (Bool.eq_false_iff.mpr fun h => hfits (hboth.mp h)),
          Option.filter_none]

end Steps

/-- Widening blocks by `n` rows and then by `m` rows is widening them by `n + m` rows, their names
included. Without any context it is the same to widen them once or twice. -/
theorem widenAll_widenAll (source : Bytes) (blocks : List Block) (n m : Nat)
    (hnames : ∀ b ∈ blocks, ∀ name, b.name = some name → b.span.contains name = true) :
    widenAll source m (widenAll source n blocks) = widenAll source (n + m) blocks := by
  rw [widenAll, widenAll, widenAll, List.map_map]
  apply List.map_congr_left
  intro b hb
  calc
    _ = ⟨(widen (ofBytes source) m (widen (ofBytes source) n b)).span,
          (widen (ofBytes source) m (widen (ofBytes source) n b)).name⟩ := rfl
    _ = widen (ofBytes source) (n + m) b := by
        rw [span_widen_widen, name_widen_widen source b (hnames b hb)]

namespace PastEnd

def inverted : Block := ⟨⟨7, 4, ⟨3, 1⟩, ⟨2, 0⟩⟩, some ⟨8, 3, ⟨4, 0⟩, ⟨1, 1⟩⟩⟩

/-- A block that reaches past the end of the buffer, as its name does. -/
def lateName : Block := ⟨⟨8, 20, ⟨4, 0⟩, ⟨9, 0⟩⟩, some ⟨9, 15, ⟨4, 1⟩, ⟨7, 0⟩⟩⟩

end PastEnd

open PastEnd in
theorem widenAll_widenAll_pastEnd :
    (∀ b ∈ [inverted, lateName], ∀ name, b.name = some name → b.span.contains name = true) ∧
      widenAll source 2 (widenAll source 1 [inverted, lateName]) =
        widenAll source 3 [inverted, lateName] := by
  have hnames : ∀ b ∈ [inverted, lateName], ∀ name, b.name = some name →
      b.span.contains name = true := by
    intro b hb name hname
    rcases List.mem_pair.mp hb with rfl | rfl <;> cases hname <;> rfl
  exact ⟨hnames, widenAll_widenAll source [inverted, lateName] 1 2 hnames⟩

end CodeAtlas.Block
