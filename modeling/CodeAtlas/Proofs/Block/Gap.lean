import CodeAtlas.Proofs.Block.Normal
import CodeAtlas.Proofs.Position.Row

/-!
# What normal blocks take in

The rows of normal blocks are those of the widened blocks and the rows between blocks that are
joined. The row right below a widened block is not looked at when the next one is joined to it, so
it is taken in whatever it holds, if all rows from there to the next block are blank.
-/

namespace CodeAtlas.Block

open LineTable

section Rows

variable {source : Bytes} {a b : Block} {first last first' last' r : Nat}

def BlankRow (source : Bytes) (r : Nat) : Prop :=
  Text.isBlank ((Buffer.ofBytes source).row r) = true

instance (source : Bytes) (r : Nat) : Decidable (BlankRow source r) :=
  inferInstanceAs (Decidable (_ = true))

def CoversRow (source : Bytes) (b : Block) (r : Nat) : Prop :=
  b.span.startByte ≤ (ofBytes source).lineStart r ∧ (ofBytes source).lineEnd r ≤ b.span.endByte

instance (source : Bytes) (b : Block) (r : Nat) : Decidable (CoversRow source b r) :=
  inferInstanceAs (Decidable (_ ∧ _))

private theorem edge_lt_of_not_blankRow (hr : r ≤ (ofBytes source).lastRow)
    (hblank : ¬BlankRow source r) :
    (ofBytes source).edge r < (ofBytes source).edge (r + 1) := by
  by_contra hle
  apply hblank
  have hempty : source.slice ((ofBytes source).lineStart r) ((ofBytes source).lineEnd r) = [] := by
    rw [lineStart_eq_edge source hr, lineEnd_eq_edge, Bytes.slice,
      Nat.sub_eq_zero_of_le (by omega), List.take_zero]
  change Text.isBlank (Text.dropEndWhile _ (Utf8.decodeLossy (source.slice
    ((ofBytes source).lineStart r) ((ofBytes source).lineEnd r)))) = true
  rw [hempty]
  rfl

private theorem HasRows.coversRow_iff (h : b.HasRows source first last)
    (hr : r ≤ (ofBytes source).lastRow) (hblank : ¬BlankRow source r) :
    b.CoversRow source r ↔ first ≤ r ∧ r ≤ last := by
  have hlt := edge_lt_of_not_blankRow hr hblank
  rw [CoversRow, lineStart_eq_edge source hr, lineEnd_eq_edge, h.span_eq]
  dsimp only
  constructor
  · rintro ⟨hstart, hend⟩
    constructor
    · by_contra hlow
      have := edge_lt_edge source (Nat.not_le.mp hlow) (Nat.le_trans h.le h.fits)
      omega
    · by_contra hhigh
      have := edge_mono source (show last + 1 ≤ r by omega)
      omega
  · rintro ⟨hlow, hhigh⟩
    exact ⟨edge_mono source hlow, edge_mono source (by omega)⟩

private theorem all_take_drop_iff {α : Type} {p : α → Bool} {l : List α} {k m : Nat} :
    ((l.drop k).take (m - k)).all p = true ↔
      ∀ q x, k ≤ q → q < m → l[q]? = some x → p x = true := by
  rw [List.all_eq_true]
  constructor
  · intro h q x hk hm hx
    apply h x
    rw [List.mem_iff_getElem?]
    refine ⟨q - k, ?_⟩
    rw [List.getElem?_take_of_lt (by omega), List.getElem?_drop, Nat.add_sub_cancel' hk, hx]
  · intro h x hx
    obtain ⟨i, hi⟩ := List.mem_iff_getElem?.mp hx
    rw [List.getElem?_take, Option.ite_none_right_eq_some, List.getElem?_drop] at hi
    exact h (k + i) x (by omega) (by omega) hi.2

/-- A block continues an earlier one if no row lies between them, or if all rows between them but
the first are blank. -/
theorem HasRows.continues_iff (ha : a.HasRows source first last)
    (hb : b.HasRows source first' last') :
    continues (Text.rows (Utf8.decodeLossy source)) a.span b.span = true ↔
      first' ≤ last + 1 ∨ ∀ q, last + 1 < q → q < first' → BlankRow source q := by
  have hfirst := Nat.le_trans hb.le hb.fits
  have hstart : ((ofBytes source).pointOf ((ofBytes source).edge first')).row = first' :=
    rowOf_edge source hfirst
  simp only [continues, blankBetween, ha.span_eq, hb.span_eq, hstart, Bool.or_eq_true,
    decide_eq_true_eq, all_take_drop_iff]
  rcases Nat.lt_or_ge last (ofBytes source).lastRow with hlast | hlast
  · have hend : ((ofBytes source).pointOf ((ofBytes source).edge (last + 1))).row = last + 1 :=
      rowOf_edge source hlast
    rw [hend]
    constructor
    · rintro (hbytes | hnear | hall)
      · left
        by_contra hlt
        have := edge_lt_edge source (show last + 1 < first' by omega) hfirst
        omega
      · exact Or.inr fun q _ _ => by omega
      · right
        intro q hq hlt
        obtain ⟨row, hrow, hblank⟩ :=
          Buffer.isBlank_row (show q ≤ (ofBytes source).lastRow by omega)
        rw [BlankRow, hblank]
        exact hall q row (by omega) hlt hrow
    · rintro (hnear | hall)
      · exact Or.inl (edge_mono source hnear)
      · refine Or.inr (Or.inr ?_)
        intro q row hq hlt hrow
        obtain ⟨row', hrow', hblank⟩ :=
          Buffer.isBlank_row (show q ≤ (ofBytes source).lastRow by omega)
        obtain rfl : row = row' := by simpa [hrow] using hrow'
        rw [← hblank]
        exact hall q (by omega) hlt
  · -- The earlier block reaches to the last row.
    have hbytes := edge_mono source (show first' ≤ last + 1 by omega)
    exact iff_of_true (Or.inl hbytes) (Or.inl (by omega))

end Rows

section Covered

variable {source : Bytes} {context r : Nat}

def topRow (source : Bytes) (context : Nat) (b : Block) : Nat := b.firstRow source - context

def bottomRow (source : Bytes) (context : Nat) (b : Block) : Nat :=
  min (b.finalRow source + context) (ofBytes source).lastRow

private theorem hasRows_widen (source : Bytes) (context : Nat) {b : Block}
    (hb : b.span.startByte ≤ b.span.endByte) :
    (widen (ofBytes source) context b).HasRows source (b.topRow source context)
      (b.bottomRow source context) :=
  ⟨widen_rows_le hb context, Nat.min_le_right _ _, widen_span source hb context⟩

/-- Whether a row lies at most `context` rows away from some row of a block. -/
def Near (source : Bytes) (context : Nat) (b : Block) (r : Nat) : Prop :=
  ∃ q, b.firstRow source ≤ q ∧ q ≤ b.finalRow source ∧ q ≤ r + context ∧ r ≤ q + context

private theorem near_iff {b : Block} (hb : b.span.startByte ≤ b.span.endByte)
    (hr : r ≤ (ofBytes source).lastRow) :
    b.Near source context r ↔ b.topRow source context ≤ r ∧ r ≤ b.bottomRow source context := by
  have hle : b.firstRow source ≤ b.finalRow source := firstRow_le_finalRow hb
  rw [topRow, bottomRow]
  constructor
  · rintro ⟨q, hfirst, hfinal, hbelow, habove⟩
    omega
  · rintro ⟨htop, hbottom⟩
    exact ⟨max (b.firstRow source) (min r (b.finalRow source)), by omega⟩

/-- Whether a row stands right below the row `bottom` and above a block with some rows around it,
and all rows further down to that block are blank. -/
def LooksPast (source : Bytes) (context bottom : Nat) (b : Block) (r : Nat) : Prop :=
  r = bottom + 1 ∧ r < b.topRow source context ∧
    ∀ q, r < q → q < b.topRow source context → BlankRow source q

/-- Whether a row stands right below one block with some rows around it, and all rows from there to
another one are blank. -/
def Overlooked (source : Bytes) (context : Nat) (blocks : List Block) (r : Nat) : Prop :=
  ∃ a ∈ blocks, ∃ b ∈ blocks, LooksPast source context (a.bottomRow source context) b r

private theorem topRow_le_bottomRow {b : Block} (hb : b.span.startByte ≤ b.span.endByte) :
    b.topRow source context ≤ b.bottomRow source context :=
  widen_rows_le hb context

private theorem not_looksPast {a b : Block} (ha : a.span.startByte ≤ a.span.endByte)
    (hle : b.topRow source context ≤ a.topRow source context) :
    ¬LooksPast source context (a.bottomRow source context) b r := by
  rintro ⟨rfl, hlt, -⟩
  have : a.topRow source context ≤ a.bottomRow source context := topRow_le_bottomRow ha
  omega

/-- In blocks in order, rows are overlooked on the way to a later block only. -/
private theorem overlooked_cons {next : Block} {rest : List Block}
    (hblocks : ∀ b ∈ next :: rest, b.span.startByte ≤ b.span.endByte)
    (htops : ∀ b ∈ rest, next.topRow source context ≤ b.topRow source context) :
    Overlooked source context (next :: rest) r ↔
      (∃ b ∈ rest, LooksPast source context (next.bottomRow source context) b r) ∨
        Overlooked source context rest r := by
  constructor
  · rintro ⟨a, ha, b, hb, hpast⟩
    rcases List.mem_cons.mp hb with rfl | hb'
    · rcases List.mem_cons.mp ha with rfl | ha'
      · exact absurd hpast (not_looksPast (hblocks a ha) (Nat.le_refl _))
      · exact absurd hpast (not_looksPast (hblocks a ha) (htops a ha'))
    · rcases List.mem_cons.mp ha with rfl | ha'
      · exact Or.inl ⟨b, hb', hpast⟩
      · exact Or.inr ⟨a, ha', b, hb', hpast⟩
  · rintro (⟨b, hb, hpast⟩ | ⟨a, ha, b, hb, hpast⟩)
    · exact ⟨next, by simp, b, by simp [hb], hpast⟩
    · exact ⟨a, by simp [ha], b, by simp [hb], hpast⟩

private theorem mem_joined_iff {first bottom : Nat} {next : Block} (hle : first ≤ bottom)
    (htop : first ≤ next.topRow source context)
    (hnext : next.span.startByte ≤ next.span.endByte) (hblank : ¬BlankRow source r)
    (h : next.topRow source context ≤ bottom + 1 ∨
      ∀ q, bottom + 1 < q → q < next.topRow source context → BlankRow source q) :
    (first ≤ r ∧ r ≤ max bottom (next.bottomRow source context)) ↔
      (first ≤ r ∧ r ≤ bottom) ∨
        (next.topRow source context ≤ r ∧ r ≤ next.bottomRow source context) ∨
        LooksPast source context bottom next r := by
  have hbottom : next.topRow source context ≤ next.bottomRow source context :=
    topRow_le_bottomRow hnext
  constructor
  · rintro ⟨hlow, hhigh⟩
    rcases Nat.lt_or_ge bottom r with hgt | hge
    · rcases Nat.lt_or_ge r (next.topRow source context) with hlt | hge
      · -- The row stands between the two, and all rows there but the first are blank.
        have hall := h.resolve_left (by omega)
        have hbelow : r = bottom + 1 := by
          by_contra hne
          exact hblank (hall r (by omega) hlt)
        exact Or.inr (Or.inr ⟨hbelow, hlt, fun q hq hqlt => hall q (by omega) hqlt⟩)
      · exact Or.inr (Or.inl ⟨hge, by omega⟩)
    · exact Or.inl ⟨hlow, hge⟩
  · rintro (hrow | hrow | ⟨rfl, hlt, -⟩) <;> omega

private theorem exists_looksPast_max {first i j : Nat} (hi : first ≤ i) (hj : first ≤ j)
    (blocks : List Block) :
    (first ≤ r ∧ r ≤ max i j) ∨ (∃ b ∈ blocks, LooksPast source context (max i j) b r) ↔
      (first ≤ r ∧ r ≤ max i j) ∨ (∃ b ∈ blocks, LooksPast source context i b r) ∨
        ∃ b ∈ blocks, LooksPast source context j b r := by
  have hends : ∀ {k : Nat}, first ≤ k → k ≤ max i j →
      (∃ b ∈ blocks, LooksPast source context k b r) →
      (first ≤ r ∧ r ≤ max i j) ∨ ∃ b ∈ blocks, LooksPast source context (max i j) b r := by
    rintro k hk hmax ⟨b, hb, hpast⟩
    have hbelow := hpast.1
    rcases Nat.lt_or_ge k (max i j) with hlt | hge
    · exact Or.inl ⟨by omega, by omega⟩
    · exact Or.inr ⟨b, hb, Nat.le_antisymm hmax hge ▸ hpast⟩
  constructor
  · rintro (hrow | hpast)
    · exact Or.inl hrow
    · rcases Nat.le_total i j with hmax | hmax
      · exact Or.inr (Or.inr (Nat.max_eq_right hmax ▸ hpast))
      · exact Or.inr (Or.inl (Nat.max_eq_left hmax ▸ hpast))
  · rintro (hrow | hpast | hpast)
    · exact Or.inl hrow
    · exact hends hi (Nat.le_max_left i j) hpast
    · exact hends hj (Nat.le_max_right i j) hpast

/-- What merging takes in: the rows of the blocks, and the rows that are overlooked. -/
private theorem exists_coversRow_merge_cons
    (hr : r ≤ (ofBytes source).lastRow) (hblank : ¬BlankRow source r) {blocks : List Block}
    (hblocks : ∀ b ∈ blocks, b.span.startByte ≤ b.span.endByte)
    (hsorted : blocks.Pairwise fun a b => a.topRow source context ≤ b.topRow source context)
    {last : Block} {first bottom : Nat} (hlast : last.HasRows source first bottom)
    (hfirst : ∀ b ∈ blocks, first ≤ b.topRow source context) :
    (∃ o ∈ merge (Text.rows (Utf8.decodeLossy source))
        (last :: widenAll source context blocks), o.CoversRow source r) ↔
      (first ≤ r ∧ r ≤ bottom) ∨
        (∃ b ∈ blocks, b.topRow source context ≤ r ∧ r ≤ b.bottomRow source context) ∨
        (∃ b ∈ blocks, LooksPast source context bottom b r) ∨
        Overlooked source context blocks r := by
  induction blocks generalizing last first bottom with
  | nil => simp [widenAll, Overlooked, hlast.coversRow_iff hr hblank]
  | cons next rest ih =>
    have hnext := hblocks next (by simp)
    have hrest := (List.forall_mem_cons.mp hblocks).2
    obtain ⟨htops, hsorted⟩ := List.pairwise_cons.mp hsorted
    have hwide : (widen (ofBytes source) context next).HasRows source _ _ :=
      hasRows_widen source context hnext
    have htop : first ≤ next.topRow source context := hfirst next (by simp)
    rw [overlooked_cons hblocks htops]
    simp only [widenAll, List.map_cons, merge_cons_cons, List.exists_mem_cons_iff] at ih ⊢
    split
    · next h =>
      rw [hlast.continues_iff hwide] at h
      rw [ih hrest hsorted (hlast.absorb hwide) fun b hb => Nat.le_trans htop (htops b hb)]
      have hbottom := Nat.le_trans htop (topRow_le_bottomRow hnext)
      rw [or_left_comm, ← or_assoc (a := first ≤ r ∧ _),
        exists_looksPast_max hlast.le hbottom, mem_joined_iff hlast.le htop hnext hblank h]
      simp only [or_assoc, or_left_comm]
    · next h =>
      rw [hlast.continues_iff hwide, not_or] at h
      rw [List.exists_mem_cons_iff, hlast.coversRow_iff hr hblank, ih hrest hsorted hwide htops]
      have hnot : ∀ b : Block, next.topRow source context ≤ b.topRow source context →
          ¬LooksPast source context bottom b r := by
        rintro b hle ⟨rfl, hlt, hall⟩
        exact h.2 fun q hq hqlt => hall q hq (by omega)
      have hnone : ¬∃ b ∈ rest, LooksPast source context bottom b r := by
        rintro ⟨b, hb, hpast⟩
        exact hnot b (htops b hb) hpast
      simp only [hnot next (Nat.le_refl _), hnone, false_or, or_assoc]

private theorem exists_coversRow_merge (context : Nat)
    (hr : r ≤ (ofBytes source).lastRow) (hblank : ¬BlankRow source r) {blocks : List Block}
    (hblocks : ∀ b ∈ blocks, b.span.startByte ≤ b.span.endByte)
    (hsorted : blocks.Pairwise fun a b => a.topRow source context ≤ b.topRow source context) :
    (∃ o ∈ merge (Text.rows (Utf8.decodeLossy source)) (widenAll source context blocks),
        o.CoversRow source r) ↔
      (∃ b ∈ blocks, b.Near source context r) ∨ Overlooked source context blocks r := by
  have hnear : (∃ b ∈ blocks, b.Near source context r) ↔
      ∃ b ∈ blocks, b.topRow source context ≤ r ∧ r ≤ b.bottomRow source context :=
    exists_congr fun b => and_congr_right fun hb => near_iff (hblocks b hb) hr
  rw [hnear]
  cases blocks with
  | nil => simp [widenAll, Overlooked]
  | cons b rest =>
    obtain ⟨htops, hrest⟩ := List.pairwise_cons.mp hsorted
    rw [widenAll, List.map_cons, overlooked_cons hblocks htops, List.exists_mem_cons_iff, or_assoc]
    exact exists_coversRow_merge_cons hr hblank (List.forall_mem_cons.mp hblocks).2 hrest
      (hasRows_widen source context (hblocks b (by simp))) htops

private theorem topRow_le_topRow {a b : Block} (h : a.span.startsBefore b.span = true) :
    a.topRow source context ≤ b.topRow source context := by
  rw [startsBefore_iff] at h
  exact Nat.sub_le_sub_right (rowOf_mono source (by omega)) context

variable {blocks : List Block}

/-- A row that is not blank lies inside a normal block exactly if it is near some block or
overlooked. -/
theorem exists_coversRow_normalize
    (hblocks : ∀ b ∈ blocks, b.span.startByte ≤ b.span.endByte)
    (hr : r ≤ (ofBytes source).lastRow) (hblank : ¬BlankRow source r) :
    (∃ o ∈ normalize source context blocks, o.CoversRow source r) ↔
      (∃ b ∈ blocks, b.Near source context r) ∨ Overlooked source context blocks r := by
  have hmem : ∀ b, b ∈ sortBy (fun a b : Block => a.span.startsBefore b.span) blocks ↔ b ∈ blocks :=
    fun b => (sortBy_perm _ blocks).mem_iff
  have hmerge := exists_coversRow_merge context hr hblank
    (fun b hb => hblocks b ((hmem b).mp hb))
    ((pairwise_sorted blocks).imp topRow_le_topRow)
  simp only [Overlooked, hmem] at hmerge ⊢
  exact hmerge

/-- The rows of normal blocks that are not blank are those at most `context` rows away from a given
block, and those right below such rows of one block from which all rows down to such rows of another
one are blank. So normal blocks take in rows near the given blocks only exactly if each overlooked
row is blank or near some block. -/
theorem normalize_takes_near_rows_iff (source : Bytes) (context : Nat) (blocks : List Block)
    (hblocks : ∀ b ∈ blocks, b.span.startByte ≤ b.span.endByte) :
    (∀ r ≤ (ofBytes source).lastRow, ¬BlankRow source r →
        ((∃ o ∈ normalize source context blocks, o.CoversRow source r) ↔
          (∃ b ∈ blocks, b.Near source context r) ∨ Overlooked source context blocks r)) ∧
      ((∀ o ∈ normalize source context blocks, ∀ r ≤ (ofBytes source).lastRow,
          o.CoversRow source r → ¬BlankRow source r → ∃ b ∈ blocks, b.Near source context r) ↔
        ∀ r ≤ (ofBytes source).lastRow, Overlooked source context blocks r →
          BlankRow source r ∨ ∃ b ∈ blocks, b.Near source context r) := by
  refine ⟨fun r hr => exists_coversRow_normalize hblocks hr, ?_⟩
  constructor
  · intro h r hr hover
    by_cases hblank : BlankRow source r
    · exact Or.inl hblank
    · obtain ⟨o, ho, hcovers⟩ :=
        (exists_coversRow_normalize hblocks hr hblank).mpr (Or.inr hover)
      exact Or.inr (h o ho r hr hcovers hblank)
  · intro h o ho r hr hcovers hblank
    rcases (exists_coversRow_normalize hblocks hr hblank).mp ⟨o, ho, hcovers⟩ with hnear | hover
    · exact hnear
    · exact (h r hr hover).resolve_left hblank

end Covered

namespace Below

def source : Bytes := [97, 10, 98, 10, 99, 10]

def top : Block := ⟨⟨0, 1, ⟨0, 0⟩, ⟨0, 1⟩⟩, none⟩

def bottom : Block := ⟨⟨4, 5, ⟨2, 0⟩, ⟨2, 1⟩⟩, none⟩

end Below

section

open Below

/-- The line between two letters is taken in when they are made normal with no context. -/
theorem normalize_takes_near_rows_iff_below :
    (∀ b ∈ [bottom, top], b.span.startByte ≤ b.span.endByte) ∧
      ∃ o ∈ normalize source 0 [bottom, top], o.CoversRow source 1 := by
  have hblocks : ∀ b ∈ [bottom, top], b.span.startByte ≤ b.span.endByte := by decide
  have hover : Overlooked source 0 [bottom, top] 1 := by
    refine ⟨top, by simp, bottom, by simp, by decide, by decide, fun q hq hlt => ?_⟩
    have htop : bottom.topRow source 0 = 2 := by decide
    omega
  obtain ⟨hrows, -⟩ := normalize_takes_near_rows_iff source 0 [bottom, top] hblocks
  exact ⟨hblocks, (hrows 1 (by decide) (by decide)).mpr (Or.inr hover)⟩

/-- With no context, normal blocks take in a line that is neither blank nor a line of a block. -/
theorem normalize_takes_row_below :
    ¬∀ o ∈ normalize source 0 [top, bottom], ∀ r ≤ (ofBytes source).lastRow,
      o.CoversRow source r → ¬BlankRow source r → ∃ b ∈ [top, bottom], b.Near source 0 r := by
  have hone : normalize source 0 [top, bottom] = [⟨⟨0, 6, ⟨0, 0⟩, ⟨3, 0⟩⟩, none⟩] := by decide
  intro h
  obtain ⟨b, hb, q, hfirst, hfinal, hbelow, habove⟩ :=
    h _ (by rw [hone]; exact List.mem_singleton_self _) 1 (by decide) (by decide) (by decide)
  have htop : top.finalRow source = 0 := by decide
  have hbottom : bottom.firstRow source = 2 := by decide
  rcases List.mem_pair.mp hb with rfl | rfl <;> omega

end

end CodeAtlas.Block
