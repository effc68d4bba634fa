import CodeAtlas.Proofs.Block.Normal
import CodeAtlas.Proofs.Position.Order

/-!
# What merging joins

Merging cuts a list of blocks into runs and joins each run to one block: the first block of the run
with its end moved forward. A run goes on as long as the next block continues what was joined so
far.

Blocks that a caller gives can end in any row. Where a block has to be compared with one that ends
in the last row there is, the row after that one is asked for, and merging has no result.
-/

namespace CodeAtlas

namespace Block

/-- A first block, and the blocks that are joined to it in turn. -/
structure Run where
  head : Block
  rest : List Block

/-- Whether each of some blocks continues what it is joined to, `last` being the first one. -/
def Continued (rows : List Text) (last : Block) : List Block → Prop
  | [] => True
  | next :: rest =>
      continues rows last.span next.span = true ∧ Continued rows (absorb last next) rest

namespace Run

def blocks (r : Run) : List Block := r.head :: r.rest

/-- The block that a run is joined to. -/
def joined (r : Run) : Block := r.rest.foldl absorb r.head

private theorem length_flatMap_blocks (runs : List Run) :
    runs.length ≤ (runs.flatMap blocks).length := by
  induction runs with
  | nil => simp
  | cons r runs ih =>
      simp only [List.length_cons, List.flatMap_cons, List.length_append, blocks]
      omega

end Run

section Runs

variable (rows : List Text)

private theorem exists_runs_merge_cons (last : Block) (blocks : List Block) :
    ∃ (taken : List Block) (runs : List Run), blocks = taken ++ runs.flatMap Run.blocks ∧
      Continued rows last taken ∧
      (∀ r ∈ runs, Continued rows r.head r.rest) ∧
      merge rows (last :: blocks) = taken.foldl absorb last :: runs.map Run.joined := by
  induction blocks generalizing last with
  | nil => exact ⟨[], [], rfl, trivial, by simp, rfl⟩
  | cons next rest ih =>
      rw [merge_cons_cons]
      split
      · next hcontinues =>
          obtain ⟨taken, runs, hsplit, htaken, hruns, hmerged⟩ := ih (absorb last next)
          exact ⟨next :: taken, runs, by simp [hsplit], ⟨hcontinues, htaken⟩, hruns, hmerged⟩
      · obtain ⟨taken, runs, hsplit, htaken, hruns, hmerged⟩ := ih next
        refine ⟨[], ⟨next, taken⟩ :: runs, ?_, trivial, ?_, ?_⟩
        · simp [hsplit, Run.blocks]
        · simpa using ⟨htaken, hruns⟩
        · simp [hmerged, Run.joined]

/-- Merging joins the runs of a list of blocks. -/
theorem exists_runs_merge (blocks : List Block) :
    ∃ runs : List Run, blocks = runs.flatMap Run.blocks ∧
      (∀ r ∈ runs, Continued rows r.head r.rest) ∧ merge rows blocks = runs.map Run.joined := by
  cases blocks with
  | nil => exact ⟨[], rfl, by simp, rfl⟩
  | cons b rest =>
      obtain ⟨taken, runs, hsplit, htaken, hruns, hmerged⟩ := exists_runs_merge_cons rows b rest
      refine ⟨⟨b, taken⟩ :: runs, ?_, ?_, ?_⟩
      · simp [hsplit, Run.blocks]
      · simpa using ⟨htaken, hruns⟩
      · simp [hmerged, Run.joined]

private theorem length_merge_le (blocks : List Block) :
    (merge rows blocks).length ≤ blocks.length := by
  obtain ⟨runs, hsplit, -, hmerged⟩ := exists_runs_merge rows blocks
  rw [hmerged, hsplit, List.length_map]
  exact Run.length_flatMap_blocks runs

/-- Merging makes no new starts. -/
theorem merge_starts (blocks : List Block) : ∀ o ∈ merge rows blocks, ∃ b ∈ blocks,
    o.span.startByte = b.span.startByte ∧ o.span.startPoint = b.span.startPoint := by
  apply forall_mem_merge
  · intro a b ha _
    rw [startByte_absorb, startPoint_absorb]
    exact ha
  · intro b hb
    exact ⟨b, hb, rfl, rfl⟩

end Runs

end Block

/-- Whether the points of a span are those of its bytes. -/
structure Span.PointsAgree (source : Bytes) (s : Span) : Prop where
  start_point : s.startPoint = (LineTable.ofBytes source).pointOf s.startByte
  end_point : s.endPoint = (LineTable.ofBytes source).pointOf s.endByte

/-- Whether a row is one of those from the first to the last row of a span. -/
def Span.Touches (s : Span) (r : Nat) : Prop := s.startPoint.row ≤ r ∧ r ≤ s.endPoint.row

theorem Span.Touches.mono {source : Bytes} {s t : Span} {r : Nat} (hr : s.Touches r)
    (hs : s.PointsAgree source) (ht : t.PointsAgree source) (h : t.contains s = true) :
    t.Touches r := by
  simp only [contains, Bool.and_eq_true, decide_eq_true_eq] at h
  rw [Touches, hs.start_point, hs.end_point] at hr
  rw [Touches, ht.start_point, ht.end_point]
  have hstart := LineTable.rowOf_mono source h.1
  have hend := LineTable.rowOf_mono source h.2
  exact ⟨Nat.le_trans hstart hr.1, Nat.le_trans hr.2 hend⟩

namespace Block

private theorem pointsAgree_absorb {source : Bytes} {a b : Block} (ha : a.span.PointsAgree source)
    (hb : b.span.PointsAgree source) : (absorb a b).span.PointsAgree source := by
  rw [absorb]
  split
  · exact ⟨ha.start_point, hb.end_point⟩
  · exact ha

private theorem merge_covers_rows {source : Bytes} (rows : List Text) {blocks : List Block}
    (hsorted : blocks.Pairwise (fun a b => a.span.startByte ≤ b.span.startByte))
    (hpoints : ∀ b ∈ blocks, b.span.PointsAgree source) :
    ∀ b ∈ blocks, ∃ o ∈ merge rows blocks, o.span.PointsAgree source ∧
      o.span.contains b.span = true ∧ ∀ r, b.span.Touches r → o.span.Touches r := by
  intro b hb
  obtain ⟨o, ho, hstart, hend⟩ := merge_covers rows hsorted b hb
  have hagree : o.span.PointsAgree source :=
    forall_mem_merge (fun _ _ => pointsAgree_absorb) hpoints o ho
  have hcontains : o.span.contains b.span = true := by simp [Span.contains, hstart, hend]
  exact ⟨o, ho, hagree, hcontains, fun r hr => hr.mono (hpoints b hb) hagree hcontains⟩

section Checked

variable (rows : List Text)

/-- Whether a block can be compared with an earlier one: it starts inside it, or the row after the
earlier one is a machine word. -/
def Comparable (last next : Span) : Prop :=
  next.startByte ≤ last.endByte ∨ last.endPoint.row < maxWord

instance (last next : Span) : Decidable (Comparable last next) :=
  inferInstanceAs (Decidable (_ ∨ _))

theorem continues?_eq_ite (last next : Span) :
    continues? rows last next =
      if Comparable last next then some (continues rows last next) else none := by
  rw [continues?, continues]
  by_cases hinside : next.startByte ≤ last.endByte
  · simp [Comparable, hinside]
  · simp only [Comparable, hinside, if_false, false_or, decide_false, Bool.false_or, addWords?,
      Nat.lt_iff_add_one_le]
    split <;> rfl

private theorem merge?_cons_cons (last next : Block) (rest : List Block) :
    merge? rows (last :: next :: rest) =
      (continues? rows last.span next.span).bind fun joined =>
        if joined then merge? rows (absorb last next :: rest)
        else (merge? rows (next :: rest)).map (last :: ·) := by
  simp only [merge?, mergeWith, mergeAfter, Option.bind_eq_bind]
  congr 1
  funext joined
  cases joined <;> simp [Option.map_eq_bind]

/-- Whether merging comes to a block that cannot be compared with the last one that is left of the
blocks before it. -/
def Overruns (blocks : List Block) : Prop :=
  ∃ before next after last, blocks = before ++ next :: after ∧
    (merge rows before).getLast? = some last ∧ ¬Comparable last.span next.span

variable {rows} {blocks out : List Block}

private theorem getLast?_merge_cons_cons (last next : Block) (rest : List Block) :
    (merge rows (last :: next :: rest)).getLast? =
      (merge rows ((if continues rows last.span next.span then absorb last next else next) ::
        rest)).getLast? := by
  rw [merge_cons_cons]
  split
  · rfl
  · obtain ⟨o, rest', heq, -⟩ := exists_merge_cons rows next rest
    rw [heq, List.getLast?_cons_cons]

private theorem overruns_cons_cons (last next : Block) (rest : List Block) :
    Overruns rows (last :: next :: rest) ↔ ¬Comparable last.span next.span ∨
      Overruns rows ((if continues rows last.span next.span then absorb last next else next) ::
        rest) := by
  constructor
  · rintro ⟨before, x, after, y, hsplit, hlast, hnot⟩
    rcases before with _ | ⟨b, _ | ⟨c, before⟩⟩
    · simp at hlast
    · obtain ⟨rfl, rfl, rfl⟩ : last = b ∧ next = x ∧ rest = after := by simpa using hsplit
      obtain rfl : last = y := by simpa using hlast
      exact Or.inl hnot
    · obtain ⟨rfl, rfl, rfl⟩ : last = b ∧ next = c ∧ rest = before ++ x :: after := by
        simpa using hsplit
      exact Or.inr ⟨_ :: before, x, after, y, rfl,
        (getLast?_merge_cons_cons _ _ before).symm.trans hlast, hnot⟩
  · rintro (hnot | ⟨before, x, after, y, hsplit, hlast, hnot⟩)
    · exact ⟨[last], next, rest, last, rfl, rfl, hnot⟩
    · rcases before with _ | ⟨b, before⟩
      · simp at hlast
      · obtain ⟨hb, rfl⟩ := List.cons.inj hsplit
        rw [← hb] at hlast
        exact ⟨last :: next :: before, x, after, y, rfl,
          (getLast?_merge_cons_cons _ _ before).trans hlast, hnot⟩

theorem merge?_eq_none_iff : merge? rows blocks = none ↔ Overruns rows blocks := by
  induction blocks using merge_induction rows with
  | nil => exact iff_of_false nofun (by simp [Overruns])
  | single b =>
      refine iff_of_false nofun ?_
      rintro ⟨before, x, after, y, hsplit, hlast, -⟩
      obtain rfl : before = [] := by
        cases before <;> simp_all
      simp at hlast
  | join last next rest h ih =>
      rw [merge?_cons_cons, continues?_eq_ite, overruns_cons_cons, h, if_pos rfl, ← ih]
      by_cases hcomparable : Comparable last.span next.span <;> simp [hcomparable]
  | skip last next rest h ih =>
      rw [merge?_cons_cons, continues?_eq_ite, overruns_cons_cons, if_neg h, ← ih]
      by_cases hcomparable : Comparable last.span next.span <;> simp [hcomparable, h]

/-- Where merging has a result, it is the one that sums without a bound give. -/
theorem eq_merge_of_merge?_eq (h : merge? rows blocks = some out) : out = merge rows blocks := by
  induction blocks using merge_induction rows generalizing out with
  | nil => simpa [merge?, mergeWith] using h.symm
  | single b => simpa [merge?, mergeWith, mergeAfter] using h.symm
  | join last next rest hjoin ih =>
      rw [merge?_cons_cons, continues?_eq_ite, hjoin] at h
      rw [merge_cons_cons, if_pos hjoin]
      split at h
      · exact ih h
      · cases h
  | skip last next rest hskip ih =>
      rw [merge?_cons_cons, continues?_eq_ite, Bool.eq_false_iff.mpr hskip] at h
      rw [merge_cons_cons, if_neg hskip]
      split at h
      · obtain ⟨out', hrest, rfl⟩ := Option.map_eq_some_iff.mp h
        rw [ih hrest]
      · cases h

/-- In what is left each block was compared with the one before it. -/
theorem isChain_merge? (h : merge? rows blocks = some out) :
    out.IsChain fun a b => continues? rows a.span b.span = some false := by
  induction blocks using merge_induction rows generalizing out with
  | nil => exact (eq_merge_of_merge?_eq h) ▸ .nil
  | single b => exact (eq_merge_of_merge?_eq h) ▸ .singleton b
  | join last next rest hjoin ih =>
      rw [merge?_cons_cons, continues?_eq_ite, hjoin] at h
      split at h
      · exact ih h
      · cases h
  | skip last next rest hskip ih =>
      rw [merge?_cons_cons] at h
      cases hcompared : continues? rows last.span next.span with
      | none => simp [hcompared] at h
      | some joined =>
          obtain rfl : joined = false := by
            rw [continues?_eq_ite] at hcompared
            split at hcompared
            · exact (Option.some.inj hcompared).symm.trans (Bool.eq_false_iff.mpr hskip)
            · cases hcompared
          rw [hcompared] at h
          obtain ⟨out', hrest, rfl⟩ := Option.map_eq_some_iff.mp h
          obtain ⟨o, rest', heq, hbyte, hpoint⟩ := exists_merge_cons rows next rest
          have hchain := ih hrest
          rw [eq_merge_of_merge?_eq hrest, heq] at hchain ⊢
          refine .cons_cons ?_ hchain
          simpa only [continues?, hbyte, hpoint] using hcompared

private theorem merge?_of_isChain
    (h : blocks.IsChain fun a b => continues? rows a.span b.span = some false) :
    merge? rows blocks = some blocks := by
  induction h with
  | nil => rfl
  | singleton b => rfl
  | cons_cons hnext _ ih =>
      rw [merge?_cons_cons, hnext, Option.bind_some, if_neg Bool.false_ne_true, ih, Option.map_some]

private theorem endPoint_absorb (last next : Block) :
    (absorb last next).span.endPoint = last.span.endPoint ∨
      (absorb last next).span.endPoint = next.span.endPoint := by
  rw [absorb]
  split
  · exact Or.inr rfl
  · exact Or.inl rfl

theorem not_overruns_of_forall_lt (h : ∀ b ∈ blocks, b.span.endPoint.row < maxWord) :
    ¬Overruns rows blocks := by
  rintro ⟨before, next, after, last, rfl, hlast, hnot⟩
  apply hnot
  refine Or.inr (forall_mem_merge ?_ (fun b hb => h b (List.mem_append_left _ hb)) last
    (List.mem_of_getLast? hlast))
  intro a b ha hb
  rcases endPoint_absorb a b with heq | heq <;> rw [heq] <;> assumption

end Checked

/-- Merging has no result exactly if it comes to a block that starts past the end of the one it is
compared with, while that one ends in the last row there is. A result is done after one time: no
block that is left continues the one before it. Merging makes no blocks and no starts, and joins
runs of blocks only, each of which continues what it is joined to. If the blocks are in order and
their points are those of their bytes, the bytes and the rows of each of them are covered by one
block that is left. -/
theorem checked_merge_joins_runs (rows : List Text) (blocks : List Block) :
    (merge? rows blocks = none ↔ Overruns rows blocks) ∧
      ((∀ b ∈ blocks, b.span.endPoint.row < maxWord) → ¬Overruns rows blocks) ∧
      ∀ out, merge? rows blocks = some out →
        merge? rows out = some out ∧
        out.length ≤ blocks.length ∧
        (∀ o ∈ out, ∃ b ∈ blocks,
          o.span.startByte = b.span.startByte ∧ o.span.startPoint = b.span.startPoint) ∧
        out.IsChain (fun a b => continues? rows a.span b.span = some false) ∧
        (∃ runs : List Run, blocks = runs.flatMap Run.blocks ∧
          (∀ r ∈ runs, Continued rows r.head r.rest) ∧ out = runs.map Run.joined) ∧
        ∀ source, blocks.Pairwise (fun a b => a.span.startByte ≤ b.span.startByte) →
          (∀ b ∈ blocks, b.span.PointsAgree source) →
          ∀ b ∈ blocks, ∃ o ∈ out, o.span.PointsAgree source ∧
            o.span.contains b.span = true ∧ ∀ r, b.span.Touches r → o.span.Touches r := by
  refine ⟨merge?_eq_none_iff, not_overruns_of_forall_lt, ?_⟩
  intro out h
  have hchain := isChain_merge? h
  refine ⟨merge?_of_isChain hchain, ?_, ?_, hchain, ?_, ?_⟩ <;>
    rw [eq_merge_of_merge?_eq h]
  · exact length_merge_le rows blocks
  · exact merge_starts rows blocks
  · exact exists_runs_merge rows blocks
  · exact fun _ hsorted hpoints => merge_covers_rows rows hsorted hpoints

namespace BlankBetween

/-- A line with a letter, three blank lines, and a line with a letter. -/
def source : Bytes := [97, 10, 10, 32, 32, 32, 10, 10, 98, 10]

/-- The first line, its letter, and the letter of the last line. -/
def blocks : List Block :=
  [⟨⟨0, 2, ⟨0, 0⟩, ⟨1, 0⟩⟩, none⟩, ⟨⟨0, 1, ⟨0, 0⟩, ⟨0, 1⟩⟩, none⟩, ⟨⟨8, 9, ⟨4, 0⟩, ⟨4, 1⟩⟩, none⟩]

end BlankBetween

open BlankBetween in
theorem checked_merge_joins_runs_blank_between :
    (∀ b ∈ blocks, b.span.endPoint.row < maxWord) ∧
      (blocks.Pairwise (fun a b => a.span.startByte ≤ b.span.startByte) ∧
        ∀ b ∈ blocks, b.span.PointsAgree source) ∧
      ∃ out, merge? (Text.rows (Utf8.decodeLossy source)) blocks = some out ∧
        ∀ b ∈ blocks, ∃ o ∈ out, o.span.PointsAgree source ∧ o.span.contains b.span = true ∧
          ∀ r, b.span.Touches r → o.span.Touches r := by
  have hrows : ∀ b ∈ blocks, b.span.endPoint.row < maxWord := by decide
  have hsorted : blocks.Pairwise (fun a b => a.span.startByte ≤ b.span.startByte) := by decide
  have hpoints : ∀ b ∈ blocks, b.span.PointsAgree source := by
    simp only [blocks, List.forall_mem_cons]
    exact ⟨⟨by decide, by decide⟩, ⟨by decide, by decide⟩, ⟨by decide, by decide⟩, nofun⟩
  obtain ⟨hnone, hfits, hsome⟩ :=
    checked_merge_joins_runs (Text.rows (Utf8.decodeLossy source)) blocks
  obtain ⟨out, hout⟩ := Option.ne_none_iff_exists'.mp fun h => hfits hrows (hnone.mp h)
  obtain ⟨-, -, -, -, -, hcovers⟩ := hsome out hout
  exact ⟨hrows, ⟨hsorted, hpoints⟩, out, hout, hcovers source hsorted hpoints⟩

namespace LastRow

/-- The first line of two, with an end in the last row there is. -/
def endless : Span := ⟨0, 2, ⟨0, 0⟩, ⟨maxWord, 0⟩⟩

def second : Span := ⟨3, 5, ⟨1, 0⟩, ⟨1, 2⟩⟩

end LastRow

open LastRow LineTable.TwoLines in
/-- Merging two blocks of which the first one ends in the last row there is has no result. -/
theorem checked_merge_fails_past_last_row :
    ¬∀ blocks, ∃ out, merge? (Text.rows (Utf8.decodeLossy source)) blocks = some out := by
  intro h
  obtain ⟨out, hout⟩ := h [⟨endless, none⟩, ⟨second, none⟩]
  have hnone : merge? (Text.rows (Utf8.decodeLossy source)) [⟨endless, none⟩, ⟨second, none⟩] =
      none := by decide
  rw [hnone] at hout
  cases hout

end Block

end CodeAtlas
