import CodeAtlas.Proofs.Outline.Chunk

/-!
# Long chunks

A chunk above the size limit is what a cut took, or what was left when no cut was possible. A cut
follows the first empty line past the good size, however far it is, and the first line end only
where there is no such line. So a long chunk can hold line ends past the good size, and it does
exactly if an empty line ends it.
-/

namespace CodeAtlas.Chunk

/-- Whether a chunk has a line end at or past the good size that is not its last character. -/
def BreaksPast (good : Nat) (chunk : Text) : Prop :=
  ∃ i, good ≤ i ∧ i + 1 < chunk.length ∧ chunk[i]? = some '\n'

section Cuts

variable {t mark : Text} {good start cut i : Nat}

/-- A cut follows the first mark. -/
theorem le_of_cutAfter? (h : cutAfter? t mark start = some cut) (hstart : start ≤ i)
    (hmark : mark <+: t.drop i) : cut ≤ i + mark.length := by
  obtain ⟨⟨before, after⟩, hsplit, h⟩ := Option.bind_eq_some_iff.mp h
  obtain ⟨-, hcut⟩ := Option.ite_none_right_eq_some.mp h
  rw [Option.some.injEq] at hcut
  apply Nat.not_lt.mp
  intro hlt
  have hfirst := Text.not_prefix_drop_of_splitOnceText hsplit (i := i - start) (by omega)
  rw [List.drop_drop, Nat.add_sub_cancel' hstart] at hfirst
  exact hfirst hmark

private theorem length_le_of_cutAfter?_none (h : cutAfter? t mark start = none) (hstart : start ≤ i)
    (hmark : mark <+: t.drop i) : t.length ≤ i + mark.length := by
  have hdrop : mark <+: (t.drop start).drop (i - start) := by
    rw [List.drop_drop, Nat.add_sub_cancel' hstart]
    exact hmark
  rw [cutAfter?] at h
  cases hsplit : Text.splitOnceText mark (t.drop start) with
  | none => exact absurd hdrop (Text.not_prefix_drop_of_splitOnceText_none hsplit _)
  | some pair =>
      obtain ⟨before, after⟩ := pair
      have hlate : ¬i - start < before.length := by
        intro hlt
        exact Text.not_prefix_drop_of_splitOnceText hsplit hlt hdrop
      have hend : ¬start + before.length + mark.length < t.length := by
        intro hlt
        simp [hsplit, hlt] at h
      omega

private theorem prefix_drop_of_take {n : Nat} (hmark : mark <+: (t.take n).drop i) :
    mark <+: t.drop i := by
  apply hmark.trans
  rw [List.drop_take]
  exact List.take_prefix _ _

private theorem lineFeed_prefix_drop_iff : ['\n'] <+: t.drop i ↔ t[i]? = some '\n' := by
  rw [← List.head?_drop]
  cases t.drop i with
  | nil => simp
  | cons c cs => simp [List.cons_prefix_cons, eq_comm]

private theorem not_breaksPast_of_forall
    (h : ∀ i, good ≤ i → ['\n'] <+: t.drop i → t.length ≤ i + 1) : ¬BreaksPast good t := by
  rintro ⟨i, hgood, hlt, hfeed⟩
  have hle := h i hgood (lineFeed_prefix_drop_iff.mpr hfeed)
  omega

end Cuts

section Long

variable {t c : Text} {good most cut : Nat}

/-- What a chunk above the limit is like: no empty line of it starts at or past the good size, but
one at its end, and without this one it has no line end there either. -/
structure CutAtFirst (good : Nat) (c : Text) : Prop where
  empty_line : ∀ i, good ≤ i → ['\n', '\n'] <+: c.drop i → i + 2 = c.length
  breaks_iff : BreaksPast good c ↔ good + 2 ≤ c.length ∧ ['\n', '\n'] <:+ c

private theorem breaksPast_of_suffix (hlength : good + 2 ≤ c.length) (h : ['\n', '\n'] <:+ c) :
    BreaksPast good c := by
  obtain ⟨before, rfl⟩ := h
  refine ⟨before.length, ?_, ?_, ?_⟩
  · simpa using hlength
  · simp
  · simp

/-- An empty line in a text without a line end past the good size cannot start there. -/
theorem cutAtFirst_of_not_breaksPast (h : ¬BreaksPast good c) : CutAtFirst good c := by
  refine ⟨?_, ?_⟩
  · intro i hgood hprefix
    have hlength := hprefix.length_le
    rw [List.length_drop] at hlength
    have hfeed : ['\n'] <+: c.drop i := List.IsPrefix.trans (by simp) hprefix
    exact absurd ⟨i, hgood, by simp at hlength; omega, lineFeed_prefix_drop_iff.mp hfeed⟩ h
  · constructor
    · intro hbreaks
      exact absurd hbreaks h
    · rintro ⟨hlength, hsuffix⟩
      exact breaksPast_of_suffix hlength hsuffix

private theorem cutAtFirst_take (h : cut? good t = some cut) : CutAtFirst good (t.take cut) := by
  have hbounds := cut?_bounds h
  have htake : (t.take cut).length = cut := by
    rw [List.length_take]
    omega
  rw [cut?, Option.orElse_eq_orElse, Option.orElse_eq_or, Option.or_eq_some_iff] at h
  rcases h with hempty | ⟨-, hline⟩
  · obtain ⟨before, hbefore⟩ := take_cutAfter? hempty
    have hsuffix : ['\n', '\n'] <:+ t.take cut := ⟨before, hbefore.symm⟩
    have hcut := (cutAfter?_bounds hempty).1
    simp only [List.length_cons, List.length_nil] at hcut
    refine ⟨?_, ?_⟩
    · intro i hgood hprefix
      have hle := le_of_cutAfter? hempty hgood (prefix_drop_of_take hprefix)
      have hlength := hprefix.length_le
      rw [List.length_drop] at hlength
      simp only [List.length_cons, List.length_nil] at hle hlength
      omega
    · have hlength : good + 2 ≤ (t.take cut).length := by omega
      exact iff_of_true (breaksPast_of_suffix hlength hsuffix) ⟨hlength, hsuffix⟩
  · apply cutAtFirst_of_not_breaksPast
    apply not_breaksPast_of_forall
    intro i hgood hprefix
    rw [htake]
    exact le_of_cutAfter? hline hgood (prefix_drop_of_take hprefix)

private theorem cutAtFirst_of_cut?_none (h : cut? good t = none) : CutAtFirst good t := by
  rw [cut?, Option.orElse_eq_orElse, Option.orElse_eq_or, Option.or_eq_none_iff] at h
  apply cutAtFirst_of_not_breaksPast
  apply not_breaksPast_of_forall
  intro i hgood hprefix
  exact length_le_of_cutAfter?_none h.2 hgood hprefix

private theorem cutAtFirst_of_mem_splitLong (hc : c ∈ splitLong good most t)
    (hlong : most < c.length) :
    CutAtFirst good c := by
  fun_induction splitLong good most t with
  | case1 t _ cut hcut ih =>
      rcases List.mem_cons.mp hc with rfl | hc
      · exact cutAtFirst_take hcut
      · exact ih hc
  | case2 t _ hcut =>
      rw [List.mem_singleton.mp hc]
      exact cutAtFirst_of_cut?_none hcut
  | case3 => cases hc
  | case4 t hshort _ =>
      rw [List.mem_singleton.mp hc] at hlong
      exact absurd hlong hshort

private theorem cutAtFirst_of_mem_ofText (hc : c ∈ ofText t good most) (hlong : most < c.length) :
    CutAtFirst good c := by
  obtain ⟨chunk, -, hc⟩ := List.mem_flatMap.mp hc
  split at hc
  · exact cutAtFirst_of_mem_splitLong hc hlong
  · next hshort =>
      rw [List.mem_singleton.mp hc] at hlong
      exact absurd hlong hshort

end Long

/-- A chunk above the size limit has a line end past the good size, other than its last character,
exactly if an empty line past the good size ends it; this is then the first such line of the chunk.
In a text without empty lines no chunk above the limit has such a line end. -/
theorem long_chunk_breaksPast_iff (t : Text) (good most : Nat) {c : Text}
    (hc : c ∈ ofText t good most) (hlong : most < c.length) :
    (BreaksPast good c ↔ good + 2 ≤ c.length ∧ ['\n', '\n'] <:+ c) ∧
      (∀ i, good ≤ i → ['\n', '\n'] <+: c.drop i → i + 2 = c.length) ∧
      (¬['\n', '\n'] <:+: t → ¬BreaksPast good c) := by
  have hcut := cutAtFirst_of_mem_ofText hc hlong
  refine ⟨hcut.breaks_iff, hcut.empty_line, ?_⟩
  intro hnone hbreaks
  apply hnone
  have hpart : c <:+: t := by
    rw [← (pieces_ofText t good most).flatten]
    exact List.infix_of_mem_flatten hc
  exact (hcut.breaks_iff.mp hbreaks).2.isInfix.trans hpart

/-- Three lines in front of an empty one that is too far. -/
def farEmptyLine : Text := "aaaa\nbbbb\ncccc\n\ndddd\n".toList

theorem long_chunk_breaksPast_iff_far :
    "aaaa\nbbbb\ncccc\n\n".toList ∈ ofText farEmptyLine 4 8 ∧
      8 < "aaaa\nbbbb\ncccc\n\n".toList.length ∧
      (BreaksPast 4 "aaaa\nbbbb\ncccc\n\n".toList ↔
        4 + 2 ≤ "aaaa\nbbbb\ncccc\n\n".toList.length ∧
          ['\n', '\n'] <:+ "aaaa\nbbbb\ncccc\n\n".toList) := by
  have hc : "aaaa\nbbbb\ncccc\n\n".toList ∈ ofText farEmptyLine 4 8 := by decide +kernel
  have hlong : 8 < "aaaa\nbbbb\ncccc\n\n".toList.length := by decide
  exact ⟨hc, hlong, (long_chunk_breaksPast_iff farEmptyLine 4 8 hc hlong).1⟩

/-- The first chunk is twice as long as the limit allows, and two of its lines end past the good
size. -/
theorem far_empty_line_exceeds_limit :
    ∃ c ∈ ofText farEmptyLine 4 8, 8 < c.length ∧ BreaksPast 4 c := by
  refine ⟨"aaaa\nbbbb\ncccc\n\n".toList, by decide +kernel, by decide, 4, ?_⟩
  decide

end CodeAtlas.Chunk
