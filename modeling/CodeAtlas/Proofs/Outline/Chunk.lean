import CodeAtlas.Outline.Chunk
import CodeAtlas.Proofs.Text.Lines
import CodeAtlas.Proofs.Text.Search

/-!
# Chunks put together

Every stage of chunking regroups the pieces of the stage before, or cuts one of them after a line
feed. What all stages keep is stated once: pieces that give the text when they are put together,
none of them empty, and each but the last ending a line.
-/

namespace CodeAtlas.Chunk

open Text (EndsLine)

/-- Pieces of a text: together they are the text, none is empty, and all but the last end a line. -/
structure Pieces (t : Text) (pieces : List Text) : Prop where
  flatten : pieces.flatten = t
  ne_nil : ∀ p ∈ pieces, p ≠ []
  ends_line : ∀ p ∈ pieces.dropLast, p.getLast? = some '\n'

private theorem getLast?_of_endsLine {t : Text} (h : EndsLine t) (hne : t ≠ []) :
    t.getLast? = some '\n' :=
  h.resolve_left hne

private theorem endsLine_append_iff {s t : Text} (hne : t ≠ []) :
    EndsLine (s ++ t) ↔ EndsLine t := by
  rw [EndsLine, EndsLine, List.getLast?_append, List.getLast?_eq_some_getLast hne]
  simp [hne]

namespace Pieces

theorem nil : Pieces [] [] := ⟨rfl, by simp, by simp⟩

theorem whole (t : Text) : Pieces t (if t = [] then [] else [t]) := by
  split
  · next h => exact h ▸ nil
  · next h => exact ⟨by simp, by simpa using h, by simp⟩

theorem cons {p t : Text} {pieces : List Text} (hp : p ≠ []) (hend : pieces ≠ [] → EndsLine p)
    (h : Pieces t pieces) : Pieces (p ++ t) (p :: pieces) := by
  refine ⟨by rw [List.flatten_cons, h.flatten], List.forall_mem_cons.mpr ⟨hp, h.ne_nil⟩, ?_⟩
  cases pieces with
  | nil => simp
  | cons q rest =>
      rw [List.dropLast_cons_cons]
      exact List.forall_mem_cons.mpr ⟨getLast?_of_endsLine (hend (by simp)) hp, h.ends_line⟩

theorem of_cons {p t : Text} {pieces : List Text} (h : Pieces t (p :: pieces)) :
    p ≠ [] ∧ (pieces ≠ [] → EndsLine p) ∧ t = p ++ pieces.flatten ∧
      Pieces pieces.flatten pieces := by
  obtain ⟨hp, hne⟩ := List.forall_mem_cons.mp h.ne_nil
  refine ⟨hp, ?_, by rw [← h.flatten, List.flatten_cons], rfl, hne, ?_⟩
  · intro hpieces
    obtain ⟨q, rest, rfl⟩ := List.exists_cons_of_ne_nil hpieces
    exact Or.inr (h.ends_line p (by simp))
  · intro q hq
    cases pieces with
    | nil => simp at hq
    | cons r rest => exact h.ends_line q (by rw [List.dropLast_cons_cons]; exact .tail _ hq)

theorem append {s t : Text} {pieces later : List Text} (hs : Pieces s pieces)
    (hend : later ≠ [] → EndsLine s) (ht : Pieces t later) :
    Pieces (s ++ t) (pieces ++ later) := by
  induction pieces generalizing s with
  | nil =>
      rw [← hs.flatten]
      exact ht
  | cons p rest ih =>
      obtain ⟨hp, hpend, rfl, hrest⟩ := hs.of_cons
      rw [List.append_assoc, List.cons_append]
      refine cons hp ?_ (ih hrest ?_)
      · intro hne
        by_cases hr : rest = []
        · subst hr
          simpa using hend hne
        · exact hpend hr
      · intro hlater
        by_cases hr : rest.flatten = []
        · exact Or.inl hr
        · exact (endsLine_append_iff hr).mp (hend hlater)

/-- Cutting every piece into pieces cuts the text into pieces. -/
theorem flatMap {t : Text} {pieces : List Text} {f : Text → List Text} (h : Pieces t pieces)
    (hf : ∀ p ∈ pieces, Pieces p (f p)) : Pieces t (pieces.flatMap f) := by
  induction pieces generalizing t with
  | nil => exact h
  | cons p rest ih =>
      obtain ⟨-, hend, rfl, hrest⟩ := h.of_cons
      obtain ⟨hp, hpieces⟩ := List.forall_mem_cons.mp hf
      rw [List.flatMap_cons]
      refine append hp ?_ (ih hrest hpieces)
      intro hne
      exact hend (by rintro rfl; simp at hne)

end Pieces

section Stages

private theorem pieces_linesWithEnds (t : Text) : Pieces t (Text.linesWithEnds t) := by
  induction t using Text.line_induction with
  | nil => exact Pieces.nil
  | last p hp hne =>
      rw [Text.linesWithEnds_last hp hne]
      simpa [hne] using Pieces.whole p
  | line p t hp ih =>
      rw [Text.linesWithEnds_line hp, ← List.singleton_append, ← List.append_assoc]
      exact ih.cons (by simp) fun _ => Text.endsLine_append_lineFeed p

/-- Lines stay pieces when neighbours are joined up to a drop of the indentation: what the current
piece holds ends a line as long as lines follow. -/
theorem pieces_splitOnDedent {piece t : Text} {lines : List Text} (last : Option Nat)
    (h : Pieces t lines) (hpiece : lines ≠ [] → EndsLine piece) :
    Pieces (piece ++ t) (splitOnDedent piece last lines) := by
  induction lines generalizing piece t last with
  | nil =>
      rw [← h.flatten, List.flatten_nil, List.append_nil]
      exact Pieces.whole piece
  | cons line rest ih =>
      obtain ⟨hline, hend, rfl, hrest⟩ := h.of_cons
      have hjoined : rest ≠ [] → EndsLine (piece ++ line) :=
        fun hne => (endsLine_append_iff hline).mpr (hend hne)
      rw [← List.append_assoc, splitOnDedent]
      split
      · exact ih last hrest hjoined
      · next indent _ =>
          split
          · have hlater := ih (some indent) hrest fun _ => Text.endsLine_nil
            refine hlater.cons (by simp [hline]) ?_
            intro hne
            exact hjoined (by rintro rfl; simp [splitOnDedent] at hne)
          · exact ih (some indent) hrest hjoined

private theorem pieces_joinSmall {chunk t : Text} {pieces : List Text} (good : Nat)
    (h : Pieces t pieces) (hchunk : pieces ≠ [] → EndsLine chunk) :
    Pieces (chunk ++ t) (joinSmall good chunk pieces) := by
  induction pieces generalizing chunk t with
  | nil =>
      rw [← h.flatten, List.flatten_nil, List.append_nil]
      exact Pieces.whole chunk
  | cons piece rest ih =>
      obtain ⟨hpiece, hend, rfl, hrest⟩ := h.of_cons
      rw [joinSmall]
      split
      · next hfull =>
          exact Pieces.cons hfull.1 (fun _ => hchunk (by simp)) (ih hrest hend)
      · rw [← List.append_assoc]
        exact ih hrest fun hne => (endsLine_append_iff hpiece).mpr (hend hne)

theorem take_cutAfter? {t mark : Text} {start cut : Nat} (h : cutAfter? t mark start = some cut) :
    ∃ before, t.take cut = before ++ mark := by
  obtain ⟨⟨before, after⟩, hsplit, h⟩ := Option.bind_eq_some_iff.mp h
  obtain ⟨hlt, hcut⟩ := Option.ite_none_right_eq_some.mp h
  rw [Option.some.injEq] at hcut
  refine ⟨t.take start ++ before, ?_⟩
  have hlength : (t.take start).length = start := by
    rw [List.length_take]
    omega
  calc
    t.take cut = (t.take start ++ (before ++ mark ++ after)).take cut := by
      rw [← Text.eq_append_of_splitOnceText hsplit, List.take_append_drop]
    _ = t.take start ++ before ++ mark := by
      rw [← List.append_assoc, ← List.append_assoc]
      exact List.take_left' (by simp only [List.length_append]; omega)

private theorem endsLine_take_cut? {t : Text} {good cut : Nat} (h : cut? good t = some cut) :
    EndsLine (t.take cut) := by
  rw [cut?, Option.orElse_eq_orElse, Option.orElse_eq_or, Option.or_eq_some_iff] at h
  rcases h with h | ⟨-, h⟩
  · obtain ⟨before, hbefore⟩ := take_cutAfter? h
    rw [hbefore]
    exact Or.inr (by simp)
  · obtain ⟨before, hbefore⟩ := take_cutAfter? h
    rw [hbefore]
    exact Or.inr (by simp)

private theorem pieces_splitLong (good most : Nat) (t : Text) :
    Pieces t (splitLong good most t) := by
  fun_induction splitLong good most t with
  | case1 t hlong cut hcut ih =>
      have hbounds := cut?_bounds hcut
      conv => arg 1; rw [← List.take_append_drop cut t]
      refine ih.cons ?_ fun _ => endsLine_take_cut? hcut
      exact List.ne_nil_of_length_pos (by rw [List.length_take]; omega)
  | case2 t hlong hcut =>
      have hne : t ≠ [] := List.ne_nil_of_length_pos (by omega)
      simpa [hne] using Pieces.whole t
  | case3 hshort => exact Pieces.nil
  | case4 t hshort hne => simpa [hne] using Pieces.whole t

end Stages

theorem pieces_ofText (t : Text) (good most : Nat) : Pieces t (ofText t good most) := by
  have hdedent := pieces_splitOnDedent none (pieces_linesWithEnds t) fun _ => Text.endsLine_nil
  have hjoined := pieces_joinSmall good hdedent fun _ => Text.endsLine_nil
  refine hjoined.flatMap fun chunk hchunk => ?_
  split
  · exact pieces_splitLong good most chunk
  · simpa [hjoined.ne_nil chunk hchunk] using Pieces.whole chunk

/-- Chunking loses nothing and cuts at line ends only, for all sizes. Each cut of a long chunk
leaves less of it on both sides, so that cutting comes to an end; the chunks put together are the
text, no chunk is empty, and every chunk but the last ends with a line feed. -/
theorem ofText_lossless_at_lineEnds (t : Text) (good most : Nat) :
    (∀ chunk cut, cut? good chunk = some cut → 0 < cut ∧ cut < chunk.length) ∧
      (ofText t good most).flatten = t ∧ (∀ c ∈ ofText t good most, c ≠ []) ∧
      ∀ c ∈ (ofText t good most).dropLast, c.getLast? = some '\n' := by
  have h := pieces_ofText t good most
  exact ⟨fun _ _ => cut?_bounds, h.flatten, h.ne_nil, h.ends_line⟩

end CodeAtlas.Chunk
