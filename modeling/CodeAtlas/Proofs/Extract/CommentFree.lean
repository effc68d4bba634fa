import CodeAtlas.Extract.SourceFile
import CodeAtlas.Proofs.Syntax.Comment
import CodeAtlas.Proofs.Text.Blank
import CodeAtlas.Proofs.Text.Lines
import CodeAtlas.Proofs.Text.Pick
import Mathlib.Data.List.Forall2

/-!
# Sources without comments

Cutting ranges out of a line leaves the characters of the line that no range covers. A run over the
lines meets each range at every line it touches, so a source without its comments holds what lies
outside them: untouched lines as they were, touched lines without what the comments covered.
-/

namespace CodeAtlas

open Utf8 (size size_append)

def rangesFrom (ranges : List (Nat × Nat)) (k : Nat) : List (Nat × Nat) :=
  ranges.filter fun r => decide (k ≤ r.1 ∨ k < r.2)

section Ranges

variable {text : Text} {start stop : Nat} {r : Nat × Nat} {ranges : List (Nat × Nat)}

private theorem coveredBy_cons (r : Nat × Nat) (ranges : List (Nat × Nat)) (k : Nat) :
    coveredBy (r :: ranges) k = (decide (r.1 ≤ k ∧ k < r.2) || coveredBy ranges k) := rfl

namespace Text.Apart

theorem of_cons (h : text.Apart start stop (r :: ranges)) : text.Apart r.2 stop ranges := by
  obtain ⟨hfirst, hapart⟩ := List.pairwise_cons.mp h.apart
  constructor
  case le => exact (h.within r List.mem_cons_self).2.2
  case within =>
    intro r' hr'
    exact ⟨hfirst r' hr', (h.within r' (List.mem_cons_of_mem r hr')).2⟩
  case whole =>
    intro r' hr'
    exact h.whole r' (List.mem_cons_of_mem r hr')
  case apart => exact hapart

private theorem rangesFrom (h : text.Apart start stop ranges) (k : Nat) :
    text.Apart start stop (rangesFrom ranges k) := by
  constructor
  case le => exact h.le
  case within =>
    intro r hr
    exact h.within r (List.mem_filter.mp hr).1
  case whole =>
    intro r hr
    exact h.whole r (List.mem_filter.mp hr).1
  case apart => exact h.apart.filter _

private theorem coveredBy_eq_false (h : text.Apart start stop ranges) {k : Nat} (hk : k < start) :
    coveredBy ranges k = false := by
  rw [coveredBy, List.any_eq_false]
  intro r hr
  have hwithin := h.within r hr
  simp only [decide_eq_true_eq]
  omega

private theorem forall_le (h : text.Apart start stop ranges) {k : Nat} (hk : k ≤ start) :
    ∀ r ∈ ranges, k ≤ r.1 := by
  intro r hr
  exact Nat.le_trans hk (h.within r hr).1

end Text.Apart

private theorem any_eq_false_of_forall_le {k : Nat} (h : ∀ r ∈ ranges, k ≤ r.1) :
    (ranges.any fun r => decide (r.1 < k)) = false := by
  rw [List.any_eq_false]
  intro r hr
  simpa using h r hr

private theorem rangesFrom_of_forall_le {k : Nat} (h : ∀ r ∈ ranges, k ≤ r.1) :
    rangesFrom ranges k = ranges := by
  rw [rangesFrom, List.filter_eq_self]
  intro r hr
  simpa using Or.inl (h r hr)

end Ranges

section Line

private theorem sliceText_line {x line z : Text} {a b : Nat} (ha : (x ++ line ++ z).IsBoundary a)
    (hb : (x ++ line ++ z).IsBoundary b) (hfrom : size x ≤ a) (hto : b ≤ size x + size line) :
    sliceText (Utf8.encode (x ++ line ++ z)) a b =
      line.pick (fun i => decide (a ≤ i) && decide (i < b)) (size x) := by
  rw [sliceText, ha.decode?_slice hb, Option.getD_some]
  apply Text.pick_middle
  · intro i hi
    simp [show ¬a ≤ i by omega]
  · intro i hi
    simp [show ¬i < b by omega]

section Kept

variable {text line : Text} {k stop cursor first last : Nat} {rest : List (Nat × Nat)}
  (hrest : text.Apart last stop rest)
include hrest

private theorem pick_before_range (hle : first ≤ last) (hpast : k + size line ≤ first) :
    line.pick (fun i => decide (cursor ≤ i) && decide (i < k + size line)) k =
      line.pick (fun i => decide (cursor ≤ i) && !coveredBy ((first, last) :: rest) i) k := by
  apply Text.pick_congr
  intro i _ hi
  have hlater := hrest.coveredBy_eq_false (show i < last by omega)
  simp [coveredBy_cons, hlater, hi, show ¬first ≤ i by omega]

private theorem pick_through_range (hover : k + size line < last) :
    line.pick (fun i => decide (cursor ≤ i) && decide (i < max first k)) k =
      line.pick (fun i => decide (cursor ≤ i) && !coveredBy ((first, last) :: rest) i) k := by
  apply Text.pick_congr
  intro i _ hi
  have hlater := hrest.coveredBy_eq_false (show i < last by omega)
  have hlast : i < last := by omega
  rw [coveredBy_cons, hlater, Bool.or_false, Bool.eq_iff_iff]
  simp only [Bool.and_eq_true, decide_eq_true_eq, Bool.not_eq_true', decide_eq_false_iff_not]
  omega

private theorem pick_around_range (hle : first ≤ last) (hfrom : k ≤ cursor)
    (hreach : cursor ≤ max first k) :
    line.pick (fun i => decide (cursor ≤ i) && decide (i < max first k)) k ++
        line.pick (fun i => decide (max cursor last ≤ i) && !coveredBy rest i) k =
      line.pick (fun i => decide (cursor ≤ i) && !coveredBy ((first, last) :: rest) i) k := by
  rw [Text.pick_split (fun i => decide (cursor ≤ i) && !coveredBy ((first, last) :: rest) i) k
    (max cursor last)]
  congr 1
  · apply Text.pick_congr
    intro i _ _
    by_cases hi : i < last
    · rw [coveredBy_cons, hrest.coveredBy_eq_false hi, Bool.or_false, Bool.eq_iff_iff]
      simp only [Bool.and_eq_true, decide_eq_true_eq, Bool.not_eq_true', decide_eq_false_iff_not]
      omega
    · rw [Bool.eq_iff_iff]
      simp only [Bool.and_eq_true, decide_eq_true_eq]
      omega
  · apply Text.pick_congr
    intro i _ _
    by_cases hi : max cursor last ≤ i
    · simp [coveredBy_cons, hi, show cursor ≤ i by omega, show ¬i < last by omega]
    · simp [hi]

end Kept

/-- Cutting ranges out of a line leaves, from the cursor on, the characters that no range covers;
the ranges that start at the end of the line or go past it are left for later. -/
theorem cutLine_eq {x line z : Text} {start stop cursor : Nat} {ranges : List (Nat × Nat)}
    (hranges : (x ++ line ++ z).Apart start stop ranges)
    (hcursor : (x ++ line ++ z).IsBoundary cursor) (hfrom : size x ≤ cursor)
    (hto : cursor ≤ size x + size line) (hahead : ∀ r ∈ ranges, cursor ≤ max r.1 (size x)) :
    cutLine (Utf8.encode (x ++ line ++ z)) (size x) (size x + size line) cursor ranges =
      ⟨line.pick (fun i => decide (cursor ≤ i) && !coveredBy ranges i) (size x),
        ranges.any (fun r => decide (r.1 < size x + size line)),
        rangesFrom ranges (size x + size line)⟩ := by
  have hstart : (x ++ line ++ z).IsBoundary (size x) := by
    rw [List.append_assoc]
    exact Text.isBoundary_append x (line ++ z)
  have hstop : (x ++ line ++ z).IsBoundary (size x + size line) := by
    rw [← size_append]
    exact Text.isBoundary_append (x ++ line) z
  induction ranges generalizing cursor start with
  | nil =>
    have hkept : line.pick (fun i => decide (cursor ≤ i) && decide (i < size x + size line))
        (size x) = line.pick (fun i => decide (cursor ≤ i) && !coveredBy [] i) (size x) := by
      apply Text.pick_congr
      intro i _ hi
      simp [hi, coveredBy]
    rw [cutLine, sliceText_line hcursor hstop hfrom (Nat.le_refl _), hkept]
    rfl
  | cons r rest ih =>
    obtain ⟨first, last⟩ := r
    have hle : first ≤ last := (hranges.within _ List.mem_cons_self).2.1
    obtain ⟨hfirst, hlast⟩ := hranges.whole _ List.mem_cons_self
    have hrest : (x ++ line ++ z).Apart last stop rest := hranges.of_cons
    have hreach : cursor ≤ max first (size x) := hahead _ List.mem_cons_self
    rw [cutLine]
    by_cases hpast : size x + size line ≤ first
    · -- the line ends before the range
      have hlater : ∀ r ∈ (first, last) :: rest, size x + size line ≤ r.1 := by
        rw [List.forall_mem_cons]
        exact ⟨hpast, hrest.forall_le (Nat.le_trans hpast hle)⟩
      rw [if_pos hpast, sliceText_line hcursor hstop hfrom (Nat.le_refl _),
        pick_before_range hrest hle hpast, any_eq_false_of_forall_le hlater,
        rangesFrom_of_forall_le hlater]
    · have htouched : (((first, last) :: rest).any fun r => decide (r.1 < size x + size line)) =
          true := by
        simp [show first < size x + size line by omega]
      have hfront : (x ++ line ++ z).IsBoundary (max first (size x)) := by
        rcases Nat.le_total first (size x) with h | h
        · rwa [Nat.max_eq_right h]
        · rwa [Nat.max_eq_left h]
      rw [if_neg hpast, htouched, sliceText_line hcursor hfront hfrom (by omega)]
      dsimp only
      by_cases hover : size x + size line < last
      · -- the range goes on in the next line
        have hlater : rangesFrom ((first, last) :: rest) (size x + size line) =
            (first, last) :: rest := by
          rw [rangesFrom, List.filter_cons_of_pos (by simpa using Or.inr hover)]
          exact congrArg _ (rangesFrom_of_forall_le (hrest.forall_le (Nat.le_of_lt hover)))
        have hend : max cursor (min last (size x + size line)) = size x + size line := by omega
        have hempty : sliceText (Utf8.encode (x ++ line ++ z)) (size x + size line)
            (size x + size line) = [] := by
          rw [sliceText, Bytes.slice, Nat.sub_self, List.take_zero]
          rfl
        rw [if_pos hover, hend, hempty, List.append_nil, pick_through_range hrest hover,
          hlater]
      · -- the range ends in this line, which is cut further from there on
        have hnext : max cursor (min last (size x + size line)) = max cursor last := by omega
        have hboundary : (x ++ line ++ z).IsBoundary (max cursor last) := by
          rcases Nat.le_total cursor last with h | h
          · rwa [Nat.max_eq_right h]
          · rwa [Nat.max_eq_left h]
        have hgone : rangesFrom ((first, last) :: rest) (size x + size line) =
            rangesFrom rest (size x + size line) := by
          apply List.filter_cons_of_neg
          simpa using ⟨Nat.lt_of_not_le hpast, Nat.le_of_not_lt hover⟩
        have hrestAhead : ∀ r ∈ rest, max cursor last ≤ max r.1 (size x) := by
          intro r hr
          have hafter := hrest.forall_le (Nat.le_refl last) r hr
          omega
        rw [if_neg hover, hnext, ih hrest hboundary (by omega) (by omega) hrestAhead,
          pick_around_range hrest hle hfrom hreach, hgone]

end Line

section Lines

variable {text : Text} {start stop : Nat} {ranges : List (Nat × Nat)}

/-- Some lines with the offsets at which they start, the first at `k`. -/
def placedLines (k : Nat) : List Text → List (Nat × Text)
  | [] => []
  | line :: rest => (k, line) :: placedLines (k + size line) rest

/-- What is shown of a line that starts at `k` when ranges are cut out. -/
def shownLine (ranges : List (Nat × Nat)) (k : Nat) (line : Text) : Text :=
  if touchedBy ranges k (k + size line) then
    if Text.isBlank (line.pick (fun i => !coveredBy ranges i) k) then []
    else Text.trimEnd (line.pick (fun i => !coveredBy ranges i) k) ++ lineEnding line
  else line

private theorem coveredBy_rangesFrom {k i : Nat} (h : k ≤ i) :
    coveredBy (rangesFrom ranges k) i = coveredBy ranges i := by
  rw [coveredBy, rangesFrom, List.any_filter, coveredBy]
  congr 1
  funext r
  rw [Bool.eq_iff_iff]
  simp only [Bool.and_eq_true, decide_eq_true_eq]
  omega

private theorem rangesFrom_rangesFrom {k l : Nat} (h : k ≤ l) :
    rangesFrom (rangesFrom ranges k) l = rangesFrom ranges l := by
  rw [rangesFrom, rangesFrom, List.filter_filter, rangesFrom]
  congr 1
  funext r
  rw [Bool.eq_iff_iff]
  simp only [Bool.and_eq_true, decide_eq_true_eq]
  omega

private theorem any_rangesFrom (k l : Nat) :
    ((rangesFrom ranges k).any fun r => decide (r.1 < l)) = touchedBy ranges k l := by
  rw [rangesFrom, List.any_filter, touchedBy]
  congr 1
  funext r
  rw [Bool.eq_iff_iff]
  simp only [Bool.and_eq_true, decide_eq_true_eq]
  omega

/-- One line of a run: the ranges that concern it and what follows are cut, and those that concern
what follows it are handed on. -/
theorem cutLine_rangesFrom {x line z : Text} (hranges : (x ++ line ++ z).Apart start stop ranges) :
    cutLine (Utf8.encode (x ++ line ++ z)) (size x) (size x + size line) (size x)
        (rangesFrom ranges (size x)) =
      ⟨line.pick (fun i => !coveredBy ranges i) (size x),
        touchedBy ranges (size x) (size x + size line),
        rangesFrom ranges (size x + size line)⟩ := by
  have hstart : (x ++ line ++ z).IsBoundary (size x) := by
    rw [List.append_assoc]
    exact Text.isBoundary_append x (line ++ z)
  have hkept : line.pick (fun i => decide (size x ≤ i) && !coveredBy (rangesFrom ranges (size x)) i)
      (size x) = line.pick (fun i => !coveredBy ranges i) (size x) := by
    apply Text.pick_congr
    intro i hi _
    rw [coveredBy_rangesFrom hi]
    simp [hi]
  rw [cutLine_eq (hranges.rangesFrom _) hstart (Nat.le_refl _) (Nat.le_add_right _ _)
    (fun r _ => Nat.le_max_right r.1 _), any_rangesFrom, hkept,
    rangesFrom_rangesFrom (Nat.le_add_right _ _)]

/-- A run over lines shows each of them without the ranges. -/
theorem cutLines_eq {x : Text} {lines : List Text} (htext : text = x ++ lines.flatten)
    (hranges : text.Apart start stop ranges) :
    cutLines (Utf8.encode text) (size x) (rangesFrom ranges (size x)) lines =
      (placedLines (size x) lines).flatMap fun p => shownLine ranges p.1 p.2 := by
  induction lines generalizing x with
  | nil => rfl
  | cons line rest ih =>
    have hsplit : text = x ++ line ++ rest.flatten := by
      rw [htext, List.flatten_cons, List.append_assoc]
    have hstep := ih hsplit
    rw [size_append] at hstep
    rw [hsplit] at hranges
    rw [cutLines, placedLines, List.flatMap_cons, ← hstep]
    dsimp only
    rw [hsplit, cutLine_rangesFrom hranges]
    rfl

private theorem rangesFrom_zero (ranges : List (Nat × Nat)) : rangesFrom ranges 0 = ranges :=
  rangesFrom_of_forall_le fun _ _ => Nat.zero_le _

private theorem map_placedLines (k : Nat) (lines : List Text) :
    ((placedLines k lines).map (·.2)) = lines := by
  induction lines generalizing k with
  | nil => rfl
  | cons line rest ih => rw [placedLines, List.map_cons, ih]

end Lines

/-- The lines of a document, each shown without the comments. -/
def Document.shownLines (d : Document) : List Text :=
  (placedLines 0 (Text.linesWithEnds d.text)).map fun p => shownLine d.tree.commentRanges p.1 p.2

private theorem Document.commentFree_eq {d : Document} (hsource : d.source = .ofText d.text)
    (htree : d.tree.WellFormed d.text) : d.commentFree = d.shownLines.flatten := by
  have hlines : d.text = [] ++ (Text.linesWithEnds d.text).flatten :=
    (Text.linesWithEnds_flatten d.text).symm
  have hrun := cutLines_eq hlines (d.tree.apart_commentRanges htree)
  rw [show size ([] : Text) = 0 from rfl, rangesFrom_zero] at hrun
  rw [shownLines, ← List.flatMap_def, Document.commentFree]
  split
  case h_1 hnone =>
    -- nothing is cut, and each line is shown as it is
    rw [hnone]
    change d.text = (placedLines 0 (Text.linesWithEnds d.text)).flatMap (·.2)
    rw [List.flatMap_def, map_placedLines, Text.linesWithEnds_flatten]
  case h_2 =>
    rw [hsource]
    exact hrun

namespace Text

def visible (t : Text) : Text := t.filter fun c => !blankChar c

private theorem visible_append (s t : Text) : visible (s ++ t) = visible s ++ visible t :=
  List.filter_append ..

private theorem visible_eq_nil {t : Text} (h : isBlank t = true) : visible t = [] := by
  rw [visible, List.filter_eq_nil_iff]
  intro c hc
  simpa using List.all_eq_true.mp h c hc

private theorem visible_trimEnd (t : Text) : visible (trimEnd t) = visible t := by
  obtain ⟨blank, hblank, heq⟩ := exists_trimEnd t
  conv_rhs => rw [← heq, visible_append, visible_eq_nil hblank, List.append_nil]

private theorem trimEnd_sublist (t : Text) : (trimEnd t).Sublist t := by
  obtain ⟨blank, -, heq⟩ := exists_trimEnd t
  conv_rhs => rw [← heq]
  exact List.sublist_append_left _ _

private theorem size_le_of_sublist {s t : Text} (h : s.Sublist t) : size s ≤ size t := by
  induction h with
  | slnil => exact Nat.le_refl _
  | @cons s t c _ ih =>
    rw [size_cons c t]
    exact Nat.le_trans ih (Nat.le_add_left _ _)
  | @cons_cons s t c _ ih =>
    rw [size_cons c s, size_cons c t]
    exact Nat.add_le_add_left ih _

end Text

section Shown

variable {ranges : List (Nat × Nat)} {k : Nat} {line : Text}

private theorem visible_lineEnding (line : Text) : Text.visible (lineEnding line) = [] := by
  rw [lineEnding]
  split <;> rfl

private theorem trimEnd_append_lineEnding_sublist {u : Text} (h : u.Sublist line) :
    (Text.trimEnd u ++ lineEnding line).Sublist line := by
  rw [lineEnding]
  split
  case isTrue hlast =>
    obtain ⟨body, rfl⟩ := List.getLast?_eq_some_iff.mp hlast
    obtain ⟨u₁, u₂, rfl, hbody, hfeed⟩ := List.sublist_append_iff.mp h
    have htrim : Text.trimEnd (u₁ ++ u₂) = Text.trimEnd u₁ := by
      rcases List.sublist_cons_iff.mp hfeed with hnil | ⟨r, rfl, hnil⟩
      · rw [List.sublist_nil.mp hnil, List.append_nil]
      · rw [List.sublist_nil.mp hnil, Text.trimEnd_append_blank rfl]
    rw [htrim]
    exact ((Text.trimEnd_sublist u₁).trans hbody).append (List.Sublist.refl _)
  case isFalse =>
    rw [List.append_nil]
    exact (Text.trimEnd_sublist u).trans h

private theorem shownLine_sublist (ranges : List (Nat × Nat)) (k : Nat) (line : Text) :
    (shownLine ranges k line).Sublist line := by
  rw [shownLine]
  split
  · split
    · exact List.nil_sublist line
    · exact trimEnd_append_lineEnding_sublist (Text.pick_sublist _ k line)
  · exact List.Sublist.refl line

private theorem coveredBy_of_not_touchedBy {stop i : Nat} (h : touchedBy ranges k stop = false)
    (hk : k ≤ i) (hi : i < stop) : coveredBy ranges i = false := by
  rw [coveredBy, List.any_eq_false]
  intro r hr
  have htouch := List.any_eq_false.mp h r hr
  simp only [decide_eq_true_eq] at htouch ⊢
  omega

private theorem visible_shownLine (ranges : List (Nat × Nat)) (k : Nat) (line : Text) :
    Text.visible (shownLine ranges k line) =
      Text.visible (line.pick (fun i => !coveredBy ranges i) k) := by
  rw [shownLine]
  split
  case isTrue =>
    split
    case isTrue hblank => rw [Text.visible_eq_nil hblank]; rfl
    case isFalse =>
      rw [Text.visible_append, visible_lineEnding, List.append_nil, Text.visible_trimEnd]
  case isFalse htouched =>
    rw [Bool.not_eq_true] at htouched
    rw [Text.pick_eq_self]
    intro i hk hi
    rw [coveredBy_of_not_touchedBy htouched hk hi]
    rfl

/-- Line by line, a run shows what no range covers and takes nothing from elsewhere. -/
theorem visible_shownLines (ranges : List (Nat × Nat)) (k : Nat) (lines : List Text) :
    Text.visible ((placedLines k lines).map fun p => shownLine ranges p.1 p.2).flatten =
      Text.visible (Text.pick (fun i => !coveredBy ranges i) k lines.flatten) := by
  induction lines generalizing k with
  | nil => rfl
  | cons line rest ih =>
    rw [placedLines, List.map_cons, List.flatten_cons, Text.visible_append, ih, visible_shownLine,
      List.flatten_cons, Text.pick_append, Text.visible_append]

private theorem shownLines_sublist (ranges : List (Nat × Nat)) (k : Nat) (lines : List Text) :
    ((placedLines k lines).map fun p => shownLine ranges p.1 p.2).flatten.Sublist
      lines.flatten := by
  induction lines generalizing k with
  | nil => exact List.Sublist.refl []
  | cons line rest ih =>
    rw [placedLines, List.map_cons, List.flatten_cons, List.flatten_cons]
    exact (shownLine_sublist ranges k line).append (ih _)

end Shown

/-- How a line that starts at `k` is shown without the comments of a tree: as it is if no comment
touches it, and else without what the comments cover, or not at all if that leaves only blanks. -/
structure Tree.Shows (t : Tree) (k : Nat) (line shown : Text) : Prop where
  untouched : t.commentTouches k (k + size line) = false → shown = line
  dropped : t.commentTouches k (k + size line) = true →
    (shown = [] ↔ Text.isBlank (line.pick (fun i => !t.inComment i) k) = true)
  cut : t.commentTouches k (k + size line) = true →
    Text.isBlank (line.pick (fun i => !t.inComment i) k) = false →
    shown = Text.trimEnd (line.pick (fun i => !t.inComment i) k) ++ lineEnding line

private theorem Text.trimEnd_ne_nil {t : Text} (h : isBlank t = false) : trimEnd t ≠ [] := by
  intro hnil
  obtain ⟨blank, hblank, heq⟩ := exists_trimEnd t
  rw [hnil, List.nil_append] at heq
  rw [← heq, hblank] at h
  cases h

private theorem Tree.shows_shownLine {t : Tree} {text : Text} (ht : t.WellFormed text) (k : Nat)
    (line : Text) : t.Shows k line (shownLine t.commentRanges k line) := by
  have hcover : (fun i => !t.inComment i) = fun i => !coveredBy t.commentRanges i := by
    funext i
    rw [ht.inComment_eq]
  constructor
  case untouched =>
    intro h
    rw [commentTouches_eq] at h
    rw [shownLine, h]
    rfl
  case dropped =>
    intro h
    rw [commentTouches_eq] at h
    rw [shownLine, if_pos h, hcover]
    split
    case isTrue hblank => simp [hblank]
    case isFalse hblank =>
      rw [Bool.not_eq_true] at hblank
      simp [Text.trimEnd_ne_nil hblank, hblank]
  case cut =>
    intro h hblank
    rw [commentTouches_eq] at h
    rw [hcover] at hblank
    rw [shownLine, if_pos h, hcover, hblank]
    rfl

/-- A file without its comments holds the visible characters outside them and no others; lines that
no comment touches stand as they were, and of a touched line what is left, if that is not blank. -/
theorem SourceFile.commentFree_removes_only_comments (grammars : Grammars) (f : SourceFile)
    (tree : Tree) (hread : grammars f.language f.text = some tree)
    (htree : tree.WellFormed f.text) :
    ∃ shown : List Text, f.commentFree grammars = .ok shown.flatten ∧
      List.Forall₂ (fun line piece => tree.Shows line.1 line.2 piece)
        (placedLines 0 (Text.linesWithEnds f.text)) shown ∧
      Text.visible shown.flatten = Text.visible (f.text.pick (fun i => !tree.inComment i) 0) ∧
      shown.flatten.Sublist f.text ∧ size shown.flatten ≤ size f.text := by
  have hcover : (fun i => !tree.inComment i) = fun i => !coveredBy tree.commentRanges i := by
    funext i
    rw [htree.inComment_eq]
  have hfree : f.commentFree grammars =
      .ok (Document.commentFree ⟨f.language, f.text, .ofText f.text, tree⟩) := by
    rw [commentFree]
    change (do return (← Document.read grammars f.language f.text).commentFree) = _
    rw [Document.read, hread]
    rfl
  have hpart := shownLines_sublist tree.commentRanges 0 (Text.linesWithEnds f.text)
  rw [Text.linesWithEnds_flatten] at hpart
  refine ⟨Document.shownLines ⟨f.language, f.text, .ofText f.text, tree⟩, ?_, ?_, ?_, hpart,
    Text.size_le_of_sublist hpart⟩
  · rw [hfree, Document.commentFree_eq rfl htree]
  · rw [Document.shownLines, List.forall₂_map_right_iff, List.forall₂_same]
    intro line _
    exact Tree.shows_shownLine htree line.1 line.2
  · have hvisible := visible_shownLines tree.commentRanges 0 (Text.linesWithEnds f.text)
    rw [Text.linesWithEnds_flatten] at hvisible
    rw [hcover]
    exact hvisible

namespace MixedComments

/-- Two comments in one line, a line that holds nothing else, a comment over two lines with code
after it, a line without comments, and a last line that no line feed ends. -/
def file : SourceFile where
  path := ⟨"a.go".toList⟩
  language := .go
  text := "α /* x */ b // y \n  // z\n/* one\n two */ c \nd \ne // f".toList

def tree : Tree :=
  .named "source_file" 0 53 "" [
    .named "statement" 0 12 "" [
      .named "identifier" 0 2 "" [],
      .named "comment" 3 10 "" []],
    .named "comment" 13 18 "" [],
    .named "comment" 21 25 "" [],
    .named "block_comment" 26 40 "" [
      .named "doc_comment" 28 32 "" []],
    .named "identifier" 41 42 "" [],
    .named "identifier" 44 45 "" [],
    .named "identifier" 47 48 "" [],
    .named "comment" 49 53 "" []]

def grammars : Grammars := fun _ _ => some tree

end MixedComments

open MixedComments in
theorem SourceFile.commentFree_removes_only_comments_mixed :
    grammars file.language file.text = some tree ∧ tree.WellFormed file.text ∧
      file.commentFree grammars = .ok "α  b\n c\nd \ne".toList ∧
      ∃ shown : List Text, file.commentFree grammars = .ok shown.flatten ∧
        List.Forall₂ (fun line piece => tree.Shows line.1 line.2 piece)
          (placedLines 0 (Text.linesWithEnds file.text)) shown ∧
        Text.visible shown.flatten = Text.visible (file.text.pick (fun i => !tree.inComment i) 0) ∧
        shown.flatten.Sublist file.text ∧ size shown.flatten ≤ size file.text :=
  ⟨rfl, by decide +kernel, by decide +kernel,
    SourceFile.commentFree_removes_only_comments grammars file tree rfl (by decide +kernel)⟩

end CodeAtlas
