import CodeAtlas.Proofs.Extract.Ordered
import CodeAtlas.Proofs.Text.Lines

/-!
# Nested sections

The section of a heading ends where the first later heading of the same or a higher level starts, or
with the document. Two sections therefore lie apart or one inside the other. Front matter is listed
in place of what starts inside it.
-/

namespace CodeAtlas.Markdown

variable {text : Text} {symbols : List Symbol} {s t : Symbol} {i j level : Nat} {stop : Point}

def level? (text : Text) (s : Symbol) : Option Nat :=
  if s.kind.isHeading then some (headingLevel (.ofText text) s) else none

/-- A heading with its level and the end of its section. -/
def closed (s : Symbol) (level : Nat) (stop : Point) : Symbol :=
  { s with
    extent := { s.extent with endPoint := stop }
    details := s.details ++ [⟨"heading.level", Text.ofNat level⟩] }

/-- Where the section of the symbol at an index ends. -/
inductive ClosesAt (text : Text) (symbols : List Symbol) (i level : Nat) : Point → Prop
  /-- Where the first later symbol of the same or a higher level starts. -/
  | next {j other : Nat} {t : Symbol} (later : i < j) (listed : symbols[j]? = some t)
      (has_level : level? text t = some other) (le : other ≤ level)
      (first : ∀ k u other, i < k → k < j → symbols[k]? = some u →
        level? text u = some other → level < other) :
      ClosesAt text symbols i level t.extent.startPoint
  /-- Where the text ends, if there is no such symbol. -/
  | last (lower : ∀ k u other, i < k → symbols[k]? = some u →
        level? text u = some other → level < other) :
      ClosesAt text symbols i level (text.pointOf (Utf8.size text))

section Closing

/-- Where the first entry of the same or a higher level starts. -/
def nextStart (eof : Point) (level : Nat) (entries : List (Symbol × Option Nat)) : Point :=
  ((entries.find? fun e => e.2.any (· ≤ level)).map fun e => e.1.extent.startPoint).getD eof

variable {eof : Point} {entries : List (Symbol × Option Nat)}

private theorem length_closeSections : (closeSections eof entries).length = entries.length := by
  have hlength := congrArg List.length (map_closeSections eof entries)
  rwa [List.length_map, List.length_map] at hlength

private theorem getElem?_closeSections_succ (e : Symbol × Option Nat) :
    (closeSections eof (e :: entries))[i + 1]? = (closeSections eof entries)[i]? := by
  obtain ⟨s, level⟩ := e
  cases level with
  | none => rw [closeSections, List.getElem?_cons_succ]
  | some level => rw [closeSections, List.getElem?_cons_succ]

private theorem closeSections_of_none (h : entries[i]? = some (s, none)) :
    (closeSections eof entries)[i]? = some s := by
  induction entries generalizing i with
  | nil => cases h
  | cons e entries ih =>
    cases i with
    | zero =>
      obtain rfl : e = (s, none) := Option.some.inj h
      rfl
    | succ i =>
      rw [getElem?_closeSections_succ]
      exact ih h

private theorem closeSections_of_some (h : entries[i]? = some (s, some level)) :
    (closeSections eof entries)[i]? =
      some (closed s level (nextStart eof level (entries.drop (i + 1)))) := by
  induction entries generalizing i with
  | nil => cases h
  | cons e entries ih =>
    cases i with
    | zero =>
      obtain rfl : e = (s, some level) := Option.some.inj h
      rfl
    | succ i =>
      rw [getElem?_closeSections_succ]
      exact ih h

private theorem closesAt_nextStart (text : Text) (symbols : List Symbol) (i level : Nat) :
    ClosesAt text symbols i level (nextStart (text.pointOf (Utf8.size text)) level
      ((symbols.map fun s => (s, level? text s)).drop (i + 1))) := by
  have hdrop : ((symbols.map fun s => (s, level? text s)).drop (i + 1)).find?
        (fun e => e.2.any (· ≤ level)) =
      ((symbols.drop (i + 1)).find? fun s => (level? text s).any (· ≤ level)).map
        fun s => (s, level? text s) := by
    rw [← List.map_drop, List.find?_map]
    rfl
  rw [nextStart, hdrop]
  cases hfind : (symbols.drop (i + 1)).find? fun s => (level? text s).any (· ≤ level) with
  | none =>
    apply ClosesAt.last
    intro k u other hk hu hother
    have hmem : u ∈ symbols.drop (i + 1) := by
      apply List.mem_of_getElem? (i := k - (i + 1))
      rw [List.getElem?_drop, show i + 1 + (k - (i + 1)) = k by omega, hu]
    have hnot := List.find?_eq_none.mp hfind u hmem
    simpa [hother] using hnot
  | some t =>
    obtain ⟨hany, n, hn, ht, hfirst⟩ := List.find?_eq_some_iff_getElem.mp hfind
    obtain ⟨other, hother, hle⟩ := (Option.any_eq_true _ _).mp hany
    refine ClosesAt.next (j := i + 1 + n) (by omega) ?_ hother (by simpa using hle) ?_
    · rw [← List.getElem?_drop, List.getElem?_eq_getElem hn, ht]
    · intro k u other hik hkj hu hother
      have hk := hfirst (k - (i + 1)) (by omega)
      have hget : (symbols.drop (i + 1))[k - (i + 1)]? = some u := by
        rw [List.getElem?_drop, show i + 1 + (k - (i + 1)) = k by omega, hu]
      rw [(List.getElem?_eq_some_iff.mp hget).2] at hk
      simpa [hother] using hk

end Closing

/-- Symbols in the order of their starts. -/
def StartOrder (symbols : List Symbol) : Prop :=
  symbols.Pairwise fun a b => (compare a.extent.startPoint b.extent.startPoint).isLE = true

section Nesting

theorem StartOrder.le (h : StartOrder symbols) (hij : i ≤ j) (hi : symbols[i]? = some s)
    (hj : symbols[j]? = some t) :
    (compare s.extent.startPoint t.extent.startPoint).isLE = true := by
  rcases Nat.lt_or_eq_of_le hij with hlt | rfl
  · obtain ⟨hi', rfl⟩ := List.getElem?_eq_some_iff.mp hi
    obtain ⟨hj', rfl⟩ := List.getElem?_eq_some_iff.mp hj
    exact List.pairwise_iff_getElem.mp h i j hi' hj' hlt
  · rw [hi] at hj
    obtain rfl : s = t := Option.some.inj hj
    exact Std.ReflCmp.isLE_rfl

variable (hsorted : StartOrder symbols)
  (hinside : ∀ s ∈ symbols,
    (compare s.extent.startPoint (text.pointOf (Utf8.size text))).isLE = true)
include hsorted hinside

omit hsorted in
private theorem ClosesAt.le_end (h : ClosesAt text symbols i level stop) :
    (compare stop (text.pointOf (Utf8.size text))).isLE = true := by
  cases h with
  | next _ listed => exact hinside _ (List.mem_of_getElem? listed)
  | last => exact Std.ReflCmp.isLE_rfl

private theorem ClosesAt.start_le (hi : symbols[i]? = some s)
    (h : ClosesAt text symbols i level stop) :
    (compare s.extent.startPoint stop).isLE = true := by
  cases h with
  | next later listed => exact hsorted.le (Nat.le_of_lt later) hi listed
  | last => exact hinside _ (List.mem_of_getElem? hi)

/-- A later section starts where an earlier one has ended, or it ends inside it. -/
theorem ClosesAt.nested {other : Nat} {stop' : Point} (hij : i < j) (hj : symbols[j]? = some t)
    (hother : level? text t = some other) (h : ClosesAt text symbols i level stop)
    (h' : ClosesAt text symbols j other stop') :
    (compare stop t.extent.startPoint).isLE = true ∨ (compare stop' stop).isLE = true := by
  cases h with
  | last => exact Or.inr (h'.le_end hinside)
  | @next k higher u later listed has_level le first =>
    rcases Nat.lt_or_ge j k with hjk | hkj
    · -- The later section has a lower level, so what ends the earlier one ends it too.
      have hlower : level < other := first j t other hij hjk hj hother
      right
      cases h' with
      | last lower =>
        have := lower k u higher hjk listed has_level
        omega
      | @next m _ v later' listed' has_level' le' first' =>
        have hmk : m ≤ k := by
          by_contra hlt
          have := first' k u higher hjk (Nat.not_le.mp hlt) listed has_level
          omega
        exact hsorted.le hmk listed' listed
    · exact Or.inl (hsorted.le hkj listed hj)

end Nesting

section FrontMatter

private theorem closingEnd?_eq_some {offset stop : Nat} {lines : List Text}
    (h : closingEnd? offset lines = some stop) :
    ∃ inner later, lines = inner ++ later ∧ stop = offset + Utf8.size inner.flatten := by
  induction lines generalizing offset with
  | nil => cases h
  | cons line lines ih =>
    simp only [closingEnd?] at h
    split at h
    · exact ⟨[line], lines, rfl, by simpa using (Option.some.inj h).symm⟩
    · obtain ⟨inner, later, rfl, rfl⟩ := ih h
      refine ⟨line :: inner, later, rfl, ?_⟩
      rw [List.flatten_cons, Utf8.size_append, Nat.add_assoc]

private theorem frontMatterEnd?_eq_some {stop : Nat} (h : frontMatterEnd? text = some stop) :
    ∃ front rest, text = front ++ rest ∧ stop = Utf8.size front := by
  have hflatten := Text.linesWithEnds_flatten text
  rw [frontMatterEnd?] at h
  split at h
  · next first lines hlines =>
    split at h
    · obtain ⟨inner, later, rfl, rfl⟩ := closingEnd?_eq_some h
      refine ⟨(first :: inner).flatten, later.flatten, ?_, ?_⟩
      · rw [← hflatten, hlines, ← List.flatten_append]
        rfl
      · rw [List.flatten_cons, Utf8.size_append]
    · cases h
  · cases h

end FrontMatter

/-- Symbols of which each heading reaches to the first later heading of the same or a higher level,
or to the end of the text, and all others are as they were. -/
structure Closes (text : Text) (kept sections : List Symbol) : Prop where
  length : sections.length = kept.length
  others : ∀ (i : Nat) (s : Symbol), kept[i]? = some s → s.kind.isHeading = false →
    sections[i]? = some s
  headings : ∀ (i : Nat) (s : Symbol), kept[i]? = some s → s.kind.isHeading = true →
    ∃ level stop, level? text s = some level ∧ ClosesAt text kept i level stop ∧
      sections[i]? = some (closed s level stop)

/-- Closed sections in the order of their starts, which lie apart or one inside the other. -/
structure Sectioned (text : Text) (kept sections : List Symbol) : Prop
    extends Closes text kept sections where
  ordered : ∀ s ∈ sections, s.kind.isHeading = true →
    (compare s.extent.startPoint s.extent.endPoint).isLE = true
  nested : ∀ a ∈ sections, ∀ b ∈ sections, a.kind.isHeading = true → b.kind.isHeading = true →
    (compare a.extent.endPoint b.extent.startPoint).isLE = true ∨
      (compare b.extent.endPoint a.extent.startPoint).isLE = true ∨
      a.extent.encloses b.extent = true ∨ b.extent.encloses a.extent = true
  sorted : StartOrder sections

private theorem closes_closeSections (text : Text) (symbols : List Symbol) :
    Closes text symbols (closeSections (text.pointOf (Utf8.size text))
      (symbols.map fun s => (s, level? text s))) where
  length := by rw [length_closeSections, List.length_map]
  others := by
    intro i s hi hs
    apply closeSections_of_none
    rw [List.getElem?_map, hi, Option.map_some, level?, hs]
    rfl
  headings := by
    intro i s hi hs
    refine ⟨headingLevel (.ofText text) s, _, if_pos hs,
      closesAt_nextStart text symbols i (headingLevel (.ofText text) s), closeSections_of_some ?_⟩
    rw [List.getElem?_map, hi, Option.map_some, level?, if_pos hs]

theorem closes_sections (text : Text) (symbols : List Symbol) :
    Closes text (listFrontMatter text (.ofText text) symbols) (sections text symbols) :=
  closes_closeSections text _

namespace Closes

variable {kept sections : List Symbol} (h : Closes text kept sections)
include h

/-- Every heading that is listed was a heading before. -/
theorem exists_heading (ht : sections[i]? = some t) (hheading : t.kind.isHeading = true) :
    ∃ s level stop, kept[i]? = some s ∧ level? text s = some level ∧
      ClosesAt text kept i level stop ∧ t = closed s level stop := by
  have hi : i < kept.length := by
    rw [← h.length]
    exact (List.getElem?_eq_some_iff.mp ht).1
  have hs : kept[i]? = some kept[i] := List.getElem?_eq_getElem hi
  by_cases hkind : kept[i].kind.isHeading = true
  · obtain ⟨level, stop, hlevel, hcloses, hclosed⟩ := h.headings i _ hs hkind
    rw [ht] at hclosed
    exact ⟨_, level, stop, hs, hlevel, hcloses, Option.some.inj hclosed⟩
  · rw [Bool.not_eq_true] at hkind
    have hsame := h.others i _ hs hkind
    rw [ht] at hsame
    rw [Option.some.inj hsame, hkind] at hheading
    cases hheading

variable (hsorted : StartOrder kept)
  (hinside : ∀ s ∈ kept, (compare s.extent.startPoint (text.pointOf (Utf8.size text))).isLE = true)
include hsorted hinside

theorem ordered (ht : t ∈ sections) (hheading : t.kind.isHeading = true) :
    (compare t.extent.startPoint t.extent.endPoint).isLE = true := by
  obtain ⟨i, ht⟩ := List.mem_iff_getElem?.mp ht
  obtain ⟨s, level, stop, hs, -, hcloses, rfl⟩ := h.exists_heading ht hheading
  have hle := hcloses.start_le hsorted hinside hs
  exact hle

private theorem apart_or_encloses {a b : Symbol} (hij : i < j) (ha : sections[i]? = some a)
    (hb : sections[j]? = some b) (haheading : a.kind.isHeading = true)
    (hbheading : b.kind.isHeading = true) :
    (compare a.extent.endPoint b.extent.startPoint).isLE = true ∨
      a.extent.encloses b.extent = true := by
  obtain ⟨s, level, stop, hs, -, hcloses, rfl⟩ := h.exists_heading ha haheading
  obtain ⟨t, other, stop', ht, hother, hcloses', rfl⟩ := h.exists_heading hb hbheading
  have hstart := hsorted.le (Nat.le_of_lt hij) hs ht
  rcases hcloses.nested hsorted hinside hij ht hother hcloses' with hapart | hwithin
  · exact Or.inl hapart
  · right
    rw [Extent.encloses, Bool.and_eq_true, Bool.not_eq_true', Bool.not_eq_true',
      Point.before_eq_false_iff, Point.before_eq_false_iff]
    exact ⟨hstart, hwithin⟩

private theorem nested {a b : Symbol} (ha : a ∈ sections) (hb : b ∈ sections)
    (haheading : a.kind.isHeading = true) (hbheading : b.kind.isHeading = true) :
    (compare a.extent.endPoint b.extent.startPoint).isLE = true ∨
      (compare b.extent.endPoint a.extent.startPoint).isLE = true ∨
      a.extent.encloses b.extent = true ∨ b.extent.encloses a.extent = true := by
  obtain ⟨i, hi⟩ := List.mem_iff_getElem?.mp ha
  obtain ⟨j, hj⟩ := List.mem_iff_getElem?.mp hb
  rcases Nat.lt_trichotomy i j with hij | rfl | hji
  · rcases h.apart_or_encloses hsorted hinside hij hi hj haheading hbheading with hapart | hwithin
    · exact Or.inl hapart
    · exact Or.inr (Or.inr (Or.inl hwithin))
  · rw [hi] at hj
    obtain rfl : a = b := Option.some.inj hj
    have hself : a.extent.encloses a.extent = true := by
      simp [Extent.encloses, Point.before]
    exact Or.inr (Or.inr (Or.inl hself))
  · rcases h.apart_or_encloses hsorted hinside hji hj hi hbheading haheading with hapart | hwithin
    · exact Or.inr (Or.inl hapart)
    · exact Or.inr (Or.inr (Or.inr hwithin))

end Closes

/-- The symbols of which the sections are closed: the given ones, or where the text starts with
front matter a symbol for it and those that do not start before its end. -/
structure Kept (text : Text) (symbols kept : List Symbol) : Prop where
  without : frontMatterEnd? text = none → kept = symbols
  with_front : ∀ stop, frontMatterEnd? text = some stop →
    kept = frontMatterSymbol (text.pointOf stop) ::
      symbols.filter fun s => (compare (text.pointOf stop) s.extent.startPoint).isLE
  front : ∀ stop, frontMatterEnd? text = some stop →
    (∃ before after, text = before ++ after ∧ stop = Utf8.size before) ∧
      ∀ i ≤ Utf8.size text, ((text.pointOf i).before (text.pointOf stop) = true ↔ i < stop)

theorem kept_listFrontMatter (text : Text) (symbols : List Symbol) :
    Kept text symbols (listFrontMatter text (.ofText text) symbols) where
  without := by
    intro hnone
    rw [listFrontMatter, hnone]
  with_front := by
    intro stop hstop
    rw [listFrontMatter, hstop]
    apply congrArg (List.cons _)
    apply List.filter_congr
    intro s _
    rw [Bool.eq_iff_iff, Bool.not_eq_true', Point.before_eq_false_iff]
    rfl
  front := by
    intro stop hstop
    obtain ⟨before, after, rfl, rfl⟩ := frontMatterEnd?_eq_some hstop
    refine ⟨⟨before, after, rfl, rfl⟩, ?_⟩
    intro i hi
    have hfits : Utf8.size before ≤ Utf8.size (before ++ after) := by
      rw [Utf8.size_append]
      omega
    rw [← Bool.not_eq_false, Point.before_eq_false_iff, Text.isLE_compare_pointOf_iff hfits hi,
      Nat.not_le]

private theorem starts_listFrontMatter
    (hinside : ∀ s ∈ symbols,
      (compare s.extent.startPoint (text.pointOf (Utf8.size text))).isLE = true) :
    ∀ s ∈ listFrontMatter text (.ofText text) symbols,
      (compare s.extent.startPoint (text.pointOf (Utf8.size text))).isLE = true := by
  rw [listFrontMatter]
  split
  · refine List.forall_mem_cons.mpr ⟨Point.isLE_compare_origin _, ?_⟩
    intro s hs
    exact hinside s (List.mem_filter.mp hs).1
  · exact hinside

section Checked

private theorem headingLevel?_eq (source : Buffer) (hstart : s.extent.startPoint.row < maxWord)
    (hstop : s.extent.endPoint.row < maxWord) :
    headingLevel? source s = some (headingLevel source s) := by
  have hfirst : addWords? s.extent.startPoint.row 1 = some (s.extent.startPoint.row + 1) :=
    if_pos hstart
  have hlast : addWords? s.extent.endPoint.row 1 = some (s.extent.endPoint.row + 1) := if_pos hstop
  rw [headingLevel?, hfirst]
  simp only [Option.bind_eq_bind, Option.bind_some, hlast]
  split <;> rfl

private theorem mapM_eq_some_map {α β : Type} {f : α → Option β} {g : α → β} {as : List α}
    (h : ∀ a ∈ as, f a = some (g a)) : as.mapM f = some (as.map g) := by
  induction as with
  | nil => rfl
  | cons a as ih =>
      obtain ⟨ha, has⟩ := List.forall_mem_cons.mp h
      rw [List.mapM_cons, ha, ih has]
      rfl

private theorem row_lt_of_isLE (hsize : Utf8.size text < maxWord) {p : Point}
    (h : (compare p (text.pointOf (Utf8.size text))).isLE = true) : p.row < maxWord := by
  have hrow : (text.pointOf (Utf8.size text)).row ≤ Utf8.size text :=
    Nat.le_trans (LineTable.rowOf_le_lastRow _ _) (LineTable.lastRow_le_length _)
  have := Point.isLE_compare_iff.mp h
  omega

private theorem sections?_eq (hsize : Utf8.size text < maxWord)
    (hinside : ∀ s ∈ symbols,
      (compare s.extent.startPoint (text.pointOf (Utf8.size text))).isLE = true ∧
        (compare s.extent.endPoint (text.pointOf (Utf8.size text))).isLE = true) :
    sections? text symbols = some (sections text symbols) := by
  have hlisted : ∀ s ∈ listFrontMatter text (.ofText text) symbols, s.kind.isHeading = true →
      s ∈ symbols := by
    intro s hs hheading
    rw [listFrontMatter] at hs
    split at hs
    · rcases List.mem_cons.mp hs with rfl | hs
      · cases hheading
      · exact (List.mem_filter.mp hs).1
    · exact hs
  rw [sections?, mapM_eq_some_map (g := fun s => (s, level? text s))]
  · rfl
  · intro s hs
    rw [level?]
    split
    · next hheading =>
        obtain ⟨hstart, hstop⟩ := hinside s (hlisted s hs hheading)
        rw [headingLevel?_eq _ (row_lt_of_isLE hsize hstart) (row_lt_of_isLE hsize hstop)]
        rfl
    · rfl

end Checked

/-- For symbols in the order of their starts, none of which starts after the end of the text: front
matter is put in place of the symbols that start before its end, and of the symbols that are then
listed each heading is made to reach to the first later heading of the same or a higher level, or to
the end of the text. No section ends before it starts, two sections lie apart or one inside the
other, the other symbols stay as they are, and all stay in the order of their starts. A caller who
gives symbols that also end in the text gets these sections. -/
theorem sections_exact_and_laminar (text : Text) (symbols : List Symbol)
    (hsorted : StartOrder symbols)
    (hinside : ∀ s ∈ symbols,
      (compare s.extent.startPoint (text.pointOf (Utf8.size text))).isLE = true) :
    (∃ kept, Kept text symbols kept ∧ Sectioned text kept (sections text symbols)) ∧
      (Utf8.size text < maxWord →
        (∀ s ∈ symbols, (compare s.extent.endPoint (text.pointOf (Utf8.size text))).isLE = true) →
        sections? text symbols = some (sections text symbols)) := by
  refine ⟨?_, fun hsize hends => sections?_eq hsize fun s hs => ⟨hinside s hs, hends s hs⟩⟩
  have hkept := kept_listFrontMatter text symbols
  have hsorted := sorted_listFrontMatter text hsorted
  have hinside := starts_listFrontMatter hinside
  have hcloses := closes_sections text symbols
  refine ⟨_, hkept, hcloses, ?_, ?_, ?_⟩
  · intro s hs hheading
    exact hcloses.ordered hsorted hinside hs hheading
  · intro a ha b hb haheading hbheading
    exact hcloses.nested hsorted hinside ha hb haheading hbheading
  · exact sorted_closeSections _ (level? text) hsorted

namespace FourHeadings

/-- Front matter, and headings of the levels 1, 2, 3 and 2. -/
def source : Text := "---\nt: 1\n---\n# A\n\nB\n-\n\n### C\n\n## D\n".toList

private def symbol (name : Char) (kind : SymbolKind) (first last : Nat) : Symbol :=
  ⟨[name], kind, ⟨⟨first, 0⟩, ⟨last, 0⟩⟩, [], ⟨⟨first, 0⟩, ⟨last, 0⟩⟩⟩

def found : List Symbol :=
  [symbol 't' .underlinedHeading 1 3, symbol 'A' .heading 3 4, symbol 'B' .underlinedHeading 5 7,
    symbol 'C' .heading 8 9, symbol 'D' .heading 10 11]

end FourHeadings

open FourHeadings in
theorem sections_exact_and_laminar_front :
    ((StartOrder found ∧ ∀ s ∈ found,
        (compare s.extent.startPoint (source.pointOf (Utf8.size source))).isLE = true) ∧
      Utf8.size source < maxWord ∧ ∀ s ∈ found,
        (compare s.extent.endPoint (source.pointOf (Utf8.size source))).isLE = true) ∧
    (sections source found).map
      (fun s => (s.kind, s.extent.startPoint.row, s.extent.endPoint.row)) =
      [(.frontMatter, 0, 3), (.heading, 3, 11), (.underlinedHeading, 5, 10), (.heading, 8, 10),
        (.heading, 10, 11)] ∧
    (∃ kept, Kept source found kept ∧ Sectioned source kept (sections source found)) ∧
    sections? source found = some (sections source found) := by
  have hsorted : StartOrder found := by
    unfold StartOrder
    decide +kernel
  have hinside : ∀ s ∈ found,
      (compare s.extent.startPoint (source.pointOf (Utf8.size source))).isLE = true := by
    decide +kernel
  have hsize : Utf8.size source < maxWord := by decide +kernel
  have hends : ∀ s ∈ found,
      (compare s.extent.endPoint (source.pointOf (Utf8.size source))).isLE = true := by
    decide +kernel
  obtain ⟨hsectioned, hchecked⟩ := sections_exact_and_laminar source found hsorted hinside
  exact ⟨⟨⟨hsorted, hinside⟩, hsize, hends⟩, by decide +kernel, hsectioned, hchecked hsize hends⟩

end CodeAtlas.Markdown
