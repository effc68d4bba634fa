import CodeAtlas.Proofs.Extract.Region
import CodeAtlas.Proofs.Position.Order
import CodeAtlas.Proofs.Text.Blank

/-!
# Results in order

Signatures and symbols come in the order of their places, and each of them lies inside the text.
Embedded regions are shifted to places of their host, and the sections of a document are closed at
the start of a later heading or at the end; both keep the order and the bounds.
-/

namespace CodeAtlas

/-- The points of a byte of a text and of the same or a later one. -/
def Extent.Marks (text : Text) (e : Extent) : Prop :=
  ∃ i j, i ≤ j ∧ j ≤ Utf8.size text ∧ e = ⟨text.pointOf i, text.pointOf j⟩

/-- An extent that ends neither before it starts nor after the text does. -/
structure Extent.Inside (text : Text) (e : Extent) : Prop where
  ordered : (compare e.startPoint e.endPoint).isLE = true
  fits : (compare e.endPoint (text.pointOf (Utf8.size text))).isLE = true

section Marks

variable {text : Text} {e : Extent} {i j : Nat}

theorem Text.isLE_compare_pointOf_iff (hi : i ≤ Utf8.size text) (hj : j ≤ Utf8.size text) :
    (compare (text.pointOf i) (text.pointOf j)).isLE = true ↔ i ≤ j :=
  LineTable.isLE_compare_pointOf_iff (Utf8.encode text) hi hj

theorem Span.Located.marks {s : Span} (h : s.Located text) : (Extent.ofSpan s).Marks text := by
  refine ⟨s.startByte, s.endByte, h.ordered, h.ends.le_size, ?_⟩
  rw [Extent.ofSpan, h.start_point, h.end_point]

theorem Extent.Marks.inside (h : e.Marks text) : e.Inside text := by
  obtain ⟨i, j, hordered, hfits, rfl⟩ := h
  constructor
  · exact (Text.isLE_compare_pointOf_iff (Nat.le_trans hordered hfits) hfits).mpr hordered
  · exact (Text.isLE_compare_pointOf_iff hfits (Nat.le_refl _)).mpr hfits

private theorem Region.marks_shiftExtent {host : Document} {r : Region} (hhost : host.WellFormed)
    (hr : r.Within host) (he : e.Marks r.text) : (r.shiftExtent e).Marks host.text := by
  obtain ⟨i, j, hordered, hfits, rfl⟩ := he
  have hend : r.span.endByte ≤ Utf8.size host.text := hr.located.ends.le_size
  have hregion := hr.size
  have hpoint {k : Nat} (hk : k ≤ Utf8.size r.text) :
      r.shiftPoint (r.text.pointOf k) = host.text.pointOf (r.span.startByte + k) := by
    rw [← pointOf_add hhost hr hk, hhost.source]
    rfl
  refine ⟨r.span.startByte + i, r.span.startByte + j, by omega, by omega, ?_⟩
  rw [← hpoint (Nat.le_trans hordered hfits), ← hpoint hfits]
  rfl

end Marks

section Signatures

variable {signatures : List Signature}

/-- A text that says something and does not end in a blank. -/
structure Text.Trimmed (t : Text) : Prop where
  not_blank : isBlank t = false
  last : ∀ c, t.getLast? = some c → blankChar c = false

/-- Signatures of a text by start, end and content, each content once. -/
structure Signature.Listed (text : Text) (signatures : List Signature) : Prop where
  sorted : signatures.Pairwise fun a b =>
    ((compare a.extent.startPoint b.extent.startPoint).then
      ((compare a.extent.endPoint b.extent.endPoint).then
        (compare a.content b.content))).isLE = true
  distinct : (signatures.map (·.content)).Nodup
  trimmed : ∀ s ∈ signatures, s.content.Trimmed
  inside : ∀ s ∈ signatures, s.extent.Inside text

private theorem Signature.sorted_distinct (signatures : List Signature) :
    (distinct signatures).Pairwise fun a b =>
      ((compare a.extent.startPoint b.extent.startPoint).then
        ((compare a.extent.endPoint b.extent.endPoint).then
          (compare a.content b.content))).isLE = true := by
  have hsorted := (pairwise_sortBy_place extent content signatures).sublist
    (eraseDupsBy_sublist (fun a b => a.content == b.content) _)
  apply hsorted.imp
  intro a b hab
  rw [← Ordering.then_assoc]
  exact hab

private theorem Signature.nodup_distinct (signatures : List Signature) :
    ((distinct signatures).map (·.content)).Nodup := by
  rw [List.Nodup, List.pairwise_map]
  apply (pairwise_eraseDupsBy (fun a b : Signature => a.content == b.content) _).imp
  intro a b hab hsame
  rw [hsame, beq_self_eq_true] at hab
  cases hab

private theorem Signature.listed_distinct {text : Text}
    (h : ∀ s ∈ signatures, s.content.Trimmed ∧ s.extent.Marks text) :
    Listed text (distinct signatures) where
  sorted := sorted_distinct signatures
  distinct := nodup_distinct signatures
  trimmed := fun s hs => (h s (mem_of_mem_distinct hs)).1
  inside := fun s hs => (h s (mem_of_mem_distinct hs)).2.inside

end Signatures

section Symbols

variable {text : Text} {symbols : List Symbol}

/-- Symbols of a text by start, none without a name. -/
structure Symbol.Listed (text : Text) (symbols : List Symbol) : Prop where
  sorted : symbols.Pairwise fun a b =>
    (compare a.extent.startPoint b.extent.startPoint).isLE = true
  named : ∀ s ∈ symbols, s.content ≠ []
  inside : ∀ s ∈ symbols, s.extent.Inside text

/-- The same of symbols whose ends are known as bytes. Closing the sections of a text keeps it. -/
structure Symbol.InOrder (text : Text) (symbols : List Symbol) : Prop where
  sorted : symbols.Pairwise fun a b =>
    (compare a.extent.startPoint b.extent.startPoint).isLE = true
  named : ∀ s ∈ symbols, s.content ≠ []
  marks : ∀ s ∈ symbols, s.extent.Marks text

theorem Symbol.InOrder.listed (h : InOrder text symbols) : Listed text symbols :=
  ⟨h.sorted, h.named, fun s hs => (h.marks s hs).inside⟩

private theorem Symbol.sorted_sortBy (symbols : List Symbol) :
    (sortBy Symbol.le symbols).Pairwise fun a b =>
      (compare a.extent.startPoint b.extent.startPoint).isLE = true := by
  apply (pairwise_sortBy_place extent content symbols).imp
  intro a b hab
  have hextent := (Ordering.isLE_then_iff_and.mp hab).1
  exact (Ordering.isLE_then_iff_and.mp hextent).1

end Symbols

namespace Markdown

variable {text : Text} {entries : List (Symbol × Option Nat)} {symbols : List Symbol}

/-- Closing a section moves neither its name nor its start. -/
theorem map_closeSections (eof : Point) (entries : List (Symbol × Option Nat)) :
    (closeSections eof entries).map (fun s => (s.content, s.extent.startPoint)) =
      entries.map fun e => (e.1.content, e.1.extent.startPoint) := by
  induction entries with
  | nil => rfl
  | cons e entries ih =>
    obtain ⟨s, level⟩ := e
    cases level with
    | none => simp only [closeSections, List.map_cons, ih]
    | some level => simp only [closeSections, List.map_cons, ih]

/-- A section ends at a place of the text that is not before its start. -/
theorem marks_closeSections
    (hsorted : entries.Pairwise fun a b =>
      (compare a.1.extent.startPoint b.1.extent.startPoint).isLE = true)
    (hmarks : ∀ e ∈ entries, e.1.extent.Marks text) :
    ∀ s ∈ closeSections (text.pointOf (Utf8.size text)) entries, s.extent.Marks text := by
  induction entries with
  | nil =>
    intro s hs
    cases hs
  | cons e entries ih =>
    obtain ⟨s, level⟩ := e
    obtain ⟨hfirst, hsorted⟩ := List.pairwise_cons.mp hsorted
    obtain ⟨hs, hbelow⟩ := List.forall_mem_cons.mp hmarks
    have hrest := ih hsorted hbelow
    cases level with
    | none =>
      rw [closeSections]
      exact List.forall_mem_cons.mpr ⟨hs, hrest⟩
    | some level =>
      rw [closeSections]
      refine List.forall_mem_cons.mpr ⟨?_, hrest⟩
      obtain ⟨i, j, hordered, hfits, hextent⟩ := hs
      have hi : i ≤ Utf8.size text := Nat.le_trans hordered hfits
      have hstart : s.extent.startPoint = text.pointOf i := by rw [hextent]
      dsimp only
      rw [hstart]
      cases hnext : entries.find? (fun e => e.2.any (· ≤ level)) with
      | none => exact ⟨i, Utf8.size text, hi, Nat.le_refl _, rfl⟩
      | some next =>
        have hmem : next ∈ entries := List.mem_of_find?_eq_some hnext
        obtain ⟨i', j', hordered', hfits', hextent'⟩ := hbelow next hmem
        have hi' : i' ≤ Utf8.size text := Nat.le_trans hordered' hfits'
        have hle := hfirst next hmem
        dsimp only at hle
        rw [hstart, hextent', Text.isLE_compare_pointOf_iff hi hi'] at hle
        refine ⟨i, i', hle, hi', ?_⟩
        rw [Option.map_some, Option.getD_some, hextent']

private theorem marks_frontMatterSymbol (stop : Nat) :
    (frontMatterSymbol (text.pointOf stop)).extent.Marks text := by
  refine ⟨0, min stop (Utf8.size text), Nat.zero_le _, Nat.min_le_right _ _, ?_⟩
  have hstart : text.pointOf 0 = .origin := LineTable.pointOf_zero _
  have hstop : text.pointOf (min stop (Utf8.size text)) = text.pointOf stop :=
    LineTable.pointOf_min _ _
  rw [hstart, hstop]
  rfl

theorem sorted_listFrontMatter (text : Text)
    (h : symbols.Pairwise fun a b =>
      (compare a.extent.startPoint b.extent.startPoint).isLE = true) :
    (listFrontMatter text (.ofText text) symbols).Pairwise fun a b =>
      (compare a.extent.startPoint b.extent.startPoint).isLE = true := by
  rw [listFrontMatter]
  split
  · refine List.pairwise_cons.mpr ⟨?_, h.sublist List.filter_sublist⟩
    intro s _
    exact s.extent.startPoint.isLE_compare_origin
  · exact h

private theorem inOrder_listFrontMatter (h : Symbol.InOrder text symbols) :
    Symbol.InOrder text (listFrontMatter text (.ofText text) symbols) := by
  refine ⟨sorted_listFrontMatter text h.sorted, ?_, ?_⟩
  · rw [listFrontMatter]
    split
    · refine List.forall_mem_cons.mpr ⟨List.cons_ne_nil _ _, ?_⟩
      intro s hs
      exact h.named s (List.mem_filter.mp hs).1
    · exact h.named
  · rw [listFrontMatter]
    split
    · next stop _ =>
      refine List.forall_mem_cons.mpr ⟨marks_frontMatterSymbol stop, ?_⟩
      intro s hs
      exact h.marks s (List.mem_filter.mp hs).1
    · exact h.marks

theorem sorted_closeSections (eof : Point) (level : Symbol → Option Nat)
    (h : symbols.Pairwise fun a b =>
      (compare a.extent.startPoint b.extent.startPoint).isLE = true) :
    (closeSections eof (symbols.map fun s => (s, level s))).Pairwise fun a b =>
      (compare a.extent.startPoint b.extent.startPoint).isLE = true := by
  have hkept := map_closeSections eof (symbols.map fun s => (s, level s))
  rw [List.map_map] at hkept
  have hstarts : (symbols.map fun s => (s.content, s.extent.startPoint)).Pairwise
      fun a b => (compare a.2 b.2).isLE = true := List.pairwise_map.mpr h
  exact List.pairwise_map.mp (hkept ▸ hstarts)

private theorem inOrder_closeSections (h : Symbol.InOrder text symbols)
    (level : Symbol → Option Nat) :
    Symbol.InOrder text (closeSections (text.pointOf (Utf8.size text))
      (symbols.map fun s => (s, level s))) := by
  have hkept := map_closeSections (text.pointOf (Utf8.size text))
    (symbols.map fun s => (s, level s))
  rw [List.map_map] at hkept
  refine ⟨sorted_closeSections _ level h.sorted, ?_, ?_⟩
  · intro s hs
    have hmem := List.mem_map_of_mem (f := fun s => (s.content, s.extent.startPoint)) hs
    rw [hkept] at hmem
    obtain ⟨t, ht, hsame⟩ := List.mem_map.mp hmem
    rw [← (Prod.mk.inj hsame).1]
    exact h.named t ht
  · apply marks_closeSections
    · exact List.pairwise_map.mpr h.sorted
    · intro e he
      obtain ⟨s, hs, rfl⟩ := List.mem_map.mp he
      exact h.marks s hs

private theorem inOrder_sections (h : Symbol.InOrder text symbols) :
    Symbol.InOrder text (sections text symbols) :=
  inOrder_closeSections (inOrder_listFrontMatter h) _

end Markdown

namespace Document

variable {d : Document} {grammars : Grammars}

private theorem inOrder_arrange {symbols : List Symbol}
    (h : ∀ s ∈ symbols, s.content ≠ [] ∧ s.extent.Marks d.text) :
    Symbol.InOrder d.text (d.arrange symbols) := by
  have hsorted : Symbol.InOrder d.text (sortBy Symbol.le symbols) := by
    refine ⟨Symbol.sorted_sortBy symbols, ?_, ?_⟩
    · intro s hs
      exact (h s ((sortBy_perm _ _).mem_iff.mp hs)).1
    · intro s hs
      exact (h s ((sortBy_perm _ _).mem_iff.mp hs)).2
  rw [arrange]
  split
  · exact Markdown.inOrder_sections hsorted
  · exact hsorted

section Own

variable (hd : d.WellFormed)
include hd

private theorem marks_ownSymbols {s : Symbol} (hs : s ∈ d.ownSymbols) : s.extent.Marks d.text := by
  obtain ⟨f, hf, n, -, -, hextent, -⟩ := exists_finding_of_mem_ownSymbols hs
  rw [hextent]
  exact (Finding.located_span hd hf).marks

private theorem marks_ownSignatures {s : Signature} (hs : s ∈ d.ownSignatures) :
    s.extent.Marks d.text := by
  obtain ⟨f, hf, -, rfl⟩ := exists_finding_of_mem_ownSignatures hs
  exact (Finding.located_span hd hf).marks

end Own

private theorem trimmed_ownSignatures {s : Signature} (hs : s ∈ d.ownSignatures) :
    s.content.Trimmed := by
  obtain ⟨f, -, hblank, rfl⟩ := exists_finding_of_mem_ownSignatures hs
  exact ⟨hblank, fun _ => Text.not_getLast?_dropEndWhile⟩

private theorem named_ownSymbols {s : Symbol} (hs : s ∈ d.ownSymbols) : s.content ≠ [] := by
  obtain ⟨f, -, n, -, hcontent, -, -⟩ := exists_finding_of_mem_ownSymbols hs
  exact hcontent

theorem inOrder_ownSymbols (hd : d.WellFormed) :
    Symbol.InOrder d.text (d.arrange d.ownSymbols) := by
  apply inOrder_arrange
  intro s hs
  exact ⟨named_ownSymbols hs, marks_ownSymbols hd hs⟩

section Regions

variable (hd : d.WellFormed)
include hd

private theorem Embeds.marks_shiftExtent {r : Region} {inner : Document}
    (h : d.Embeds grammars r inner)
    {e : Extent} (he : e.Marks inner.text) : (r.shiftExtent e).Marks d.text := by
  rw [h.text_eq] at he
  exact Region.marks_shiftExtent hd (hd.within h.1) he

variable
  (htrees : ∀ r ∈ d.regions, ∀ t, grammars r.language r.text = some t → t.WellFormed r.text)
include htrees

private theorem listed_signatures {signatures : List Signature}
    (h : d.signatures grammars = .ok signatures) : Signature.Listed d.text signatures := by
  obtain ⟨inners, hinners, h⟩ := bind_eq_ok_iff.mp h
  cases h
  apply Signature.listed_distinct
  intro s hs
  rcases List.mem_append.mp hs with hown | hshifted
  · exact ⟨trimmed_ownSignatures hown, marks_ownSignatures hd hown⟩
  · obtain ⟨⟨r, inner⟩, hmem, hs⟩ := List.mem_flatMap.mp hshifted
    obtain ⟨own, hown, rfl⟩ := List.mem_map.mp hs
    have hembeds := (mem_innerDocuments hinners).mp hmem
    have hown := Signature.mem_of_mem_distinct hown
    have htrimmed : own.content.Trimmed := trimmed_ownSignatures hown
    have hmarks := marks_ownSignatures (hembeds.wellFormed htrees) hown
    exact ⟨htrimmed, hembeds.marks_shiftExtent hd hmarks⟩

private theorem inOrder_symbols {symbols : List Symbol} (h : d.symbols grammars = .ok symbols) :
    Symbol.InOrder d.text symbols := by
  obtain ⟨inners, hinners, h⟩ := bind_eq_ok_iff.mp h
  cases h
  apply inOrder_arrange
  intro s hs
  rcases List.mem_append.mp hs with hown | hshifted
  · exact ⟨named_ownSymbols hown, marks_ownSymbols hd hown⟩
  · obtain ⟨⟨r, inner⟩, hmem, hs⟩ := List.mem_flatMap.mp hshifted
    obtain ⟨own, hown, rfl⟩ := List.mem_map.mp hs
    have hembeds := (mem_innerDocuments hinners).mp hmem
    have harranged := inOrder_ownSymbols (hembeds.wellFormed htrees)
    exact ⟨harranged.named own hown,
      hembeds.marks_shiftExtent hd (harranged.marks own hown)⟩

end Regions

section Returns

variable (hparsed : ∀ r ∈ d.regions, grammars r.language r.text ≠ none)
include hparsed

private theorem exists_signatures : ∃ signatures, d.signatures grammars = .ok signatures := by
  obtain ⟨inners, hinners⟩ := exists_innerDocuments hparsed
  exact ⟨_, by rw [signatures, hinners]; rfl⟩

theorem exists_symbols : ∃ symbols, d.symbols grammars = .ok symbols := by
  obtain ⟨inners, hinners⟩ := exists_innerDocuments hparsed
  exact ⟨_, by rw [symbols, hinners]; rfl⟩

end Returns

/-- In every language, and with every well-formed tree of a document and of each of its regions, the
signatures of the document are found and listed by start, end and content, each content once, none
blank and none with a blank at its end, and its symbols are found and listed by start, none without
a name; and nothing ends before it starts or after the text does. -/
theorem results_are_listed (grammars : Grammars) (d : Document) (hd : d.WellFormed)
    (htrees : ∀ r ∈ d.regions, ∃ t, grammars r.language r.text = some t ∧ t.WellFormed r.text) :
    (∃ signatures, d.signatures grammars = .ok signatures ∧
      Signature.Listed d.text signatures) ∧
    ∃ symbols, d.symbols grammars = .ok symbols ∧ Symbol.Listed d.text symbols := by
  have hparsed : ∀ r ∈ d.regions, grammars r.language r.text ≠ none := by
    intro r hr hnone
    obtain ⟨t, ht, -⟩ := htrees r hr
    rw [hnone] at ht
    cases ht
  have hwellFormed : ∀ r ∈ d.regions, ∀ t, grammars r.language r.text = some t →
      t.WellFormed r.text := by
    intro r hr t ht
    obtain ⟨t', ht', hwf⟩ := htrees r hr
    rw [ht] at ht'
    cases ht'
    exact hwf
  obtain ⟨signatures, hsignatures⟩ := exists_signatures hparsed
  obtain ⟨symbols, hsymbols⟩ := exists_symbols hparsed
  exact ⟨⟨signatures, hsignatures, listed_signatures hd hwellFormed hsignatures⟩,
    symbols, hsymbols, (inOrder_symbols hd hwellFormed hsymbols).listed⟩

open ScriptOnFirstRow in
theorem results_are_listed_script :
    (document.WellFormed ∧
      document.regions.map (fun r => (r.language, r.text)) = [(.typeScript, script)] ∧
      ∀ r ∈ document.regions, ∃ t, scriptGrammars r.language r.text = some t ∧
        t.WellFormed r.text) ∧
    (∃ signatures, document.signatures scriptGrammars = .ok signatures ∧
      Signature.Listed document.text signatures) ∧
    ∃ symbols, document.symbols scriptGrammars = .ok symbols ∧
      Symbol.Listed document.text symbols := by
  have hd : document.WellFormed := ⟨rfl, by decide +kernel⟩
  have htrees : ∀ r ∈ document.regions, ∃ t, scriptGrammars r.language r.text = some t ∧
      t.WellFormed r.text := by
    intro r hr
    have hmem := List.mem_map_of_mem (f := fun r => (r.language, r.text)) hr
    rw [regions_eq, List.mem_singleton, Prod.mk.injEq] at hmem
    refine ⟨scriptTree, by rw [scriptGrammars, if_pos hmem], ?_⟩
    rw [hmem.2]
    decide +kernel
  exact ⟨⟨hd, regions_eq, htrees⟩,
    results_are_listed scriptGrammars document hd htrees⟩

end Document

end CodeAtlas
