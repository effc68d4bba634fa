import CodeAtlas.Proofs.Extract.Ordered

/-!
# Spellings of listed symbols

Where names are looked up among the listed symbols, every spelling of a symbol finds it: the symbol
is one of those with the spelling, its two points are turned back into the bytes they came from, and
these bytes lie in one block that is returned.
-/

namespace CodeAtlas

namespace Document

variable {d : Document} {grammars : Grammars} {symbols : List Symbol}

private theorem mem_symbolsNamed {s : Symbol} (hs : s ∈ symbols) {form : Text}
    (hform : form ∈ s.spellings) : s ∈ symbolsNamed symbols form := by
  have hspelled : s ∈ symbolsSpelled symbols form :=
    List.mem_filter.mpr ⟨hs, List.contains_iff_mem.mpr hform⟩
  rw [symbolsNamed]
  split
  · next hnone _ =>
    rw [hnone] at hspelled
    cases hspelled
  · exact hspelled

private theorem span_symbolHit (hd : d.WellFormed) {s : Symbol} {i j : Nat} (hordered : i ≤ j)
    (hfits : j ≤ Utf8.size d.text)
    (hs : s.extent = ⟨d.text.pointOf i, d.text.pointOf j⟩) :
    (d.symbolHit s).span.startByte = i ∧ (d.symbolHit s).span.endByte = j := by
  have hstart : d.source.lines.byteOf s.extent.startPoint = i := by
    rw [hs, hd.source]
    exact LineTable.byteOf_pointOf _ (Nat.le_trans hordered hfits)
  have hstop : d.source.lines.byteOf s.extent.endPoint = j := by
    rw [hs, hd.source]
    exact LineTable.byteOf_pointOf _ hfits
  have hlines : d.source.lines.size = Utf8.size d.text := by
    rw [hd.source]
    rfl
  have hend : min j (Utf8.size d.text) = j := Nat.min_eq_left hfits
  constructor
  · simp only [symbolHit, LineTable.spanOf, hstart, hstop, hlines, hend]
    exact Nat.min_eq_left hordered
  · simp only [symbolHit, LineTable.spanOf, hstop, hlines, hend]

private theorem ordered_symbolHit (d : Document) (s : Symbol) :
    (d.symbolHit s).span.startByte ≤ (d.symbolHit s).span.endByte := Nat.min_le_right _ _

/-- The bytes of a symbol lie in one of the normal blocks of the symbols with a name. -/
theorem exists_block_of_symbol (context : Nat)
    {s : Symbol} (hs : s ∈ symbols) :
    ∃ b ∈ Block.normalize d.source.bytes context ((symbols.map d.symbolHit).map Hit.block),
      b.span.startByte ≤ min (d.symbolHit s).span.startByte d.source.bytes.length ∧
      min (d.symbolHit s).span.endByte d.source.bytes.length ≤ b.span.endByte := by
  have hblocks : ∀ b ∈ (symbols.map d.symbolHit).map Hit.block,
      b.span.startByte ≤ b.span.endByte := by
    intro b hb
    obtain ⟨hit, hhit, rfl⟩ := List.mem_map.mp hb
    obtain ⟨t, -, rfl⟩ := List.mem_map.mp hhit
    rw [Hit.span_block]
    exact ordered_symbolHit d t
  have hmem : (d.symbolHit s).block ∈ (symbols.map d.symbolHit).map Hit.block :=
    List.mem_map_of_mem (List.mem_map_of_mem hs)
  obtain ⟨b, ⟨hb, hstart, hend⟩, -⟩ := Block.normalize_covers d.source.bytes hblocks context hmem
  rw [Hit.span_block] at hstart hend
  exact ⟨b, hb, hstart, hend⟩

section BySymbols

variable (hlookup : d.profile.lookup = .bySymbols) (hsymbols : d.symbols grammars = .ok symbols)
include hlookup hsymbols

private theorem hits_of_spelling {s : Symbol} (hs : s ∈ symbols) {form : Text}
    (hform : form ∈ s.spellings) :
    d.hits grammars form = .ok ((symbolsNamed symbols form).map d.symbolHit) := by
  have hmem := mem_symbolsNamed hs hform
  have hown : d.ownHits grammars form = .ok ((symbolsNamed symbols form).map d.symbolHit) := by
    rw [ownHits, hlookup, hsymbols]
    rfl
  rw [hits, hown]
  cases hnamed : symbolsNamed symbols form with
  | nil =>
    rw [hnamed] at hmem
    cases hmem
  | cons first rest => rfl

private theorem definition_of_spelling {s : Symbol} (hs : s ∈ symbols) {form : Text}
    (hform : form ∈ s.spellings) (context : Nat) :
    d.definition grammars form context = .ok (Block.normalize d.source.bytes context
      (((symbolsNamed symbols form).map d.symbolHit).map Hit.block)) := by
  have hne : (symbolsNamed symbols form).map d.symbolHit ≠ [] :=
    List.ne_nil_of_mem (List.mem_map_of_mem (mem_symbolsNamed hs hform))
  rw [definition_of_hits (hits_of_spelling hlookup hsymbols hs hform), if_neg hne]

end BySymbols

/-- Every spelling of a symbol that is listed for a document in Kotlin or Markdown finds it, with
any number of lines around: the bytes between the two points of the symbol lie in one of the blocks
that are returned. -/
theorem every_spelling_finds_symbol (grammars : Grammars) (d : Document)
    (hlanguage : d.language = .kotlin ∨ d.language = .markdown) (hd : d.WellFormed) :
    ∃ symbols, d.symbols grammars = .ok symbols ∧
      ∀ s ∈ symbols, ∀ form ∈ s.spellings, ∀ context,
        ∃ blocks, d.definition grammars form context = .ok blocks ∧
          ∃ i j, i ≤ j ∧ j ≤ d.source.bytes.length ∧
            d.source.bytes.PointAt i s.extent.startPoint ∧
            d.source.bytes.PointAt j s.extent.endPoint ∧
            ∃ b ∈ blocks, b.span.startByte ≤ i ∧ j ≤ b.span.endByte := by
  have hvue : d.language ≠ .vue := by
    intro hvue
    rw [hvue] at hlanguage
    exact absurd hlanguage (by decide)
  have hlookup : d.profile.lookup = .bySymbols := by
    rcases hlanguage with hkotlin | hmarkdown
    · rw [profile, hkotlin]
      rfl
    · rw [profile, hmarkdown]
      rfl
  have hbytes : d.source.bytes = Utf8.encode d.text := by
    rw [hd.source]
    rfl
  have hsymbols := symbols_of_not_vue grammars hvue
  have horder : Symbol.InOrder d.text (d.arrange d.ownSymbols) := inOrder_ownSymbols hd
  refine ⟨_, hsymbols, ?_⟩
  intro s hs form hform context
  obtain ⟨i, j, hordered, hfits, hextent⟩ := horder.marks s hs
  obtain ⟨hstart, hstop⟩ := span_symbolHit hd hordered hfits hextent
  have hlength : j ≤ d.source.bytes.length := by
    rw [hbytes]
    exact hfits
  obtain ⟨b, hb, hbstart, hbend⟩ :=
    exists_block_of_symbol context (mem_symbolsNamed hs hform)
  rw [hstart] at hbstart
  rw [hstop] at hbend
  refine ⟨_, definition_of_spelling hlookup hsymbols hs hform context, i, j, hordered, hlength,
    ?_, ?_, b, hb, by omega, by omega⟩
  · rw [hextent, hbytes]
    exact LineTable.pointAt_pointOf _ (Nat.le_trans hordered hfits)
  · rw [hextent, hbytes]
    exact LineTable.pointAt_pointOf _ hfits

namespace CodeHeading

def text : Text := "# T\n\n## A \x60b\x60\nx\n".toList

def tree : Tree :=
  .named "document" 0 16 "" [
    .named "section" 0 16 "" [
      .named "atx_heading" 0 4 "" [
        .named "atx_h1_marker" 0 1 "" [],
        .named "inline" 2 3 "heading_content" []],
      .named "section" 5 16 "" [
        .named "atx_heading" 5 14 "" [
          .named "atx_h2_marker" 5 7 "" [],
          .named "inline" 8 13 "heading_content" []],
        .named "paragraph" 14 16 "" [
          .named "inline" 14 15 "" []]]]]

def document : Document := ⟨.markdown, text, .ofText text, tree⟩

/-- Spellings of the second heading: its anchor, its marks and its title, and its title without code
marks. -/
def forms : List Text := ["#a-b".toList, "## A \x60b\x60".toList, "A b".toList]

set_option maxRecDepth 30000 in
theorem listed : ∃ s ∈ document.arrange document.ownSymbols,
    s.extent = ⟨⟨2, 0⟩, ⟨4, 0⟩⟩ ∧ ∀ form ∈ forms, form ∈ s.spellings := by
  have hmatches : document.outlineMatches = Query.run
      ((Query.read? Query.Markdown.outline.toList).getD []) document.source document.tree := by
    rw [outlineMatches, Query.rules,
      show Query.text? document.language .outline = some Query.Markdown.outline.toList from rfl,
      Option.bind_some]
  rw [ownSymbols, findings, hmatches,
    Query.toList_of_eq_ofList (show Query.Markdown.outline = _ from rfl)]
  decide +kernel

end CodeHeading

open CodeHeading in
theorem every_spelling_finds_symbol_heading :
    (document.language = .markdown ∧ document.WellFormed) ∧
    ∃ symbols, document.symbols (fun _ _ => none) = .ok symbols ∧
      ∃ s ∈ symbols, s.extent = ⟨⟨2, 0⟩, ⟨4, 0⟩⟩ ∧ ∀ form ∈ forms, form ∈ s.spellings ∧
        ∃ blocks, document.definition (fun _ _ => none) form 0 = .ok blocks ∧
          ∃ i j, i ≤ j ∧ j ≤ document.source.bytes.length ∧
            document.source.bytes.PointAt i s.extent.startPoint ∧
            document.source.bytes.PointAt j s.extent.endPoint ∧
            ∃ b ∈ blocks, b.span.startByte ≤ i ∧ j ≤ b.span.endByte := by
  have hd : document.WellFormed := ⟨rfl, by decide +kernel⟩
  obtain ⟨symbols, hsymbols, hfound⟩ :=
    every_spelling_finds_symbol (fun _ _ => none) document (Or.inr rfl) hd
  obtain ⟨s, hs, hextent, hforms⟩ := listed
  have hmem : s ∈ symbols := by
    rw [← Except.ok.inj (hsymbols.symm.trans (symbols_of_not_vue _ (by decide)))] at hs
    exact hs
  refine ⟨⟨rfl, hd⟩, symbols, hsymbols, s, hmem, hextent, ?_⟩
  intro form hform
  exact ⟨hforms form hform, hfound s hmem form (hforms form hform) 0⟩

end Document

end CodeAtlas
