import CodeAtlas.Proofs.Extract.Located
import CodeAtlas.Proofs.Position.Shift

/-!
# Regions seen from their host

The scripts of a component are documents of their own. What is found in one is shifted to where the
script stands in the component: it then has the points that its bytes have there, and the same text.
-/

namespace CodeAtlas

namespace Region

/-- Whether a span of a document shows what a span of one of its regions shows: it covers the same
bytes, its points are those of its bytes in the document, and it has the same text. -/
structure Shows (r : Region) (host : Document) (inner outer : Span) : Prop where
  start_byte : outer.startByte = r.span.startByte + inner.startByte
  end_byte : outer.endByte = r.span.startByte + inner.endByte
  start_point : outer.startPoint = host.source.lines.pointOf outer.startByte
  end_point : outer.endPoint = host.source.lines.pointOf outer.endByte
  text : Block.text host.source.bytes ⟨outer, none⟩ = Block.text (Utf8.encode r.text) ⟨inner, none⟩

/-- Whether a point of a document is that of the byte whose point in a region is given. -/
def ShowsPoint (r : Region) (host : Document) (inner outer : Point) : Prop :=
  ∃ i ≤ Utf8.size r.text, inner = r.text.pointOf i ∧
    outer = host.source.lines.pointOf (r.span.startByte + i)

/-- Whether both points of an extent are those of the same bytes in a region. -/
structure ShowsExtent (r : Region) (host : Document) (inner outer : Extent) : Prop where
  start_point : r.ShowsPoint host inner.startPoint outer.startPoint
  end_point : r.ShowsPoint host inner.endPoint outer.endPoint

structure ShowsHit (r : Region) (host : Document) (inner outer : Hit) : Prop where
  span : r.Shows host inner.span outer.span
  name : Option.Rel (r.Shows host) inner.name outer.name
  symbol : outer.symbol = inner.symbol

structure Within (host : Document) (r : Region) : Prop where
  located : r.span.Located host.text
  bytes : Utf8.encode r.text = (Utf8.encode host.text).slice r.span.startByte r.span.endByte

section Shift

variable {host : Document} {r : Region}

theorem Within.size (h : r.Within host) :
    r.span.startByte + Utf8.size r.text = r.span.endByte := by
  have hend : r.span.endByte ≤ (Utf8.encode host.text).length := h.located.ends.le_size
  have hlength := Bytes.length_slice r.span.startByte hend
  have hordered := h.located.ordered
  rw [Utf8.size, h.bytes, hlength]
  omega

variable (hhost : host.WellFormed) (h : r.Within host)
include hhost h

theorem pointOf_add {i : Nat} (hi : i ≤ Utf8.size r.text) :
    host.source.lines.pointOf (r.span.startByte + i) = r.shiftPoint (r.text.pointOf i) := by
  rw [hhost.source]
  have hend : r.span.endByte ≤ (Utf8.encode host.text).length := h.located.ends.le_size
  rw [shiftPoint, h.located.start_point, Text.pointOf, Text.pointOf, h.bytes]
  rw [Utf8.size, h.bytes] at hi
  exact LineTable.pointOf_add h.located.ordered hend hi

private theorem showsPoint_shift {p : Point}
    (hp : ∃ i, r.text.IsBoundary i ∧ p = r.text.pointOf i) :
    r.ShowsPoint host p (r.shiftPoint p) := by
  obtain ⟨i, hi, rfl⟩ := hp
  exact ⟨i, hi.le_size, rfl, (pointOf_add hhost h hi.le_size).symm⟩

private theorem showsExtent_shift {e : Extent} (he : e.Located r.text) :
    r.ShowsExtent host e (r.shiftExtent e) :=
  ⟨showsPoint_shift hhost h he.start_point, showsPoint_shift hhost h he.end_point⟩

private theorem shows_shift {s : Span} (hs : s.Located r.text) : r.Shows host s (r.shift s) := by
  have hbytes : host.source.bytes = Utf8.encode host.text := by rw [hhost.source]; rfl
  have hregion := h.size
  have hend : r.span.endByte ≤ host.source.bytes.length := by
    rw [hbytes]
    exact h.located.ends.le_size
  have hinner : s.endByte ≤ Utf8.size r.text := hs.ends.le_size
  have hordered := hs.ordered
  have hstart : (r.shift s).startByte = r.span.startByte + s.startByte := rfl
  have hstop : (r.shift s).endByte = r.span.startByte + s.endByte := rfl
  refine ⟨hstart, hstop, ?_, ?_, ?_⟩
  · rw [hstart, pointOf_add hhost h hs.starts.le_size, ← hs.start_point]
    rfl
  · rw [hstop, pointOf_add hhost h hinner, ← hs.end_point]
    rfl
  · have hsliced : (Utf8.encode r.text).slice s.startByte s.endByte = host.source.bytes.slice
        (r.span.startByte + s.startByte) (r.span.startByte + s.endByte) := by
      rw [h.bytes, hbytes, Bytes.slice_slice (by omega)]
    have hwhole : (Utf8.encode r.text).length = Utf8.size r.text := rfl
    simp only [Block.text, hstart, hstop, hwhole]
    rw [Nat.min_eq_left hinner, Nat.min_eq_left hordered, hsliced,
      Nat.min_eq_left (show r.span.startByte + s.endByte ≤ host.source.bytes.length by omega),
      Nat.min_eq_left (by omega)]

private theorem showsHit_shift {i : Hit} (hi : i.Located r.text) :
    r.ShowsHit host i (i.shift r) := by
  refine ⟨shows_shift hhost h hi.span, ?_, rfl⟩
  rw [Hit.shift]
  cases hname : i.name with
  | none => exact .none
  | some s => exact .some (shows_shift hhost h (hi.name s hname))

end Shift

end Region

theorem Signature.mem_of_mem_distinct {s : Signature} {signatures : List Signature}
    (h : s ∈ distinct signatures) : s ∈ signatures :=
  (sortBy_perm _ _).mem_iff.mp (mem_of_mem_eraseDupsBy h)

namespace Document

variable {grammars : Grammars} {d inner : Document} {r : Region}

private theorem exists_site_of_mem_regions (hr : r ∈ d.regions) :
    ∃ n, n.In d.tree ∧ d.profile.embedded d.source n = some r.language ∧
      r.span = d.source.span n ∧ r.text = d.source.text n := by
  obtain ⟨m, hm, hr⟩ := List.mem_flatMap.mp hr
  obtain ⟨c, hc, hr⟩ := List.mem_filterMap.mp hr
  split at hr
  · obtain ⟨language, hlanguage, rfl⟩ := Option.map_eq_some_iff.mp hr
    exact ⟨c.site, Query.site_in_tree hm hc, hlanguage, rfl, rfl⟩
  · cases hr

theorem WellFormed.within (hd : d.WellFormed) (hr : r ∈ d.regions) : r.Within d := by
  obtain ⟨n, hn, -, hspan, htext⟩ := exists_site_of_mem_regions hr
  refine ⟨hspan ▸ hd.located_span hn, ?_⟩
  rw [hd.source] at hspan htext
  have hbytes := (Buffer.text_eq_iff (hn.wellFormed hd.tree) r.text).mp htext.symm
  rw [← hbytes, hspan]
  rfl

/-- The scripts of a component are in TypeScript. -/
theorem language_of_mem_regions (hvue : d.language = .vue) (hr : r ∈ d.regions) :
    r.language = .typeScript ∨ r.language = .tsx := by
  obtain ⟨n, -, hlanguage, -, -⟩ := exists_site_of_mem_regions hr
  have hprofile : d.profile.embedded = Profile.vueEmbedded := by rw [profile, hvue]; rfl
  rw [hprofile, Profile.vueEmbedded] at hlanguage
  obtain ⟨script, -, hlanguage⟩ := Option.bind_eq_some_iff.mp hlanguage
  split at hlanguage <;> simp_all

/-- Whether a region of a document is read as another one. -/
def Embeds (grammars : Grammars) (d : Document) (r : Region) (inner : Document) : Prop :=
  r ∈ d.regions ∧ read grammars r.language r.text = .ok inner

private theorem read_eq_ok {language : Language} {text : Text}
    (h : read grammars language text = .ok inner) :
    ∃ tree, grammars language text = some tree ∧ inner = ⟨language, text, .ofText text, tree⟩ := by
  rw [read] at h
  split at h
  · next tree htree =>
    cases h
    exact ⟨tree, htree, rfl⟩
  · cases h

theorem mem_innerDocuments {inners : List (Region × Document)}
    (h : d.innerDocuments grammars = .ok inners) :
    (r, inner) ∈ inners ↔ d.Embeds grammars r inner := by
  constructor
  · intro hmem
    obtain ⟨r', hr', hread⟩ := mem_of_mapM_eq_ok h hmem
    obtain ⟨inner', hinner, hpair⟩ := bind_eq_ok_iff.mp hread
    cases hpair
    exact ⟨hr', hinner⟩
  · rintro ⟨hr, hread⟩
    obtain ⟨pair, hpair, hstep⟩ := exists_mem_of_mapM_eq_ok h hr
    rw [hread] at hstep
    cases hstep
    exact hpair

theorem exists_innerDocuments (h : ∀ r ∈ d.regions, grammars r.language r.text ≠ none) :
    ∃ inners, d.innerDocuments grammars = .ok inners := by
  apply exists_mapM_eq_ok
  intro r hr
  obtain ⟨tree, htree⟩ := Option.ne_none_iff_exists'.mp (h r hr)
  exact ⟨_, by rw [read, htree]; rfl⟩

namespace Embeds

variable (hvue : d.language = .vue) (h : d.Embeds grammars r inner)
include h

theorem text_eq : inner.text = r.text := by
  obtain ⟨tree, -, rfl⟩ := read_eq_ok h.2
  rfl

theorem wellFormed
    (htrees : ∀ r ∈ d.regions, ∀ t, grammars r.language r.text = some t → t.WellFormed r.text) :
    inner.WellFormed := by
  obtain ⟨tree, htree, rfl⟩ := read_eq_ok h.2
  exact ⟨rfl, htrees r h.1 tree htree⟩

section Shown

variable (hd : d.WellFormed)
include hd

private theorem shows {s : Span} (hs : s.Located inner.text) : r.Shows d s (r.shift s) := by
  rw [h.text_eq] at hs
  exact Region.shows_shift hd (hd.within h.1) hs

private theorem showsHit {i : Hit} (hi : i.Located inner.text) : r.ShowsHit d i (i.shift r) := by
  rw [h.text_eq] at hi
  exact Region.showsHit_shift hd (hd.within h.1) hi

private theorem showsExtent {e : Extent} (he : e.Located inner.text) :
    r.ShowsExtent d e (r.shiftExtent e) := by
  rw [h.text_eq] at he
  exact Region.showsExtent_shift hd (hd.within h.1) he

end Shown

include hvue

theorem queried : inner.language ∈ Query.queriedLanguages := by
  have hlanguage := language_of_mem_regions hvue h.1
  obtain ⟨tree, -, rfl⟩ := read_eq_ok h.2
  rcases hlanguage with hts | htsx
  · simp [Query.queriedLanguages, hts]
  · simp [Query.queriedLanguages, htsx]

end Embeds

/-- What is found in a component that embeds regions: all that comes from a region shows what was
found there, with the points and the text that it has in the component. -/
structure ShowsRegions (grammars : Grammars) (d : Document) : Prop where
  headers : ∀ spans, d.headerSpans grammars = .ok spans → ∀ s, s ∈ spans ↔
    ∃ r inner, d.Embeds grammars r inner ∧ ∃ own ∈ inner.ownHeaders,
      s = r.shift own ∧ r.Shows d own s
  hits : ∀ name hits, d.hits grammars name = .ok hits → ∀ h ∈ hits,
    ∃ r inner, d.Embeds grammars r inner ∧ ∃ found, inner.ownHits grammars name = .ok found ∧
      ∃ own ∈ found, h = own.shift r ∧ r.ShowsHit d own h
  all_hits : ∀ hits, d.allHits grammars = .ok hits → ∀ h, h ∈ hits ↔
    ∃ r inner, d.Embeds grammars r inner ∧ ∃ found, inner.ownDefinitions grammars = .ok found ∧
      ∃ own ∈ found, h = own.shift r ∧ r.ShowsHit d own h
  signatures : ∀ signatures, d.signatures grammars = .ok signatures → ∀ s ∈ signatures,
    ∃ r inner, d.Embeds grammars r inner ∧ ∃ own ∈ inner.ownSignatures,
      s.content = own.content ∧ r.ShowsExtent d own.extent s.extent
  symbols : ∀ symbols, d.symbols grammars = .ok symbols → ∀ s, s ∈ symbols ↔ s ∈ d.ownSymbols ∨
    ∃ r inner, d.Embeds grammars r inner ∧ ∃ own ∈ inner.ownSymbols, s = own.shift r ∧
      r.ShowsExtent d own.extent s.extent ∧ r.ShowsExtent d own.declaration s.declaration
  returns : (∀ r ∈ d.regions, grammars r.language r.text ≠ none) →
    (∃ spans, d.headerSpans grammars = .ok spans) ∧ (∃ hits, d.allHits grammars = .ok hits) ∧
      (∃ signatures, d.signatures grammars = .ok signatures) ∧
      ∃ symbols, d.symbols grammars = .ok symbols

private theorem mem_arrange {s : Symbol} {symbols : List Symbol}
    (hlanguage : d.language ≠ .markdown) :
    s ∈ d.arrange symbols ↔ s ∈ symbols := by
  rw [arrange, if_neg hlanguage]
  exact (sortBy_perm _ _).mem_iff

private theorem exists_of_mem_firstHits {name : Text} {regions : List Region} {hits : List Hit}
    (hhits : firstHits grammars name regions = .ok hits) {h : Hit} (hh : h ∈ hits) :
    ∃ r ∈ regions, ∃ inner found, read grammars r.language r.text = .ok inner ∧
      inner.ownHits grammars name = .ok found ∧ ∃ own ∈ found, h = own.shift r := by
  induction regions with
  | nil =>
    cases hhits
    cases hh
  | cons r regions ih =>
    obtain ⟨inner, hread, hhits⟩ := bind_eq_ok_iff.mp hhits
    obtain ⟨found, hfound, hhits⟩ := bind_eq_ok_iff.mp hhits
    split at hhits
    · obtain ⟨r', hr', hrest⟩ := ih hhits
      exact ⟨r', List.mem_cons_of_mem _ hr', hrest⟩
    · cases hhits
      obtain ⟨own, hown, rfl⟩ := List.mem_map.mp hh
      exact ⟨r, List.mem_cons_self, inner, found, hread, hfound, own, hown, rfl⟩

section Component

variable (hvue : d.language = .vue)
include hvue

private theorem ownHeaders_of_vue : d.ownHeaders = [] := by
  have hrules : Query.rules d.language .headers = [] := by rw [hvue]; rfl
  rw [ownHeaders, hrules]
  rfl

private theorem ownSignatures_of_vue : d.ownSignatures = [] := by
  have hfragment : d.profile.fragment = fun _ => [] := by rw [profile, hvue]; rfl
  have hnone (f : Finding) : candidate? d.profile d.source f = none := by
    have htext : f.signatureText d.profile d.source = [] := by
      rw [Finding.signatureText, hfragment, List.flatMap_eq_nil_iff.mpr fun _ _ => rfl]
      rfl
    rw [candidate?, htext]
    rfl
  have hnothing : d.findings.filterMap (candidate? d.profile d.source) = [] := by
    simp [hnone]
  rw [ownSignatures, hnothing]
  rfl

private theorem lookup_of_vue : d.profile.lookup = .inRegions := by
  rw [profile, hvue]
  rfl

theorem Embeds.ownHits (h : d.Embeds grammars r inner) (name : Text) :
    inner.ownHits grammars name = inner.hitsByQuery name := by
  rw [Document.ownHits, lookup_of_queried (h.queried hvue)]

theorem Embeds.ownDefinitions (h : d.Embeds grammars r inner) :
    inner.ownDefinitions grammars = inner.queryHits .definition Query.dropSlotTests := by
  rw [Document.ownDefinitions, lookup_of_queried (h.queried hvue)]

variable (hd : d.WellFormed)
  (htrees : ∀ r ∈ d.regions, ∀ t, grammars r.language r.text = some t → t.WellFormed r.text)
include hd htrees

private theorem mem_headerSpans {spans : List Span} (hspans : d.headerSpans grammars = .ok spans)
    (s : Span) :
    s ∈ spans ↔ ∃ r inner, d.Embeds grammars r inner ∧ ∃ own ∈ inner.ownHeaders,
      s = r.shift own ∧ r.Shows d own s := by
  obtain ⟨inners, hinners, hspans⟩ := bind_eq_ok_iff.mp hspans
  cases hspans
  rw [ownHeaders_of_vue hvue, List.nil_append, List.mem_flatMap]
  constructor
  · rintro ⟨⟨r, inner⟩, hmem, hs⟩
    have hembeds := (mem_innerDocuments hinners).mp hmem
    obtain ⟨own, hown, rfl⟩ := List.mem_map.mp hs
    exact ⟨r, inner, hembeds, own, hown, rfl,
      hembeds.shows hd (located_ownHeaders (hembeds.wellFormed htrees) hown)⟩
  · rintro ⟨r, inner, hembeds, own, hown, rfl, -⟩
    exact ⟨(r, inner), (mem_innerDocuments hinners).mpr hembeds, List.mem_map_of_mem hown⟩

private theorem exists_of_mem_hits {name : Text} {hits : List Hit}
    (hhits : d.hits grammars name = .ok hits) {h : Hit} (hh : h ∈ hits) :
    ∃ r inner, d.Embeds grammars r inner ∧ ∃ found, inner.ownHits grammars name = .ok found ∧
      ∃ own ∈ found, h = own.shift r ∧ r.ShowsHit d own h := by
  have hown : d.ownHits grammars name = .ok [] := by rw [Document.ownHits, lookup_of_vue hvue]
  rw [Document.hits, hown] at hhits
  obtain ⟨r, hr, inner, found, hread, hfound, own, hmem, rfl⟩ := exists_of_mem_firstHits hhits hh
  have hembeds : d.Embeds grammars r inner := ⟨hr, hread⟩
  refine ⟨r, inner, hembeds, found, hfound, own, hmem, rfl, ?_⟩
  rw [hembeds.ownHits hvue] at hfound
  exact hembeds.showsHit hd
    (located_hitsByQuery (hembeds.wellFormed htrees) hfound own hmem)

private theorem mem_allHits {hits : List Hit} (hhits : d.allHits grammars = .ok hits) (h : Hit) :
    h ∈ hits ↔ ∃ r inner, d.Embeds grammars r inner ∧
      ∃ found, inner.ownDefinitions grammars = .ok found ∧
        ∃ own ∈ found, h = own.shift r ∧ r.ShowsHit d own h := by
  have hnone : d.ownDefinitions grammars = .ok [] := by
    rw [Document.ownDefinitions, lookup_of_vue hvue]
  obtain ⟨own, hown, hhits⟩ := bind_eq_ok_iff.mp hhits
  obtain ⟨inners, hinners, hhits⟩ := bind_eq_ok_iff.mp hhits
  obtain ⟨shifted, hshifted, hhits⟩ := bind_eq_ok_iff.mp hhits
  cases hhits
  cases hnone.symm.trans hown
  rw [List.nil_append, List.mem_flatten]
  constructor
  · rintro ⟨part, hpart, hh⟩
    obtain ⟨⟨r, inner⟩, hmem, hstep⟩ := mem_of_mapM_eq_ok hshifted hpart
    obtain ⟨found, hfound, hstep⟩ := bind_eq_ok_iff.mp hstep
    cases hstep
    obtain ⟨i, hi, rfl⟩ := List.mem_map.mp hh
    have hembeds := (mem_innerDocuments hinners).mp hmem
    refine ⟨r, inner, hembeds, found, hfound, i, hi, rfl, ?_⟩
    rw [hembeds.ownDefinitions hvue] at hfound
    exact hembeds.showsHit hd (located_queryHits (hembeds.wellFormed htrees) hfound i hi)
  · rintro ⟨r, inner, hembeds, found, hfound, i, hi, rfl, -⟩
    obtain ⟨part, hpart, hstep⟩ :=
      exists_mem_of_mapM_eq_ok hshifted ((mem_innerDocuments hinners).mpr hembeds)
    obtain ⟨found', hfound', hstep⟩ := bind_eq_ok_iff.mp hstep
    cases hfound.symm.trans hfound'
    cases hstep
    exact ⟨_, hpart, List.mem_map_of_mem hi⟩

private theorem exists_of_mem_signatures {signatures : List Signature}
    (hsignatures : d.signatures grammars = .ok signatures) {s : Signature} (hs : s ∈ signatures) :
    ∃ r inner, d.Embeds grammars r inner ∧ ∃ own ∈ inner.ownSignatures,
      s.content = own.content ∧ r.ShowsExtent d own.extent s.extent := by
  obtain ⟨inners, hinners, hsignatures⟩ := bind_eq_ok_iff.mp hsignatures
  cases hsignatures
  have hlisted := Signature.mem_of_mem_distinct hs
  rw [ownSignatures_of_vue hvue, List.nil_append, List.mem_flatMap] at hlisted
  obtain ⟨⟨r, inner⟩, hmem, hs⟩ := hlisted
  obtain ⟨own, hown, rfl⟩ := List.mem_map.mp hs
  have hembeds := (mem_innerDocuments hinners).mp hmem
  have hmem := Signature.mem_of_mem_distinct hown
  exact ⟨r, inner, hembeds, own, hmem, rfl,
    hembeds.showsExtent hd (located_ownSignatures (hembeds.wellFormed htrees) hmem)⟩

private theorem mem_symbols {symbols : List Symbol} (hsymbols : d.symbols grammars = .ok symbols)
    (s : Symbol) : s ∈ symbols ↔ s ∈ d.ownSymbols ∨
      ∃ r inner, d.Embeds grammars r inner ∧ ∃ own ∈ inner.ownSymbols, s = own.shift r ∧
        r.ShowsExtent d own.extent s.extent ∧ r.ShowsExtent d own.declaration s.declaration := by
  obtain ⟨inners, hinners, hsymbols⟩ := bind_eq_ok_iff.mp hsymbols
  cases hsymbols
  have hplain : d.language ≠ .markdown := by simp [hvue]
  have hinner {r : Region} {inner : Document} (h : d.Embeds grammars r inner) :
      inner.language ≠ .markdown := by
    intro hmarkdown
    exact absurd (hmarkdown ▸ h.queried hvue) (by decide)
  rw [mem_arrange hplain, List.mem_append, List.mem_flatMap]
  apply or_congr_right
  constructor
  · rintro ⟨⟨r, inner⟩, hmem, hs⟩
    have hembeds := (mem_innerDocuments hinners).mp hmem
    obtain ⟨own, hown, rfl⟩ := List.mem_map.mp hs
    rw [mem_arrange (hinner hembeds)] at hown
    have hlocated := located_ownSymbols (hembeds.wellFormed htrees) hown
    exact ⟨r, inner, hembeds, own, hown, rfl, hembeds.showsExtent hd hlocated.1,
      hembeds.showsExtent hd hlocated.2⟩
  · rintro ⟨r, inner, hembeds, own, hown, rfl, -⟩
    exact ⟨(r, inner), (mem_innerDocuments hinners).mpr hembeds,
      List.mem_map_of_mem ((mem_arrange (hinner hembeds)).mpr hown)⟩

omit hd in
private theorem exists_results (hparsed : ∀ r ∈ d.regions, grammars r.language r.text ≠ none) :
    (∃ spans, d.headerSpans grammars = .ok spans) ∧ (∃ hits, d.allHits grammars = .ok hits) ∧
      (∃ signatures, d.signatures grammars = .ok signatures) ∧
      ∃ symbols, d.symbols grammars = .ok symbols := by
  obtain ⟨inners, hinners⟩ := exists_innerDocuments hparsed
  have hnone : d.ownDefinitions grammars = .ok [] := by
    rw [Document.ownDefinitions, lookup_of_vue hvue]
  have hdefinitions : ∀ pair ∈ inners, ∃ hits : List Hit, (do
      return (← pair.2.ownDefinitions grammars).map (Hit.shift pair.1) :
        Except ExtractError (List Hit)) = .ok hits := by
    rintro ⟨r, inner⟩ hmem
    have hembeds := (mem_innerDocuments hinners).mp hmem
    obtain ⟨all, hall, -⟩ :=
      queryHits_fill (hembeds.wellFormed htrees) (hembeds.queried hvue) (List.not_mem_nil)
    exact ⟨_, by rw [hembeds.ownDefinitions hvue, hall]; rfl⟩
  obtain ⟨shifted, hshifted⟩ := exists_mapM_eq_ok hdefinitions
  refine ⟨⟨_, by rw [headerSpans, hinners]; rfl⟩, ⟨shifted.flatten, ?_⟩,
    ⟨_, by rw [signatures, hinners]; rfl⟩, ⟨_, by rw [symbols, hinners]; rfl⟩⟩
  exact bind_eq_ok_iff.mpr ⟨[], hnone, bind_eq_ok_iff.mpr ⟨inners, hinners,
    bind_eq_ok_iff.mpr ⟨shifted, hshifted, rfl⟩⟩⟩

end Component

/-- A byte of a part of a buffer has in the whole the point that it has in the part, shifted by the
point at which the part starts. So what is found in the scripts of a component is shown in the
component where it stands: each span has the points of its bytes and the text it has in the script,
and the points of signatures and symbols are those of the same bytes. -/
theorem shifted_points_are_host_points :
    (∀ (host : Bytes) (start stop offset : Nat), start ≤ stop →
      stop ≤ host.length → offset ≤ (host.slice start stop).length →
      (LineTable.ofBytes host).pointOf (start + offset) =
        ((LineTable.ofBytes host).pointOf start).shift
          ((LineTable.ofBytes (host.slice start stop)).pointOf offset)) ∧
    ∀ (grammars : Grammars) (d : Document), d.language = .vue → d.WellFormed →
      (∀ r ∈ d.regions, ∀ t, grammars r.language r.text = some t → t.WellFormed r.text) →
      d.ShowsRegions grammars := by
  refine ⟨fun _ _ _ _ hstart hstop hoffset =>
    LineTable.pointOf_add hstart hstop hoffset, ?_⟩
  intro grammars d hvue hd htrees
  exact {
    headers := fun _ hspans s => mem_headerSpans hvue hd htrees hspans s
    hits := fun _ _ hhits _ hh => exists_of_mem_hits hvue hd htrees hhits hh
    all_hits := fun _ hhits h => mem_allHits hvue hd htrees hhits h
    signatures := fun _ hsignatures _ hs =>
      exists_of_mem_signatures hvue hd htrees hsignatures hs
    symbols := fun _ hsymbols s => mem_symbols hvue hd htrees hsymbols s
    returns := exists_results hvue htrees }

namespace ScriptOnFirstRow

def script : Text := "import x from 'x'\nfunction f() \x7b\x7d\n".toList

def scriptTree : Tree :=
  .named "program" 0 34 "" [
    .named "import_statement" 0 17 "" [
      .mark "import" 0 6,
      .named "import_clause" 7 8 "" [
        .named "identifier" 7 8 "" []],
      .mark "from" 9 13,
      .named "string" 14 17 "source" [
        .mark "'" 14 15,
        .named "string_fragment" 15 16 "" [],
        .mark "'" 16 17]],
    .named "function_declaration" 18 33 "" [
      .mark "function" 18 26,
      .named "identifier" 27 28 "name" [],
      .named "formal_parameters" 28 30 "parameters" [
        .mark "(" 28 29,
        .mark ")" 29 30],
      .named "statement_block" 31 33 "body" [
        .mark "\x7b" 31 32,
        .mark "\x7d" 32 33]]]

def component : Text := "<script>".toList ++ script ++ "</script>\n".toList

def tree : Tree :=
  .named "document" 0 52 "" [
    .named "script_element" 0 51 "" [
      .named "start_tag" 0 8 "" [
        .mark "<" 0 1,
        .named "tag_name" 1 7 "" [],
        .mark ">" 7 8],
      .named "raw_text" 8 42 "" [],
      .named "end_tag" 42 51 "" [
        .mark "</" 42 44,
        .named "tag_name" 44 50 "" [],
        .mark ">" 50 51]]]

def document : Document := ⟨.vue, component, .ofText component, tree⟩

def scriptGrammars : Grammars := fun language t =>
  if language = .typeScript ∧ t = script then some scriptTree else none

set_option maxRecDepth 30000 in
theorem regions_eq : document.regions.map (fun r => (r.language, r.text)) =
    [(.typeScript, script)] := by
  have hmatches : document.outlineMatches = Query.run
      ((Query.read? Query.Vue.outline.toList).getD []) document.source document.tree := by
    rw [outlineMatches, Query.rules,
      show Query.text? document.language .outline = some Query.Vue.outline.toList from rfl,
      Option.bind_some]
  rw [regions, hmatches, Query.toList_of_eq_ofList (show Query.Vue.outline = _ from rfl)]
  decide +kernel

end ScriptOnFirstRow

open ScriptOnFirstRow in
theorem shifted_points_are_host_points_script :
    (document.language = .vue ∧ document.WellFormed ∧
      document.regions.map (fun r => (r.language, r.text)) = [(.typeScript, script)] ∧
      ∀ r ∈ document.regions, ∀ t, scriptGrammars r.language r.text = some t →
        t.WellFormed r.text) ∧
    document.ShowsRegions scriptGrammars ∧
    (LineTable.ofBytes (Utf8.encode component)).pointOf (8 + 7) =
      ((LineTable.ofBytes (Utf8.encode component)).pointOf 8).shift
        ((LineTable.ofBytes ((Utf8.encode component).slice 8 42)).pointOf 7) := by
  have hd : document.WellFormed := ⟨rfl, by decide +kernel⟩
  have htrees : ∀ r ∈ document.regions, ∀ t, scriptGrammars r.language r.text = some t →
      t.WellFormed r.text := by
    intro r _ t ht
    rw [scriptGrammars] at ht
    obtain ⟨⟨-, htext⟩, htree⟩ := Option.ite_none_right_eq_some.mp ht
    rw [htext, ← Option.some.inj htree]
    decide +kernel
  exact ⟨⟨rfl, hd, regions_eq, htrees⟩,
    shifted_points_are_host_points.2 scriptGrammars document rfl hd htrees,
    shifted_points_are_host_points.1 (Utf8.encode component) 8 42 7 (by decide)
      (by decide +kernel) (by decide +kernel)⟩

end Document

end CodeAtlas
