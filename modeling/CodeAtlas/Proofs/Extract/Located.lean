import CodeAtlas.Extract.Signature
import CodeAtlas.Proofs.Extract.Listing
import CodeAtlas.Proofs.Steps

/-!
# Located spans

What is found in a document with a well-formed tree is located in its text: it covers whole
characters, and its points are those of the bytes it starts and ends with.
-/

namespace CodeAtlas

def Text.pointOf (t : Text) (byte : Nat) : Point := (LineTable.ofBytes (Utf8.encode t)).pointOf byte

/-- A span of whole characters of a text whose points are those of its bytes. -/
structure Span.Located (text : Text) (s : Span) : Prop where
  starts : text.IsBoundary s.startByte
  ends : text.IsBoundary s.endByte
  ordered : s.startByte ≤ s.endByte
  start_point : s.startPoint = text.pointOf s.startByte
  end_point : s.endPoint = text.pointOf s.endByte

structure Extent.Located (text : Text) (e : Extent) : Prop where
  start_point : ∃ i, text.IsBoundary i ∧ e.startPoint = text.pointOf i
  end_point : ∃ i, text.IsBoundary i ∧ e.endPoint = text.pointOf i

structure Hit.Located (text : Text) (h : Hit) : Prop where
  span : h.span.Located text
  name : ∀ s ∈ h.name, s.Located text

section Spans

variable {text : Text} {s other : Span} {n : Site} {source : Buffer}

theorem Span.Located.extent (h : s.Located text) : (Extent.ofSpan s).Located text :=
  ⟨⟨_, h.starts, h.start_point⟩, ⟨_, h.ends, h.end_point⟩⟩

theorem Span.Located.extend (hs : s.Located text) (hother : other.Located text) :
    (s.extend other).Located text := by
  have hstart : text.IsBoundary (s.extend other).startByte ∧
      (s.extend other).startPoint = text.pointOf (s.extend other).startByte := by
    unfold Span.extend
    grind [hs.starts, hs.start_point, hother.starts, hother.start_point]
  have hend : text.IsBoundary (s.extend other).endByte ∧
      (s.extend other).endPoint = text.pointOf (s.extend other).endByte := by
    unfold Span.extend
    grind [hs.ends, hs.end_point, hother.ends, hother.end_point]
  refine ⟨hstart.1, hend.1, ?_, hstart.2, hend.2⟩
  have hordered := hs.ordered
  rw [Span.startByte_extend, Span.endByte_extend]
  omega

theorem located_span (hn : n.tree.WellFormed text) : ((Buffer.ofText text).span n).Located text :=
  ⟨hn.isBoundary_startByte, hn.isBoundary_endByte, hn.start_le_end, rfl, rfl⟩

private theorem located_joinAbove {waiting : Option Span} (hwaiting : ∀ w ∈ waiting, w.Located text)
    (hn : n.tree.WellFormed text) : (joinAbove (.ofText text) waiting n).Located text := by
  rw [joinAbove]
  split
  · next block hblock =>
    have hlocated := hwaiting block (Option.filter_eq_some_iff.mp hblock).1
    split
    · exact hlocated.extend (located_span hn)
    · exact (located_span hn).extend hlocated
  · exact located_span hn

private theorem located_foldComments {sites : List Site}
    (hsites : ∀ n ∈ sites, n.tree.WellFormed text)
    {waiting : Option Span} (hwaiting : ∀ w ∈ waiting, w.Located text) :
    ∀ s ∈ foldComments (.ofText text) waiting sites, s.Located text := by
  induction sites generalizing waiting with
  | nil => exact fun _ h => by cases h
  | cons n sites ih =>
    obtain ⟨hn, hsites⟩ := List.forall_mem_cons.mp hsites
    have hjoined := located_joinAbove hwaiting hn
    rw [foldComments]
    split
    · apply ih hsites
      intro w hw
      rw [← Option.some.inj hw]
      exact hjoined
    · rw [List.forall_mem_cons]
      exact ⟨hjoined, ih hsites (by simp)⟩

end Spans

namespace Document

variable {d : Document} {m : Query.Match} {rules : List Query.Rule}

theorem WellFormed.located_span (hd : d.WellFormed) {n : Site} (hn : n.In d.tree) :
    (d.source.span n).Located d.text := by
  rw [hd.source]
  exact CodeAtlas.located_span (hn.wellFormed hd.tree)

theorem located_ownHeaders (hd : d.WellFormed) {s : Span} (hs : s ∈ d.ownHeaders) :
    s.Located d.text := by
  obtain ⟨m, hm, hs⟩ := List.mem_flatMap.mp hs
  obtain ⟨c, hc, rfl⟩ := List.mem_map.mp hs
  exact hd.located_span (Query.site_in_tree hm (List.mem_filter.mp hc).1)

private theorem located_hitsOfMatch (hd : d.WellFormed) (hm : m ∈ Query.run rules d.source d.tree)
    {h : Hit} (hh : h ∈ hitsOfMatch d.source m) : h.Located d.text := by
  obtain ⟨span, hspan, rfl⟩ := List.mem_map.mp hh
  refine ⟨?_, ?_⟩
  · have hsites : ∀ n ∈ declaredSites m, n.tree.WellFormed d.text := by
      intro n hn
      obtain ⟨c, hc, -, rfl⟩ := (mem_declaredSites_iff fun _ => Query.site_in_tree hm).mp hn
      exact (Query.site_in_tree hm hc).wellFormed hd.tree
    rw [hd.source] at hspan
    exact located_foldComments hsites (by simp) span hspan
  · intro s hs
    simp only [Option.map_map, Option.mem_def, Option.map_eq_some_iff] at hs
    obtain ⟨c, hc, rfl⟩ := hs
    exact hd.located_span (Query.site_in_tree hm (List.mem_of_find?_eq_some hc))

theorem located_queryHits (hd : d.WellFormed) {purpose : Query.Purpose} {render : Text → Text}
    {hits : List Hit} (hhits : d.queryHits purpose render = .ok hits) :
    ∀ h ∈ hits, h.Located d.text := by
  rw [queryHits] at hhits
  split at hhits
  · cases hhits
    simp
  · split at hhits
    · cases hhits
    · cases hhits
      intro h hh
      obtain ⟨m, hm, hh⟩ := List.mem_flatMap.mp ((sortBy_perm _ _).mem_iff.mp hh)
      exact located_hitsOfMatch hd hm hh

theorem located_hitsByQuery (hd : d.WellFormed) {name : Text} {hits : List Hit}
    (hhits : d.hitsByQuery name = .ok hits) : ∀ h ∈ hits, h.Located d.text := by
  rw [hitsByQuery] at hhits
  split at hhits
  · obtain ⟨qualified, hqualified, hhits⟩ := bind_eq_ok_iff.mp hhits
    split at hhits
    · exact located_queryHits hd hhits
    · cases hhits
      exact located_queryHits hd hqualified
  · exact located_queryHits hd hhits

end Document

namespace Finding

variable {d : Document} {f : Finding}

theorem site_in_tree (hf : f ∈ d.findings) {c : Query.Capture} (hc : c ∈ f.captures) :
    c.site.In d.tree := by
  obtain ⟨m, hm, hf⟩ := List.mem_filterMap.mp hf
  exact Query.site_in_tree hm (mem_captures_of_ofMatch? hf hc)

private theorem in_tree_of_anchorOf? {t : Tree} {captures : List Query.Capture}
    (hcaptures : ∀ c ∈ captures, c.site.In t) {n : Site} (hn : anchorOf? captures = some n) :
    n.In t := by
  rw [anchorOf?] at hn
  simp only [Option.orElse_eq_orElse, Option.orElse_eq_or, Option.or_eq_some_iff,
    Option.map_eq_some_iff, Option.bind_eq_some_iff] at hn
  rcases hn with ⟨c, hc, rfl⟩ | ⟨-, ⟨c, hc, hparent⟩ | ⟨-, c, hc, rfl⟩⟩
  · exact hcaptures c (List.mem_of_find?_eq_some hc)
  · exact ((hcaptures c (List.mem_of_find?_eq_some hc)).of_parent? hparent).1
  · exact hcaptures c (List.mem_of_find?_eq_some hc)

private theorem anchor_in_tree (hf : f ∈ d.findings) : f.anchor.In d.tree := by
  obtain ⟨m, hm, hmatch⟩ := List.mem_filterMap.mp hf
  obtain ⟨anchor, hanchor, hmatch⟩ := Option.bind_eq_some_iff.mp hmatch
  split at hmatch
  · cases hmatch
    exact in_tree_of_anchorOf? (fun c hc => site_in_tree hf hc) hanchor
  · cases hmatch

private theorem located_foldl_extendWith {text : Text} {spans : List Span}
    (hspans : ∀ s ∈ spans, s.Located text) (acc : Option Span) (hacc : ∀ s ∈ acc, s.Located text) :
    ∀ s ∈ spans.foldl extendWith acc, s.Located text := by
  induction spans generalizing acc with
  | nil => exact hacc
  | cons s spans ih =>
    obtain ⟨hs, hspans⟩ := List.forall_mem_cons.mp hspans
    apply ih hspans
    intro t ht
    cases acc with
    | none =>
      cases ht
      exact hs
    | some a =>
      cases ht
      exact (hacc a rfl).extend hs

theorem located_span (hd : d.WellFormed) (hf : f ∈ d.findings) :
    (f.span d.profile d.source).Located d.text := by
  have hspans : ∀ s ∈ (f.captures.filter fun c => d.profile.widens c.name (role c)).map
      (fun c => d.source.span c.site), s.Located d.text := by
    intro s hs
    obtain ⟨c, hc, rfl⟩ := List.mem_map.mp hs
    exact hd.located_span (site_in_tree hf (List.mem_filter.mp hc).1)
  have hall := located_foldl_extendWith hspans none (by simp)
  rw [span]
  cases hfold : List.foldl extendWith none _ with
  | none => exact hd.located_span (anchor_in_tree hf)
  | some s => exact hall s hfold

private theorem in_tree_of_name? (hf : f ∈ d.findings) {content : Text} {n : Site} {tag : String}
    (h : f.name? d.profile d.source = some (content, n, tag)) : n.In d.tree := by
  rw [name?] at h
  split at h
  · next c hc =>
    cases h
    exact site_in_tree hf (List.mem_of_find?_eq_some hc)
  · obtain ⟨c, hc, h⟩ := Option.bind_eq_some_iff.mp h
    obtain ⟨name, -, h⟩ := Option.bind_eq_some_iff.mp h
    cases h
    exact site_in_tree hf (List.mem_of_find?_eq_some hc)

private theorem declaration_in_tree (hf : f ∈ d.findings) {n : Site} (hn : n.In d.tree) :
    (f.declaration n).In d.tree := by
  rw [declaration]
  cases hfind : f.captures.find? (role · == .declaration) with
  | some c => exact site_in_tree hf (List.mem_of_find?_eq_some hfind)
  | none =>
    cases hparent : n.parent? with
    | some p => exact (hn.of_parent? hparent).1
    | none => exact hn

end Finding

namespace Document

variable {d : Document}

/-- A signature has the text and the place of a finding. -/
theorem exists_finding_of_mem_ownSignatures {s : Signature} (hs : s ∈ d.ownSignatures) :
    ∃ f ∈ d.findings, Text.isBlank s.content = false ∧
      s = ⟨f.signatureText d.profile d.source, .ofSpan (f.span d.profile d.source)⟩ := by
  obtain ⟨candidate, hcandidate, rfl⟩ := List.mem_map.mp hs
  obtain ⟨f, hf, hsome⟩ := List.mem_filterMap.mp (mem_of_mem_keepBest hcandidate)
  rw [candidate?] at hsome
  split at hsome
  · cases hsome
  · next hblank =>
    cases hsome
    exact ⟨f, hf, by simpa using hblank, rfl⟩

theorem exists_finding_of_mem_ownSymbols {s : Symbol} (hs : s ∈ d.ownSymbols) :
    ∃ f ∈ d.findings, ∃ n : Site, n.In d.tree ∧ s.content ≠ [] ∧
      s.extent = .ofSpan (f.span d.profile d.source) ∧
      s.declaration = .ofSpan (d.source.span n) := by
  obtain ⟨candidate, hcandidate, rfl⟩ := List.mem_map.mp hs
  have hbest := mem_of_mem_keepBest ((sortBy_perm _ _).mem_iff.mp hcandidate)
  obtain ⟨f, hf, hsymbol⟩ := List.mem_filterMap.mp hbest
  obtain ⟨⟨content, n, tag⟩, hname, hsymbol⟩ := Option.bind_eq_some_iff.mp hsymbol
  have hn := Finding.in_tree_of_name? hf hname
  dsimp only at hsymbol
  split at hsymbol
  · cases hsymbol
  · next hcontent =>
    cases hsymbol
    exact ⟨f, hf, _, Finding.declaration_in_tree hf hn, hcontent, rfl, rfl⟩

theorem located_ownSignatures (hd : d.WellFormed) {s : Signature} (hs : s ∈ d.ownSignatures) :
    s.extent.Located d.text := by
  obtain ⟨f, hf, -, rfl⟩ := exists_finding_of_mem_ownSignatures hs
  exact (Finding.located_span hd hf).extent

theorem located_ownSymbols (hd : d.WellFormed) {s : Symbol} (hs : s ∈ d.ownSymbols) :
    s.extent.Located d.text ∧ s.declaration.Located d.text := by
  obtain ⟨f, hf, n, hn, -, hextent, hdeclaration⟩ := exists_finding_of_mem_ownSymbols hs
  rw [hextent, hdeclaration]
  exact ⟨(Finding.located_span hd hf).extent, (hd.located_span hn).extent⟩

end Document

end CodeAtlas
