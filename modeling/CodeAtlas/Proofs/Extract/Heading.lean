import CodeAtlas.Proofs.Markdown.Section
import CodeAtlas.Proofs.Markdown.Underline

/-!
# Headings of a document

The outline query of Markdown captures every heading node once and alone, so the findings of a
document are its heading nodes. Where no two of them start at the same byte, each has its signature
and its symbol.
-/

namespace CodeAtlas

namespace Query

def nodeRule (kind name : String) : Rule := ⟨none, .capture (.node (some kind) []) name, []⟩

/-- The kinds of heading nodes and the names under which they are captured. -/
def headings : List (String × String) :=
  [("atx_heading", "heading.declaration"), ("setext_heading", "setext_heading.declaration")]

private theorem role_heading : ∀ h ∈ headings, Role.ofCaptureName h.2 = .declaration := by
  decide +kernel

private theorem not_method_heading :
    ∀ h ∈ headings, SymbolKind.ofTag (captureTag h.2) ≠ .method := by
  decide +kernel

private theorem underlined_mem_headings :
    ("setext_heading", "setext_heading.declaration") ∈ headings :=
  List.mem_cons_of_mem _ List.mem_cons_self

private theorem kind_underlined :
    SymbolKind.ofTag (captureTag "setext_heading.declaration") = .underlinedHeading := by
  decide +kernel

private theorem kind_heading_injective :
    ∀ h ∈ headings, ∀ h' ∈ headings, h.1 = h'.1 → h = h' := by
  decide +kernel

set_option maxRecDepth 30000 in
private theorem rules_markdown :
    rules .markdown .outline = headings.map fun h => nodeRule h.1 h.2 := by
  rw [rules, show text? .markdown .outline = some Markdown.outline.toList from rfl,
    Option.bind_some, toList_of_eq_ofList (show Markdown.outline = _ from rfl)]
  decide +kernel

private theorem matchAt_nodeRule (kind name : String) (s : Site) :
    (nodeRule kind name).matchAt s = if fitsKind (some kind) s then [[⟨name, s⟩]] else [] := by
  by_cases h : fitsKind (some kind) s = true <;>
    simp [nodeRule, Rule.matchAt, Pattern.matchAt, Pattern.matchChildren, h]

/-- A rule for the nodes of a kind captures each of them in a fit of its own. -/
theorem mem_run_nodeRule_iff {kind name : String} {source : Buffer} {t : Tree}
    {captures : List Capture} : captures ∈ (nodeRule kind name).run source t ↔
      ∃ s : Site, s.In t ∧ fitsKind (some kind) s = true ∧ captures = [⟨name, s⟩] := by
  have hfit : ∀ {s : Site} {m : List Capture}, m ∈ (nodeRule kind name).matchAt s ↔
      fitsKind (some kind) s = true ∧ m = [⟨name, s⟩] := by
    intro s m
    rw [matchAt_nodeRule]
    split <;> simp [*]
  constructor
  · intro h
    obtain ⟨s, hs, hm⟩ := Rule.exists_of_mem_run h
    exact ⟨s, hs, hfit.mp hm⟩
  · intro h
    obtain ⟨s, hs, hkind, rfl⟩ := h
    have hmem : [⟨name, s⟩] ∈ t.sites.flatMap (nodeRule kind name).matchAt :=
      List.mem_flatMap.mpr ⟨s, Tree.mem_sites_iff.mpr hs, hfit.mpr ⟨hkind, rfl⟩⟩
    obtain ⟨m, hm, hwithin⟩ := exists_within_maximal hmem
    obtain ⟨s', hs', hm'⟩ := List.mem_flatMap.mp (mem_of_mem_maximal hm)
    obtain ⟨-, rfl⟩ := hfit.mp hm'
    -- The fit that the one at the node is part of is at a node with the same path.
    have hsame : s.path = s'.path := by
      simpa [within, Capture.same, Site.same] using hwithin
    rw [hs.eq_of_path (Tree.mem_sites_iff.mp hs') hsame]
    exact (Rule.run_untested (nodeRule kind name) source t).symm ▸ hm

end Query

def Site.IsHeading (s : Site) : Prop := ∃ h ∈ Query.headings, Query.fitsKind (some h.1) s = true

instance (s : Site) : Decidable s.IsHeading :=
  inferInstanceAs (Decidable (∃ h ∈ Query.headings, _))

namespace Document

variable {d : Document}

def HeadingsApart (d : Document) : Prop :=
  ∀ s n : Site, s.In d.tree → n.In d.tree → s.IsHeading → n.IsHeading →
    s.startByte = n.startByte → s = n

private theorem headingsApart_of_sites (h : ∀ s ∈ d.tree.sites, ∀ n ∈ d.tree.sites,
    s.IsHeading → n.IsHeading → s.startByte = n.startByte → s.path = n.path) : d.HeadingsApart := by
  intro s n hs hn hs' hn' hstart
  apply hs.eq_of_path hn
  exact h s (Tree.mem_sites_iff.mpr hs) n (Tree.mem_sites_iff.mpr hn) hs' hn' hstart

section Findings

variable (hlanguage : d.language = .markdown)
include hlanguage

private theorem ofMatch?_of_heading {h : String × String} (hh : h ∈ Query.headings) {s : Site}
    {m : Query.Match} (hm : m.captures = [⟨h.2, s⟩]) :
    Finding.ofMatch? d.profile d.source m = some ⟨m.rule, [⟨h.2, s⟩], s, s.depthWithin []⟩ := by
  have hrole := Query.role_heading h hh
  have hordered : Finding.inOrder [⟨h.2, s⟩] = [⟨h.2, s⟩] := rfl
  have hattached : Finding.attached d.source [⟨h.2, s⟩] = [⟨h.2, s⟩] := by
    simp [Finding.attached, Finding.role, hrole, Finding.adjacentDocs]
  have hanchor : Finding.anchorOf? [⟨h.2, s⟩] = some s := by
    simp [Finding.anchorOf?, Finding.role, hrole]
  rw [Finding.ofMatch?, hm, hordered, hattached, hanchor, profile, hlanguage]
  rfl

/-- A finding is a heading that is captured alone. -/
theorem exists_heading_of_finding {f : Finding} (hf : f ∈ d.findings) :
    ∃ h ∈ Query.headings, f.anchor.In d.tree ∧ Query.fitsKind (some h.1) f.anchor = true ∧
      f.captures = [⟨h.2, f.anchor⟩] := by
  obtain ⟨m, hm, hmatch⟩ := List.mem_filterMap.mp hf
  obtain ⟨r, hr, hrun⟩ := Query.exists_mem_run_iff.mp ⟨m, hm, rfl⟩
  rw [hlanguage, Query.rules_markdown] at hr
  obtain ⟨h, hh, rfl⟩ := List.mem_map.mp hr
  obtain ⟨s, hs, hkind, hcaptures⟩ := Query.mem_run_nodeRule_iff.mp hrun
  rw [ofMatch?_of_heading hlanguage hh hcaptures] at hmatch
  cases hmatch
  exact ⟨h, hh, hs, hkind, rfl⟩

private theorem exists_finding_of_heading {h : String × String} (hh : h ∈ Query.headings) {s : Site}
    (hs : s.In d.tree) (hkind : Query.fitsKind (some h.1) s = true) :
    ∃ f ∈ d.findings, f.anchor = s ∧ f.captures = [⟨h.2, s⟩] := by
  have hrule : Query.nodeRule h.1 h.2 ∈ Query.rules d.language .outline := by
    rw [hlanguage, Query.rules_markdown]
    exact List.mem_map_of_mem hh
  have hrun : [⟨h.2, s⟩] ∈ (Query.nodeRule h.1 h.2).run d.source d.tree :=
    Query.mem_run_nodeRule_iff.mpr ⟨s, hs, hkind, rfl⟩
  obtain ⟨m, hm, hcaptures⟩ := Query.exists_mem_run_iff.mpr ⟨_, hrule, hrun⟩
  refine ⟨_, List.mem_filterMap.mpr ⟨m, hm, ofMatch?_of_heading hlanguage hh hcaptures⟩, rfl, rfl⟩

section Captured

variable {f : Finding} {h : String × String} (hh : h ∈ Query.headings)
  (hcaptures : f.captures = [⟨h.2, f.anchor⟩])
include hcaptures

private theorem span_of_heading : f.span d.profile d.source = d.source.span f.anchor := by
  rw [Finding.span, hcaptures, profile, hlanguage]
  rfl

include hh

private theorem signatureText_of_heading : f.signatureText d.profile d.source =
    Text.trimEnd (Profile.markdownFragment ⟨d.source, h.2, f.anchor, f.depth, ['\t']⟩) := by
  have hrole := Query.role_heading h hh
  have hshown : [⟨h.2, f.anchor⟩].filter (Finding.role · != .embedded) = [⟨h.2, f.anchor⟩] := by
    simp [Finding.role, hrole]
  rw [Finding.signatureText, hcaptures, hshown, List.flatMap_singleton, profile, hlanguage]
  rfl

private theorem symbol?_of_heading : f.symbol? d.profile d.source =
    (Profile.markdownName? d.source f.anchor).map fun title =>
      ⟨⟨title, .ofTag (captureTag h.2), .ofSpan (d.source.span f.anchor), [],
        .ofSpan (d.source.span f.anchor)⟩, f.anchor.startByte, f.rule⟩ := by
  have hrole := Query.role_heading h hh
  have hnot : SymbolKind.ofTag (captureTag h.2) ≠ .method := Query.not_method_heading h hh
  have hprofile : d.profile = .markdown := by rw [profile, hlanguage]; rfl
  have hname : f.name? d.profile d.source = (Profile.markdownName? d.source f.anchor).map
      fun title => (title, f.anchor, captureTag h.2) := by
    have hnone : [⟨h.2, f.anchor⟩].find? (Finding.role · == .name) = none := by
      simp [Finding.role, hrole]
    have hsome :
        [⟨h.2, f.anchor⟩].find? (Finding.role · == .declaration) = some ⟨h.2, f.anchor⟩ := by
      simp [Finding.role, hrole]
    rw [Finding.name?, hcaptures, hnone, hsome, hprofile]
    cases htitle : Profile.markdownName? d.source f.anchor <;> simp [Profile.markdown, htitle]
  have hdeclaration : f.declaration f.anchor = f.anchor := by
    simp [Finding.declaration, hcaptures, Finding.role, hrole]
  have hdetails : f.details d.profile d.source (.ofTag (captureTag h.2)) f.anchor = [] := by
    simp [Finding.details, hcaptures, Finding.role, hrole, hnot]
  rw [Finding.symbol?, hname]
  cases htitle : Profile.markdownName? d.source f.anchor with
  | none => rfl
  | some title =>
    have hne : title ≠ [] := by
      rw [Profile.markdownName?] at htitle
      split at htitle
      · cases htitle
      · next hne =>
        rw [← Option.some.inj htitle]
        exact hne
    simp only [Option.map_some, Option.bind_eq_bind, Option.bind_some, if_neg hne, hdeclaration]
    have hkind : d.profile.symbolKind d.source (captureTag h.2) f.anchor =
        .ofTag (captureTag h.2) := by rw [hprofile]; rfl
    rw [span_of_heading hlanguage hcaptures, hkind, hdetails]

end Captured

private theorem exists_heading_of_mem_ownSymbols {y : Symbol} (hy : y ∈ d.ownSymbols) :
    ∃ h ∈ Query.headings, ∃ (n : Site) (title : Text), n.In d.tree ∧
      Query.fitsKind (some h.1) n = true ∧ Profile.markdownName? d.source n = some title ∧
      y = ⟨title, .ofTag (captureTag h.2), .ofSpan (d.source.span n), [],
        .ofSpan (d.source.span n)⟩ := by
  obtain ⟨candidate, hcandidate, rfl⟩ := List.mem_map.mp hy
  have hbest := mem_of_mem_keepBest ((sortBy_perm _ _).mem_iff.mp hcandidate)
  obtain ⟨f, hf, hsymbol⟩ := List.mem_filterMap.mp hbest
  obtain ⟨h, hh, hn, hkind, hcaptures⟩ := exists_heading_of_finding hlanguage hf
  rw [symbol?_of_heading hlanguage hh hcaptures] at hsymbol
  obtain ⟨title, htitle, rfl⟩ := Option.map_eq_some_iff.mp hsymbol
  exact ⟨h, hh, f.anchor, title, hn, hkind, htitle, rfl⟩

section Apart

variable (hapart : d.HeadingsApart) {h : String × String} (hh : h ∈ Query.headings) {s : Site}
  (hs : s.In d.tree) (hkind : Query.fitsKind (some h.1) s = true)
include hapart hh hs hkind

private theorem finding_of_startByte_eq {f : Finding} (hf : f ∈ d.findings)
    (hstart : s.startByte = f.anchor.startByte) :
    f.anchor = s ∧ f.captures = [⟨h.2, f.anchor⟩] := by
  obtain ⟨h', hh', hn, hkind', hcaptures⟩ := exists_heading_of_finding hlanguage hf
  obtain rfl : s = f.anchor := hapart s f.anchor hs hn ⟨h, hh, hkind⟩ ⟨h', hh', hkind'⟩ hstart
  have hname : h.1 = h'.1 :=
    (Query.kind_of_fitsKind hkind).symm.trans (Query.kind_of_fitsKind hkind')
  rw [Query.kind_heading_injective h hh h' hh' hname]
  exact ⟨rfl, hcaptures⟩

private theorem exists_best_of_heading {γ : Type} {same better : γ → γ → Bool}
    {candidate : Finding → Option γ} {P : γ → Prop} (startOf : γ → Nat)
    (hrefl : ∀ a, same a a = true)
    (heuc : ∀ a b c, same a b = true → same c b = true → same a c = true)
    (hsame : ∀ a b, same a b = true → startOf a = startOf b)
    (hstarts : ∀ f ∈ d.findings, ∀ a, candidate f = some a → startOf a = f.anchor.startByte)
    (hsome : ∀ f : Finding, f.anchor = s → f.captures = [⟨h.2, f.anchor⟩] →
      ∃ a, candidate f = some a ∧ P a) :
    ∃ b ∈ keepBest same better (d.findings.filterMap candidate), P b := by
  obtain ⟨f, hf, hanchor, hcaptures⟩ := exists_finding_of_heading hlanguage hh hs hkind
  obtain ⟨a, ha, -⟩ := hsome f hanchor (by rw [hanchor, hcaptures])
  obtain ⟨best, hbest, hkey⟩ := exists_mem_keepBest hrefl heuc (List.mem_filterMap.mpr ⟨f, hf, ha⟩)
  obtain ⟨f', hf', hbest'⟩ := List.mem_filterMap.mp (mem_of_mem_keepBest hbest)
  have hstart : s.startByte = f'.anchor.startByte := by
    rw [← hanchor, ← hstarts f hf a ha, hsame a best hkey, hstarts f' hf' best hbest']
  obtain ⟨hanchor', hcaptures'⟩ :=
    finding_of_startByte_eq hlanguage hapart hh hs hkind hf' hstart
  obtain ⟨b, hb, hP⟩ := hsome f' hanchor' hcaptures'
  rw [hbest'] at hb
  rw [← Option.some.inj hb] at hP
  exact ⟨best, hbest, hP⟩

private theorem mem_ownSymbols_of_heading {title : Text}
    (htitle : Profile.markdownName? d.source s = some title) :
    ⟨title, .ofTag (captureTag h.2), .ofSpan (d.source.span s), [], .ofSpan (d.source.span s)⟩ ∈
      d.ownSymbols := by
  obtain ⟨best, hbest, hsymbol⟩ : ∃ b ∈ keepBest SymbolCandidate.same SymbolCandidate.better
      (d.findings.filterMap (Finding.symbol? d.profile d.source)), b.symbol = ⟨title,
        .ofTag (captureTag h.2), .ofSpan (d.source.span s), [], .ofSpan (d.source.span s)⟩ := by
    apply exists_best_of_heading hlanguage hapart hh hs hkind SymbolCandidate.nameStart
    · simp [SymbolCandidate.same]
    · simp +contextual [SymbolCandidate.same]
    · simp [SymbolCandidate.same]
    · intro f hf a ha
      obtain ⟨h', hh', -, -, hcaptures⟩ := exists_heading_of_finding hlanguage hf
      rw [symbol?_of_heading hlanguage hh' hcaptures] at ha
      obtain ⟨title', -, rfl⟩ := Option.map_eq_some_iff.mp ha
      rfl
    · intro f hanchor hcaptures
      rw [symbol?_of_heading hlanguage hh hcaptures, hanchor, htitle]
      exact ⟨_, rfl, rfl⟩
  exact List.mem_map.mpr ⟨best, (sortBy_perm _ _).mem_iff.mpr hbest, hsymbol⟩

private theorem mem_ownSignatures_of_heading {form : Text} (hblank : Text.isBlank form = false)
    (hform : ∀ depth,
      Text.trimEnd (Profile.markdownFragment ⟨d.source, h.2, s, depth, ['\t']⟩) = form) :
    ⟨form, .ofSpan (d.source.span s)⟩ ∈ d.ownSignatures := by
  obtain ⟨best, hbest, hsignature⟩ :
      ∃ b ∈ keepBest SignatureCandidate.same SignatureCandidate.better
        (d.findings.filterMap (candidate? d.profile d.source)),
          b.signature = ⟨form, .ofSpan (d.source.span s)⟩ := by
    apply exists_best_of_heading hlanguage hapart hh hs hkind SignatureCandidate.anchorStart
    · simp [SignatureCandidate.same]
    · simp +contextual [SignatureCandidate.same]
    · simp +contextual [SignatureCandidate.same]
    · intro f _ a ha
      rw [candidate?] at ha
      split at ha
      · cases ha
      · rw [← Option.some.inj ha]
    · intro f hanchor hcaptures
      rw [candidate?, signatureText_of_heading hlanguage hh hcaptures, hanchor, hform, hblank,
        span_of_heading hlanguage hcaptures, hanchor]
      exact ⟨_, rfl, rfl⟩
  exact List.mem_map.mpr ⟨best, hbest, hsignature⟩

end Apart

end Findings

private theorem exists_content_distinct {signatures : List Signature} {content : Text}
    {extent : Extent} (hg : ⟨content, extent⟩ ∈ signatures) :
    ∃ g ∈ Signature.distinct signatures, g.content = content := by
  have hsorted := (sortBy_perm Signature.le signatures).mem_iff.mpr hg
  obtain ⟨g, hg, hsame⟩ := @exists_mem_eraseDupsBy _
    (fun a b : Signature => a.content == b.content) (by simp) _ _ hsorted
  exact ⟨g, hg, (beq_iff_eq.mp hsame).symm⟩

private theorem signatures_of_not_vue (grammars : Grammars) (hvue : d.language ≠ .vue) :
    d.signatures grammars = .ok (Signature.distinct d.ownSignatures) := by
  rw [signatures, innerDocuments, regions_eq_nil hvue]
  refine congrArg Except.ok ?_
  rw [List.reverse_nil, List.flatMap_nil, List.append_nil]

private theorem exists_own_of_mem_sections {text : Text} {symbols : List Symbol} {y : Symbol}
    (hy : y ∈ Markdown.sections text symbols) (hheading : y.kind.isHeading = true) :
    ∃ own ∈ symbols, ∃ stop, own.kind = y.kind ∧
      y = Markdown.closed own (Markdown.headingLevel (.ofText text) own) stop := by
  have hcloses := Markdown.closes_sections text symbols
  obtain ⟨i, hi⟩ := List.mem_iff_getElem?.mp hy
  obtain ⟨own, level, stop, hown, hlevel, -, rfl⟩ := hcloses.exists_heading hi hheading
  have hkind : own.kind.isHeading = true := hheading
  rw [Markdown.level?, if_pos hkind] at hlevel
  refine ⟨own, ?_, stop, rfl, by rw [Option.some.inj hlevel]⟩
  have hmem := List.mem_of_getElem? hown
  rw [Markdown.listFrontMatter] at hmem
  split at hmem
  · rcases List.mem_cons.mp hmem with rfl | hmem
    · cases hkind
    · exact (List.mem_filter.mp hmem).1
  · exact hmem

private theorem exists_mem_sections_of_own {text : Text} {symbols : List Symbol} {own : Symbol}
    {i : Nat}
    (hown : own ∈ symbols) (hheading : own.kind.isHeading = true) (hi : i ≤ Utf8.size text)
    (hstart : own.extent.startPoint = text.pointOf i)
    (hfront : ∀ stop, Markdown.frontMatterEnd? text = some stop → stop ≤ i) :
    ∃ level stop, Markdown.closed own level stop ∈ Markdown.sections text symbols := by
  have hkept := Markdown.kept_listFrontMatter text symbols
  have hmem : own ∈ Markdown.listFrontMatter text (.ofText text) symbols := by
    cases hend : Markdown.frontMatterEnd? text with
    | none =>
      rw [hkept.without hend]
      exact hown
    | some stop =>
      have hle := hfront stop hend
      rw [hkept.with_front stop hend]
      apply List.mem_cons_of_mem
      apply List.mem_filter.mpr
      rw [hstart, Text.isLE_compare_pointOf_iff (Nat.le_trans hle hi) hi]
      exact ⟨hown, hle⟩
  have hcloses := Markdown.closes_sections text symbols
  obtain ⟨j, hj⟩ := List.mem_iff_getElem?.mp hmem
  obtain ⟨level, stop, -, -, hclosed⟩ := hcloses.headings j own hj hheading
  exact ⟨level, stop, List.mem_of_getElem? hclosed⟩

private theorem startByte_eq_of_startPoint_eq (hd : d.WellFormed)
    {s n : Site} (hs : s.In d.tree) (hn : n.In d.tree)
    (h : (d.source.span s).startPoint = (d.source.span n).startPoint) :
    s.startByte = n.startByte := by
  have hbyte : ∀ {m : Site}, m.In d.tree →
      d.source.lines.byteOf (d.source.span m).startPoint = m.startByte := by
    intro m hm
    have hfits := (hd.located_span hm).starts.le_size
    rw [hd.source]
    exact LineTable.byteOf_pointOf _ hfits
  rw [← hbyte hs, ← hbyte hn, h]

private theorem headingLevel_site_iff (hd : d.WellFormed)
    {s : Site} (hs : s.In d.tree) {first : Text} {more : List Text} {mark : Char}
    (htext : Markdown.Underlined (d.source.text s) first more mark) {own : Symbol}
    (hkind : own.kind = .underlinedHeading) (hextent : own.extent = .ofSpan (d.source.span s)) :
    Markdown.headingLevel (.ofText d.text) own = Markdown.markLevel mark ↔
      ∀ line, more.find? (fun l => Markdown.underlines (Text.trim l)) = some line →
        (Text.trim line).head? = some mark := by
  have hn := hs.wellFormed hd.tree
  obtain ⟨x, t, z, hsplit, hstart, hstop⟩ :=
    hn.isBoundary_startByte.split hn.isBoundary_endByte hn.start_le_end
  rw [hd.source] at htext hextent
  have ht : (Buffer.ofText d.text).text s = t := by
    have hslice : (Utf8.encode d.text).slice s.startByte s.endByte = Utf8.encode t := by
      have hencode := Utf8.slice_encode x t z
      rwa [← hsplit, hstart, hstop] at hencode
    exact (Buffer.text_eq_iff hn t).mpr hslice
  rw [ht] at htext
  have hends : Utf8.size (x ++ t) = s.endByte := by
    rw [Utf8.size_append, hstart, hstop]
    rfl
  have hpoints : own.extent =
      ⟨d.text.pointOf (Utf8.size x), d.text.pointOf (Utf8.size (x ++ t))⟩ := by
    rw [hextent, hstart, hends]
    rfl
  rw [hsplit] at hpoints ⊢
  exact htext.headingLevel_eq_iff hkind (by rw [hpoints]) (by rw [hpoints])

private theorem symbols_of_markdown (grammars : Grammars) (hlanguage : d.language = .markdown) :
    d.symbols grammars = .ok (Markdown.sections d.text (sortBy Symbol.le d.ownSymbols)) := by
  have hvue : d.language ≠ .vue := by
    rw [hlanguage]
    decide
  rw [symbols_of_not_vue grammars hvue, arrange, if_pos hlanguage]

section Underlined

variable (hlanguage : d.language = .markdown) (hapart : d.HeadingsApart) {s : Site}
  (hs : s.In d.tree) (hkind : Query.fitsKind (some "setext_heading") s = true)

include hlanguage hapart hs hkind

private theorem mem_ownSignatures_of_underlined {first : Text} {more : List Text} {mark : Char}
    (htext : Markdown.Underlined (d.source.text s) first more mark) :
    ⟨Text.trimEnd (Profile.markedHeading (d.source.text s)), .ofSpan (d.source.span s)⟩ ∈
      d.ownSignatures := by
  have hrole : Role.ofCaptureName "setext_heading.declaration" = .declaration :=
    Query.role_heading _ Query.underlined_mem_headings
  have hstarts : "setext_heading".toList.isPrefixOf "setext_heading.declaration".toList = true := by
    decide +kernel
  apply mem_ownSignatures_of_heading hlanguage hapart Query.underlined_mem_headings hs hkind
  · obtain ⟨title, htitle⟩ := htext.exists_markedHeading
    rw [Text.isBlank_trimEnd, htitle, Text.isBlank_append]
    rcases htext.marks with rfl | rfl <;> rfl
  · intro depth
    rw [Profile.markdownFragment, if_pos hrole, if_pos hstarts]
    rfl

/-- A symbol declared where an underlined heading stands is that heading's. -/
theorem own_of_declaration_eq (hd : d.WellFormed)
    {own : Symbol} (hown : own ∈ d.ownSymbols)
    (hdeclaration : own.declaration = .ofSpan (d.source.span s)) :
    own.kind = .underlinedHeading ∧ own.extent = .ofSpan (d.source.span s) ∧ own.details = [] := by
  obtain ⟨h, hh, n, title, hn, hkind', -, rfl⟩ := exists_heading_of_mem_ownSymbols hlanguage hown
  have hstart : s.startByte = n.startByte :=
    startByte_eq_of_startPoint_eq hd hs hn (congrArg Extent.startPoint hdeclaration).symm
  obtain rfl : s = n :=
    hapart s n hs hn ⟨_, Query.underlined_mem_headings, hkind⟩ ⟨h, hh, hkind'⟩ hstart
  obtain rfl : _ = h := Query.kind_heading_injective _ Query.underlined_mem_headings h hh
    ((Query.kind_of_fitsKind hkind).symm.trans (Query.kind_of_fitsKind hkind'))
  exact ⟨Query.kind_underlined, rfl, rfl⟩

end Underlined

/-- For an underlined heading of a Markdown document no two headings of which start at the same
byte: its signature is written with as many marks as its underline stands for, and it has a symbol
unless it has no title or starts in the front matter. The level that is recorded for its symbol is
the number of those marks exactly if the first further line of its title that starts with a mark of
an underline, if there is one, starts with the mark of its own underline. -/
theorem underlined_level_agrees_iff (grammars : Grammars) (d : Document)
    (hlanguage : d.language = .markdown) (hd : d.WellFormed) (hapart : d.HeadingsApart) {s : Site}
    (hs : s.In d.tree) (hkind : Query.fitsKind (some "setext_heading") s = true)
    {first : Text} {more : List Text} {mark : Char}
    (htext : Markdown.Underlined (d.source.text s) first more mark) :
    ∃ signatures symbols form, d.signatures grammars = .ok signatures ∧
      d.symbols grammars = .ok symbols ∧
      ⟨form, .ofSpan (d.source.span s)⟩ ∈ d.ownSignatures ∧ (∃ g ∈ signatures, g.content = form) ∧
      Markdown.hashCount form = Markdown.markLevel mark ∧
      (Markdown.headingTitle (Text.firstLine (d.source.text s)) ≠ [] →
        (∀ stop, Markdown.frontMatterEnd? d.text = some stop → stop ≤ s.startByte) →
        ∃ y ∈ symbols, y.kind = .underlinedHeading ∧ y.declaration = .ofSpan (d.source.span s)) ∧
      ∀ y ∈ symbols, y.kind.isHeading = true → y.declaration = .ofSpan (d.source.span s) →
        ∃ level, y.details = [⟨"heading.level", Text.ofNat level⟩] ∧
          (level = Markdown.hashCount form ↔
            ∀ line, more.find? (fun l => Markdown.underlines (Text.trim l)) = some line →
              (Text.trim line).head? = some mark) := by
  have hvue : d.language ≠ .vue := by
    rw [hlanguage]
    decide
  have hmarks := htext.hashCount_markedHeading
  have hsigned := mem_ownSignatures_of_underlined hlanguage hapart hs hkind htext
  refine ⟨Signature.distinct d.ownSignatures, _,
    Text.trimEnd (Profile.markedHeading (d.source.text s)),
    signatures_of_not_vue grammars hvue, symbols_of_markdown grammars hlanguage, hsigned,
    exists_content_distinct hsigned, hmarks, ?_, ?_⟩
  · intro htitle hfront
    have hname : Profile.markdownName? d.source s =
        some (Markdown.headingTitle (Text.firstLine (d.source.text s))) := if_neg htitle
    have hown :=
      mem_ownSymbols_of_heading hlanguage hapart Query.underlined_mem_headings hs hkind hname
    have hlisted := (sortBy_perm Symbol.le _).mem_iff.mpr hown
    have hlocated := hd.located_span hs
    obtain ⟨level, stop, hclosed⟩ :=
      exists_mem_sections_of_own hlisted (by rw [Query.kind_underlined]; rfl)
      hlocated.starts.le_size hlocated.start_point hfront
    exact ⟨_, hclosed, Query.kind_underlined, rfl⟩
  · intro y hy hheading hdeclaration
    obtain ⟨own, hown, stop, -, rfl⟩ := exists_own_of_mem_sections hy hheading
    obtain ⟨hunderlined, hextent, hdetails⟩ := own_of_declaration_eq hlanguage hapart hs hkind hd
      ((sortBy_perm _ _).mem_iff.mp hown) hdeclaration
    refine ⟨Markdown.headingLevel (.ofText d.text) own, ?_, ?_⟩
    · rw [Markdown.closed, hdetails, List.nil_append]
    · rw [hmarks]
      exact headingLevel_site_iff hd hs htext hunderlined hextent

namespace ColderThan

/-- A title in two lines, the second of which starts with a minus sign, and an underline. -/
def source (mark : Char) : Text := "Colder than\n-5 degrees\n".toList ++ [mark, mark, mark, '\n']

def nodes (mark : Char) : Tree :=
  .named "document" 0 27 "" [
    .named "section" 0 27 "" [
      .named "setext_heading" 0 27 "" [
        .named "paragraph" 0 23 "heading_content" [
          .named "inline" 0 22 "" [
            .mark "-" 12 13]],
        .named (if mark = '=' then "setext_h1_underline" else "setext_h2_underline") 23 26 "" []]]]

def document (mark : Char) : Document := ⟨.markdown, source mark, .ofText (source mark), nodes mark⟩

/-- The heading, whose title has a further line, under three times the mark. -/
def Heads (mark : Char) (s : Site) : Prop :=
  s.In (nodes mark) ∧ Query.fitsKind (some "setext_heading") s = true ∧
    (document mark).source.text s = source mark ∧
    Markdown.Underlined (source mark) "Colder than".toList ["-5 degrees".toList] mark

private theorem exists_heads {mark : Char} (h : mark = '=' ∨ mark = '-') : ∃ s, Heads mark s := by
  have hfound : ∃ s ∈ (nodes mark).sites, Query.fitsKind (some "setext_heading") s = true ∧
      (document mark).source.text s = source mark := by
    rcases h with rfl | rfl <;> decide +kernel
  have hunderlined :
      Markdown.Underlined (source mark) "Colder than".toList ["-5 degrees".toList] mark := by
    refine ⟨h, by decide +kernel, [mark, mark, mark], [[]], ?_, ?_, rfl⟩
    · rcases h with rfl | rfl <;> decide +kernel
    · rcases h with rfl | rfl <;> decide +kernel
  obtain ⟨s, hs, hkind, htext⟩ := hfound
  exact ⟨s, Tree.mem_sites_iff.mp hs, hkind, htext, hunderlined⟩

end ColderThan

open ColderThan in
theorem underlined_level_agrees_iff_single :
    ((document '-').WellFormed ∧ (document '-').HeadingsApart) ∧
    ∃ s signatures symbols form, Heads '-' s ∧
      (document '-').signatures (fun _ _ => none) = .ok signatures ∧
      (document '-').symbols (fun _ _ => none) = .ok symbols ∧
      (∃ g ∈ signatures, g.content = form) ∧ Markdown.hashCount form = 2 ∧
      ∃ y ∈ symbols, y.declaration = .ofSpan ((document '-').source.span s) ∧
        y.details = [⟨"heading.level", Text.ofNat 2⟩] := by
  have hd : (document '-').WellFormed := ⟨rfl, by decide +kernel⟩
  have hapart : (document '-').HeadingsApart := headingsApart_of_sites (by decide +kernel)
  obtain ⟨s, hs, hkind, htext, hunderlined⟩ := exists_heads (Or.inr rfl)
  obtain ⟨signatures, symbols, form, hsignatures, hsymbols, -, hlisted, hmarks, hexists, hlevels⟩ :=
    underlined_level_agrees_iff (fun _ _ => none) (document '-') rfl hd hapart hs
      hkind (htext.symm ▸ hunderlined)
  have hfront : ∀ stop, Markdown.frontMatterEnd? (document '-').text = some stop →
      stop ≤ s.startByte := by
    intro stop hstop
    rw [show Markdown.frontMatterEnd? (document '-').text = none by decide +kernel] at hstop
    cases hstop
  have htitle : Markdown.headingTitle (Text.firstLine ((document '-').source.text s)) ≠ [] := by
    rw [htext]
    decide +kernel
  obtain ⟨y, hy, hyheading, hydeclaration⟩ := hexists htitle hfront
  obtain ⟨level, hdetails, hagrees⟩ := hlevels y hy (by rw [hyheading]; rfl) hydeclaration
  have hlevel : level = 2 := by
    rw [hagrees.mpr, hmarks]
    · rfl
    · intro line hline
      rw [← Option.some.inj hline]
      decide +kernel
  refine ⟨⟨hd, hapart⟩, s, signatures, symbols, form, ⟨hs, hkind, htext, hunderlined⟩, hsignatures,
    hsymbols, hlisted, hmarks, y, hy, hydeclaration, ?_⟩
  rw [hdetails, hlevel]

open ColderThan in
/-- The level of a heading is read from a line of its title. -/
theorem underlined_level_differs :
    ∃ s signatures symbols, Heads '=' s ∧
      (document '=').signatures (fun _ _ => none) = .ok signatures ∧
      (document '=').symbols (fun _ _ => none) = .ok symbols ∧
      signatures.map (·.content) = ["# Colder than -5 degrees".toList] ∧
      symbols.map (·.details) = [[⟨"heading.level", Text.ofNat 2⟩]] := by
  obtain ⟨s, hs⟩ := exists_heads (Or.inl rfl)
  have hmatches : (document '=').outlineMatches = Query.run
      (Query.headings.map fun h => Query.nodeRule h.1 h.2) (document '=').source (nodes '=') := by
    rw [← Query.rules_markdown]
    rfl
  refine ⟨s, _, _, hs, signatures_of_not_vue _ (by decide), symbols_of_not_vue _ (by decide), ?_,
    ?_⟩
  · rw [ownSignatures, findings, hmatches]
    decide +kernel
  · rw [ownSymbols, findings, hmatches]
    decide +kernel

end Document

end CodeAtlas
