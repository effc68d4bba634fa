import CodeAtlas.Proofs.Block.Normal
import CodeAtlas.Proofs.Extract.Definition
import CodeAtlas.Proofs.Query.Hygiene
import CodeAtlas.Proofs.Query.Listing

/-!
# Looking up listed names

A listed symbol can be looked up by its name if the name is written without blanks around it, is not
read as a qualified name, and does not stand in the list of a group of specifications. A name that
is read as a qualified one finds only what is called like the part after its first dot.
-/

namespace CodeAtlas

open Query (isName queriedLanguages Ascends DirectlyOwned)

section Spans

variable {s other : Span} {source : Buffer} {waiting : Option Span} {sites : List Site} {n : Site}

theorem Span.startByte_extend : (s.extend other).startByte = min s.startByte other.startByte := by
  unfold Span.extend
  grind

theorem Span.endByte_extend : (s.extend other).endByte = max s.endByte other.endByte := by
  unfold Span.extend
  grind

private theorem joinAbove_cases (source : Buffer) (waiting : Option Span) (n : Site) :
    joinAbove source waiting n = source.span n ∨ ∃ block ∈ waiting,
      (joinAbove source waiting n).startByte = min n.startByte block.startByte ∧
      (joinAbove source waiting n).endByte = max n.endByte block.endByte := by
  rw [joinAbove]
  split
  · next block hblock =>
      refine Or.inr ⟨block, (Option.filter_eq_some_iff.mp hblock).1, ?_⟩
      split <;> rw [Span.startByte_extend, Span.endByte_extend]
      · exact ⟨Nat.min_comm .., Nat.max_comm ..⟩
      · exact ⟨rfl, rfl⟩
  · exact Or.inl rfl

private theorem joinAbove_covers (source : Buffer) (waiting : Option Span) (n : Site) :
    (joinAbove source waiting n).startByte ≤ n.startByte ∧
      n.endByte ≤ (joinAbove source waiting n).endByte := by
  rcases joinAbove_cases source waiting n with heq | ⟨block, -, hstart, hend⟩
  · rw [heq]
    exact ⟨Nat.le_refl _, Nat.le_refl _⟩
  · omega

/-- A declaration lies inside the span of one of the definitions. -/
theorem exists_mem_foldComments (h : n ∈ sites) (hcomment : n.isComment = false) :
    ∃ span ∈ foldComments source waiting sites,
      span.startByte ≤ n.startByte ∧ n.endByte ≤ span.endByte := by
  induction sites generalizing waiting with
  | nil => cases h
  | cons t sites ih =>
      rw [foldComments]
      rcases List.mem_cons.mp h with rfl | h
      · rw [hcomment]
        exact ⟨_, List.mem_cons_self, joinAbove_covers source waiting n⟩
      · split
        · exact ih h
        · obtain ⟨span, hspan, hcovers⟩ : ∃ span ∈ foldComments source none sites, _ := ih h
          exact ⟨span, List.mem_cons_of_mem _ hspan, hcovers⟩

private theorem ordered_foldComments (hsites : ∀ t ∈ sites, t.startByte ≤ t.endByte) :
    ∀ span ∈ foldComments source waiting sites, span.startByte ≤ span.endByte := by
  induction sites generalizing waiting with
  | nil => exact fun _ h => by cases h
  | cons t sites ih =>
      obtain ⟨ht, hsites⟩ := List.forall_mem_cons.mp hsites
      rw [foldComments]
      split
      · exact ih hsites
      · rw [List.forall_mem_cons]
        have hcovers := joinAbove_covers source waiting t
        exact ⟨by omega, ih hsites⟩

end Spans

section Matches

variable {t text : Text} {rules outline : List Query.Rule} {source : Buffer} {tree : Tree}
  {m : Query.Match} {n : Site}

theorem mem_declaredSites_iff (hin : ∀ c ∈ m.captures, c.site.In tree) :
    n ∈ declaredSites m ↔
      ∃ c ∈ m.captures, Role.ofCaptureName c.name = .declaration ∧ c.site = n := by
  constructor
  · intro h
    have hmem := (sortBy_perm _ _).mem_iff.mp (mem_of_mem_dedupRuns h)
    obtain ⟨c, hc, rfl⟩ := List.mem_map.mp hmem
    exact ⟨c, (List.mem_filter.mp hc).1, by simpa using (List.mem_filter.mp hc).2, rfl⟩
  · rintro ⟨c, hc, hrole, rfl⟩
    have hmem : c.site ∈ (m.captures.filter fun c =>
        Role.ofCaptureName c.name = .declaration).map (·.site) :=
      List.mem_map_of_mem (List.mem_filter.mpr ⟨hc, by simpa using hrole⟩)
    obtain ⟨s, hs, hsame⟩ := exists_mem_dedupRuns ((sortBy_perm _ _).mem_iff.mpr hmem)
    have hcaptured := (sortBy_perm _ _).mem_iff.mp (mem_of_mem_dedupRuns hs)
    obtain ⟨c', hc', rfl⟩ := List.mem_map.mp hcaptured
    obtain heq : c'.site = c.site := hsame.elim id
      ((hin c' (List.mem_filter.mp hc').1).same_iff (hin c hc)).mp
    rw [← heq]
    exact hs

private theorem start_le_end_of_mem_hitsOfMatch (htree : tree.WellFormed text)
    (hm : m ∈ Query.run rules source tree) {h : Hit} (hh : h ∈ hitsOfMatch source m) :
    h.span.startByte ≤ h.span.endByte := by
  obtain ⟨span, hspan, rfl⟩ := List.mem_map.mp hh
  refine ordered_foldComments (fun s hs => ?_) span hspan
  obtain ⟨c, hc, -, rfl⟩ := (mem_declaredSites_iff fun _ => Query.site_in_tree hm).mp hs
  exact ((Query.site_in_tree hm hc).wellFormed htree).start_le_end

private theorem exists_hit_around_name (htemplate : Query.DefinitionTemplate t rules)
    (hagree : Query.Agree outline rules) (htree : tree.WellFormed text)
    (hm : m ∈ Query.run (rules.map Query.Rule.untested) source tree) (hn : m.Names n) :
    ∃ h ∈ hitsOfMatch source m, h.span.startByte ≤ n.startByte ∧ n.endByte ≤ h.span.endByte := by
  obtain ⟨r, hr, s, hs, hfit, route, -, -, htaken⟩ := htemplate.exists_root hm hn
  obtain ⟨hcomment, c, hc, hsite, hrole⟩ :=
    Query.Rule.exists_of_declaresRoot (hagree.declares r hr) hfit
  have hdeclared : s ∈ declaredSites m :=
    (mem_declaredSites_iff fun _ => Query.site_in_tree hm).mpr ⟨c, hc, hrole, hsite⟩
  obtain ⟨span, hspan, hcovers⟩ : ∃ span ∈ foldComments source none (declaredSites m), _ :=
    exists_mem_foldComments hdeclared hcomment
  obtain ⟨-, hstart, hend⟩ := htaken.1.inside (hs.wellFormed htree)
  exact ⟨_, List.mem_map_of_mem hspan, Nat.le_trans hcovers.1 hstart, Nat.le_trans hend hcovers.2⟩

end Matches

theorem Hit.span_block (h : Hit) : h.block.span = h.span := by
  rw [Hit.block]
  split
  · rw [Block.withName]
    split <;> rfl
  · rfl

namespace Document

variable {d : Document} {name : Text} {n : Site}

/-- Whether the definition query for a name captures a node as the name. -/
def Defines (d : Document) (name : Text) (n : Site) : Prop :=
  ∃ t rules, Query.text? d.language .definition = some t ∧
    Query.read? (Query.fill t name none) = some rules ∧
    ∃ m ∈ Query.run rules d.source d.tree, ∃ c ∈ m.captures, isName c.name = true ∧ c.site = n

section Template

variable {t : Text} {rules : List Query.Rule}

theorem rules_of_template (htext : Query.text? d.language .definition = some t)
    (htemplate : Query.DefinitionTemplate t rules) :
    Query.rules d.language .definition = rules := by
  rw [Query.rules, htext, Option.bind_some, htemplate.reads, Option.getD_some]

private theorem defines_iff_exists_filled (htext : Query.text? d.language .definition = some t)
    (htemplate : Query.DefinitionTemplate t rules) (hname : '\n' ∉ name) :
    d.Defines name n ↔
      ∃ m ∈ Query.run (rules.map (Query.Rule.fill name)) d.source d.tree, m.Names n := by
  have hread := htemplate.read?_fill hname
  constructor
  · rintro ⟨t', rules', htext', hread', m, hm, c, hc, hisName, rfl⟩
    obtain rfl : t = t' := Option.some.inj (htext.symm.trans htext')
    obtain rfl := Option.some.inj (hread.symm.trans hread')
    obtain ⟨n, hn⟩ := htemplate.exists_name (htemplate.mem_run_untested hm)
    rw [hn.eq_of_mem hc hisName]
    exact ⟨m, hm, hn⟩
  · rintro ⟨m, hm, hn⟩
    exact ⟨t, _, htext, hread, m, hm, _, hn.mem, Query.isName_name, rfl⟩

/-- The definition query for a name captures a node if that for all names does and the node has the
name. -/
theorem defines_iff_exists_untested (hd : d.WellFormed)
    (htext : Query.text? d.language .definition = some t)
    (htemplate : Query.DefinitionTemplate t rules) (hname : '\n' ∉ name) :
    d.Defines name n ↔ d.source.text n = name ∧
      ∃ m ∈ Query.run (rules.map Query.Rule.untested) d.source d.tree, m.Names n := by
  rw [defines_iff_exists_filled htext htemplate hname, htemplate.run_fill]
  constructor
  · rintro ⟨m, hm, hn⟩
    obtain ⟨hm, hholds⟩ := List.mem_filter.mp hm
    exact ⟨(holds_iff_text_eq hd hm hn).mp hholds, m, hm, hn⟩
  · rintro ⟨htextn, m, hm, hn⟩
    exact ⟨m, List.mem_filter.mpr ⟨hm, (holds_iff_text_eq hd hm hn).mpr htextn⟩, hn⟩

theorem exists_queryHits (htext : Query.text? d.language .definition = some t)
    (htemplate : Query.DefinitionTemplate t rules) (hname : '\n' ∉ name) :
    ∃ hits, d.queryHits .definition (Query.fill · name none) = .ok hits ∧
      ∀ h, h ∈ hits ↔ ∃ m ∈ Query.run (rules.map (Query.Rule.fill name)) d.source d.tree,
        h ∈ hitsOfMatch d.source m := by
  simp only [queryHits, htext, htemplate.read?_fill hname]
  refine ⟨_, rfl, fun h => ?_⟩
  rw [(sortBy_perm _ _).mem_iff, List.mem_flatMap]

end Template

theorem Defines.in_tree (hlang : d.language ∈ queriedLanguages) (hname : '\n' ∉ name)
    (h : d.Defines name n) : n.In d.tree := by
  obtain ⟨t, rules, htext, htemplate⟩ := Query.exists_template hlang
  obtain ⟨m, hm, hn⟩ := (defines_iff_exists_filled htext htemplate hname).mp h
  exact Query.site_in_tree hm hn.mem

/-- A node is the name in a definition of its text if a way of the definition query leads up from
it. -/
theorem defines_iff (hd : d.WellFormed) (hlang : d.language ∈ queriedLanguages)
    (hname : '\n' ∉ name) (hn : n.In d.tree) :
    d.Defines name n ↔ d.source.text n = name ∧
      ∃ r ∈ Query.rules d.language .definition, ∃ es ∈ r.nameChains, Ascends es n := by
  obtain ⟨t, rules, htext, htemplate⟩ := Query.exists_template hlang
  rw [defines_iff_exists_untested hd htext htemplate hname, htemplate.exists_match_iff hn,
    rules_of_template htext htemplate]

theorem Defines.directlyOwned (hd : d.WellFormed) (hlang : d.language ∈ queriedLanguages)
    (hname : '\n' ∉ name) (h : d.Defines name n) : DirectlyOwned n := by
  obtain ⟨-, r, hr, es, hes, hascends⟩ :=
    (defines_iff hd hlang hname (h.in_tree hlang hname)).mp h
  exact hascends.directlyOwned ((Query.agree_of_queried hlang).owners r hr es hes)

/-- What the definition query captures as a name lies in a block that the lookup gives. -/
theorem definition_covers (grammars : Grammars) (hd : d.WellFormed)
    (hlang : d.language ∈ queriedLanguages)
    (hname : '\n' ∉ name) (hqualified : ¬Qualified name) (h : d.Defines name n) (context : Nat) :
    ∃ blocks, d.definition grammars name context = .ok blocks ∧
      ∃ b ∈ blocks, b.span.startByte ≤ n.startByte ∧ n.endByte ≤ b.span.endByte := by
  obtain ⟨t, rules, htext, htemplate⟩ := Query.exists_template hlang
  have hagree := Query.agree_of_queried hlang
  rw [rules_of_template htext htemplate] at hagree
  obtain ⟨hits, hhits, hmem⟩ := exists_queryHits htext htemplate hname
  have hordered : ∀ b ∈ hits.map Hit.block, b.span.startByte ≤ b.span.endByte := by
    rintro b hb
    obtain ⟨hit, hhit, rfl⟩ := List.mem_map.mp hb
    obtain ⟨m, hm, hhit⟩ := (hmem hit).mp hhit
    rw [Hit.span_block]
    exact start_le_end_of_mem_hitsOfMatch hd.tree hm hhit
  obtain ⟨m, hm, hn⟩ := (defines_iff_exists_filled htext htemplate hname).mp h
  obtain ⟨hit, hhit, hstart, hend⟩ :=
    exists_hit_around_name htemplate hagree hd.tree (htemplate.mem_run_untested hm) hn
  have hin : hit ∈ hits := (hmem hit).mpr ⟨m, hm, hhit⟩
  obtain ⟨b, ⟨hb, hbstart, hbend⟩, -⟩ :=
    Block.normalize_covers d.source.bytes hordered context (List.mem_map_of_mem hin)
  have hlength : n.endByte ≤ d.source.bytes.length := by
    rw [hd.source]
    exact ((h.in_tree hlang hname).wellFormed hd.tree).isBoundary_endByte.le_size
  have hlookup := definition_of_hits (hits_of_not_qualified grammars hlang hqualified hhits) context
  rw [if_neg (List.ne_nil_of_mem hin)] at hlookup
  rw [Hit.span_block] at hbstart hbend
  exact ⟨_, hlookup, b, hb, by omega, by omega⟩

private theorem definition_eq_error (grammars : Grammars) (hlang : d.language ∈ queriedLanguages)
    (hname : '\n' ∉ name) (hqualified : ¬Qualified name) (hnone : ∀ n, ¬d.Defines name n)
    (context : Nat) :
    d.definition grammars name context = .error (.symbolNotFound name) := by
  obtain ⟨t, rules, htext, htemplate⟩ := Query.exists_template hlang
  obtain ⟨hits, hhits, hmem⟩ := exists_queryHits htext htemplate hname
  have hempty : hits = [] := by
    rw [List.eq_nil_iff_forall_not_mem]
    intro hit hhit
    obtain ⟨m, hm, -⟩ := (hmem hit).mp hhit
    obtain ⟨n, hn⟩ := htemplate.exists_name (htemplate.mem_run_untested hm)
    exact hnone n ((defines_iff_exists_filled htext htemplate hname).mpr ⟨m, hm, hn⟩)
  rw [definition_of_hits (hits_of_not_qualified grammars hlang hqualified hhits), if_pos hempty]

/-- The hits of a query for a name in a parent are called like the name, where the slot for the
parent is replaced. -/
theorem exists_parentHits (hd : d.WellFormed) (hlang : d.language ∈ queriedLanguages)
    {parent child : Text} (hparent : '\n' ∉ parent) (hchild : '\n' ∉ child) :
    ∃ hits, d.queryHits .parentDefinition (Query.fill · child (some parent)) = .ok hits ∧
      ∀ h ∈ hits, ∃ n, n.In d.tree ∧ d.source.text n = h.symbol ∧
        h.symbol = Text.replaceAll Query.parentSlot parent child := by
  obtain ⟨t, rules, htext, hread, hrules⟩ := Query.exists_parentRules hlang hchild hparent
  simp only [queryHits, htext, hread]
  refine ⟨_, rfl, ?_⟩
  intro h hh
  rw [(sortBy_perm _ _).mem_iff, List.mem_flatMap] at hh
  obtain ⟨m, hm, hh⟩ := hh
  obtain ⟨r, hr, hmatch⟩ := Query.exists_mem_run_iff.mp ⟨m, hm, rfl⟩
  obtain ⟨htests, hcaptures⟩ := hrules r hr
  obtain ⟨s, -, hfit⟩ := Query.Rule.exists_of_mem_run hmatch
  obtain ⟨hnamed, hall⟩ := Query.Rule.exists_of_capturesAs hcaptures hfit
  obtain ⟨c, hc, hisName, hsymbol⟩ := exists_of_mem_hitsOfMatch hnamed hh
  have hin : c.site.In d.tree := Query.site_in_tree hm hc
  have htest : Query.TextTest.holds d.source
      ⟨"name", Text.replaceAll Query.parentSlot parent child⟩ m.captures = true := by
    apply Query.Rule.holds_of_mem_run hmatch
    rw [htests]
    simp [Query.parentTests]
  refine ⟨c.site, hin, hsymbol.symm, hsymbol.trans ?_⟩
  rw [hd.source, Buffer.text_eq_iff (hin.wellFormed hd.tree), ← hd.source]
  exact Query.slice_of_holds htest hc (hall c hc hisName)

/-- A qualified name finds what is called like its second part, in the parent or else anywhere. -/
theorem exists_hits_of_qualified (grammars : Grammars) (hd : d.WellFormed)
    (hlang : d.language ∈ queriedLanguages) (hname : '\n' ∉ name) {parent child : Text}
    (hsplit : Text.splitOnce '.' name = some (parent, child)) (hparent : parent ≠ [])
    (hchild : child ≠ []) :
    ∃ hits, d.hits grammars name = .ok hits ∧ ∀ h ∈ hits, ∃ n, n.In d.tree ∧
      d.source.text n = h.symbol ∧
      h.symbol ∈ [child, Text.replaceAll Query.parentSlot parent child] := by
  have hparts := Text.eq_append_of_splitOnce hsplit
  rw [hparts, List.mem_append, List.mem_cons, not_or, not_or] at hname
  obtain ⟨inner, hinner, hinnerNamed⟩ := exists_parentHits hd hlang hname.1 hname.2.2
  obtain ⟨t, rules, htext, htemplate⟩ := Query.exists_template hlang
  obtain ⟨all, hall, hallNamed⟩ := exists_queryHits htext htemplate hname.2.2
  have hquery : d.hitsByQuery name = .ok (if inner = [] then all else inner) := by
    obtain ⟨p, parent, rfl⟩ := List.exists_cons_of_ne_nil hparent
    obtain ⟨c, child, rfl⟩ := List.exists_cons_of_ne_nil hchild
    simp only [hitsByQuery, hsplit, hinner, hall]
    cases inner <;> rfl
  refine ⟨_, hits_of_hitsByQuery grammars hlang hquery, ?_⟩
  intro h hh
  split at hh
  · obtain ⟨m, hm, hh⟩ := (hallNamed h).mp hh
    obtain ⟨n, hn⟩ := htemplate.exists_name (htemplate.mem_run_untested hm)
    have hdefines := (defines_iff_exists_filled htext htemplate hname.2.2).mpr ⟨m, hm, hn⟩
    have hin := hdefines.in_tree hlang hname.2.2
    have hsymbol := (of_mem_hitsOfMatch hn hh).1
    refine ⟨n, hin, hsymbol.symm, ?_⟩
    rw [hsymbol, ((defines_iff hd hlang hname.2.2 hin).mp hdefines).1]
    exact List.mem_cons_self
  · obtain ⟨n, hin, htextn, hsymbol⟩ := hinnerNamed h hh
    refine ⟨n, hin, htextn, ?_⟩
    rw [hsymbol]
    simp

end Document

namespace Finding

variable {profile : Profile} {source : Buffer} {f : Finding} {captures : List Query.Capture}
  {c : Query.Capture}

private theorem mem_of_mem_adjacentDocs {row : Nat} (hc : c ∈ adjacentDocs source row captures) :
    c ∈ captures := by
  induction captures generalizing row with
  | nil => exact hc
  | cons doc docs ih =>
      rw [adjacentDocs] at hc
      split at hc
      · cases hc
      · rcases List.mem_cons.mp hc with rfl | hc
        · exact List.mem_cons_self
        · exact List.mem_cons_of_mem _ (ih hc)

private theorem mem_of_mem_attached (hc : c ∈ attached source captures) : c ∈ captures := by
  rw [← List.takeWhile_append_dropWhile (p := (role · == .doc)) (l := captures)]
  rw [attached] at hc
  split at hc
  · cases hc
  · next main rest heq =>
      rw [heq]
      rcases List.mem_append.mp hc with hc | hc
      · have hdoc := mem_of_mem_adjacentDocs (List.mem_reverse.mp hc)
        exact List.mem_append_left _ (List.mem_reverse.mp hdoc)
      · exact List.mem_append_right _ hc

theorem mem_captures_of_ofMatch? {m : Query.Match} (hf : ofMatch? profile source m = some f)
    (hc : c ∈ f.captures) : c ∈ m.captures := by
  obtain ⟨anchor, -, hf⟩ := Option.bind_eq_some_iff.mp hf
  split at hf
  · obtain rfl := Option.some.inj hf
    have hordered := mem_of_mem_attached hc
    exact (sortBy_perm _ _).mem_iff.mp (mem_of_mem_dedupRuns hordered)
  · cases hf

private theorem of_name? (hprofile : profile.declarationName = fun _ _ => none) {content : Text}
    {n : Site} {tag : String} (h : f.name? profile source = some (content, n, tag)) :
    content = Text.trim (source.text n) ∧ ∃ c ∈ f.captures, isName c.name = true ∧ c.site = n := by
  rw [name?] at h
  split at h
  · next c hfind =>
      obtain ⟨rfl, rfl, rfl⟩ : _ ∧ _ ∧ _ := by simpa using h
      refine ⟨rfl, c, List.mem_of_find?_eq_some hfind, ?_, rfl⟩
      simpa [role, isName] using List.find?_some hfind
  · simp [hprofile] at h

private theorem exists_name?_of_symbol? {candidate : SymbolCandidate}
    (h : f.symbol? profile source = some candidate) :
    ∃ n tag, f.name? profile source = some (candidate.symbol.content, n, tag) := by
  obtain ⟨⟨content, n, tag⟩, hname, h⟩ := Option.bind_eq_some_iff.mp h
  simp only at h
  split at h
  · cases h
  · obtain rfl := Option.some.inj h
    exact ⟨n, tag, hname⟩

end Finding

namespace Document

section Listed

variable {d : Document} {s : Symbol} {n : Site}

/-- Whether a symbol is listed from a name node: it is the symbol of a finding with that name. -/
def ListedFrom (d : Document) (s : Symbol) (n : Site) : Prop :=
  ∃ f ∈ d.findings, ∃ candidate tag, f.symbol? d.profile d.source = some candidate ∧
    candidate.symbol = s ∧ f.name? d.profile d.source = some (s.content, n, tag)

private theorem declarationName_of_queried (hlang : d.language ∈ queriedLanguages) :
    d.profile.declarationName = fun _ _ => none := by
  simp only [queriedLanguages, List.mem_cons, List.not_mem_nil, or_false] at hlang
  rcases hlang with h | h | h | h | h <;> rw [profile, h] <;> rfl

theorem symbols_of_not_vue (grammars : Grammars) (hvue : d.language ≠ .vue) :
    d.symbols grammars = .ok (d.arrange d.ownSymbols) := by
  rw [symbols, innerDocuments, regions_eq_nil hvue]
  refine congrArg Except.ok ?_
  rw [List.reverse_nil, List.flatMap_nil, List.append_nil]

private theorem symbols_of_queried (grammars : Grammars) (hlang : d.language ∈ queriedLanguages) :
    d.symbols grammars = .ok (sortBy Symbol.le d.ownSymbols) := by
  have hvue : d.language ≠ .vue := by
    intro h
    rw [h] at hlang
    exact absurd hlang (by decide)
  have hlanguage : d.language ≠ .markdown := by
    intro h
    rw [h] at hlang
    exact absurd hlang (by decide)
  rw [symbols_of_not_vue grammars hvue, arrange, if_neg hlanguage]

private theorem exists_listedFrom (hs : s ∈ d.ownSymbols) : ∃ n, d.ListedFrom s n := by
  obtain ⟨candidate, hcandidate, rfl⟩ := List.mem_map.mp hs
  have hbest := mem_of_mem_keepBest ((sortBy_perm _ _).mem_iff.mp hcandidate)
  obtain ⟨f, hf, hsymbol⟩ := List.mem_filterMap.mp hbest
  obtain ⟨n, tag, hname⟩ := Finding.exists_name?_of_symbol? hsymbol
  exact ⟨n, f, hf, candidate, tag, hsymbol, rfl, hname⟩

/-- A way of the outline query leads up from each node that a symbol is listed from. -/
theorem ListedFrom.ascends (hlang : d.language ∈ queriedLanguages) (h : d.ListedFrom s n) :
    n.In d.tree ∧ s.content = Text.trim (d.source.text n) ∧
      ∃ r ∈ Query.rules d.language .outline, ∃ ds ∈ r.nameChains, Ascends ds n := by
  obtain ⟨f, hf, candidate, tag, -, rfl, hname⟩ := h
  obtain ⟨m, hm, hof⟩ := List.mem_filterMap.mp hf
  obtain ⟨hcontent, c, hc, hisName, rfl⟩ :=
    Finding.of_name? (declarationName_of_queried hlang) hname
  obtain ⟨hin, hchain⟩ := (Query.agree_of_queried hlang).listed_ascends hm
    (Finding.mem_captures_of_ofMatch? hof hc) hisName
  exact ⟨hin, hcontent, hchain⟩

private theorem ListedFrom.defines_iff (hd : d.WellFormed) (hlang : d.language ∈ queriedLanguages)
    (hline : '\n' ∉ s.content) (h : d.ListedFrom s n) :
    d.Defines s.content n ↔ d.source.text n = s.content ∧ DirectlyOwned n := by
  obtain ⟨hin, -, r, hr, ds, hds, hascends⟩ := h.ascends hlang
  constructor
  · intro hdefines
    exact ⟨((Document.defines_iff hd hlang hline hin).mp hdefines).1,
      hdefines.directlyOwned hd hlang hline⟩
  · rintro ⟨htext, howned⟩
    obtain ⟨q, hq, es, hes, hleads⟩ := (Query.agree_of_queried hlang).chains r hr ds hds
    exact (Document.defines_iff hd hlang hline hin).mpr
      ⟨htext, q, hq, es, hes, (hascends.withOwner hin howned).of_leadsTo hleads⟩

/-- Every symbol is listed from some node. It is found there if it has no dot between two parts, no
blanks around it, and is not one of a group of variables, where only the list inside the declaration
holds the specification. A symbol with a dot between two parts is not looked up as a whole: what is
found is called like the second part, and if nothing is, the symbol is not found. -/
theorem listed_names_found (grammars : Grammars) (d : Document) (hd : d.WellFormed)
    (hlang : d.language ∈ queriedLanguages)
    (context : Nat) :
    ∃ symbols, d.symbols grammars = .ok symbols ∧ ∀ s ∈ symbols, '\n' ∉ s.content →
      (∃ n, d.ListedFrom s n) ∧
      (∀ parent child, Text.splitOnce '.' s.content = some (parent, child) → parent ≠ [] →
        child ≠ [] →
        (∃ hits, d.hits grammars s.content = .ok hits ∧ ∀ h ∈ hits,
          h.symbol ∈ [child, Text.replaceAll Query.parentSlot parent child]) ∧
        ((∀ n, n.In d.tree →
            d.source.text n ∉ [child, Text.replaceAll Query.parentSlot parent child]) →
          d.definition grammars s.content context = .error (.symbolNotFound s.content))) ∧
      ∀ n, d.ListedFrom s n →
        (d.Defines s.content n ↔ d.source.text n = s.content ∧ DirectlyOwned n) ∧
        (¬Qualified s.content → d.source.text n = s.content → DirectlyOwned n →
          ∃ blocks, d.definition grammars s.content context = .ok blocks ∧
            ∃ b ∈ blocks, b.span.startByte ≤ n.startByte ∧ n.endByte ≤ b.span.endByte) ∧
        (¬Qualified s.content → (∀ n, ¬d.Defines s.content n) →
          d.definition grammars s.content context = .error (.symbolNotFound s.content)) := by
  refine ⟨_, symbols_of_queried grammars hlang, fun s hs hline => ?_⟩
  refine ⟨exists_listedFrom ((sortBy_perm _ _).mem_iff.mp hs), ?_, fun n hn => ?_⟩
  · intro parent child hsplit hparent hchild
    obtain ⟨hits, hhits, hnamed⟩ :=
      exists_hits_of_qualified grammars hd hlang hline hsplit hparent hchild
    refine ⟨⟨hits, hhits, fun h hh => (hnamed h hh).elim fun n hn => hn.2.2⟩, ?_⟩
    intro hnone
    have hempty : hits = [] := by
      rw [List.eq_nil_iff_forall_not_mem]
      intro h hh
      obtain ⟨n, hin, htext, hsymbol⟩ := hnamed h hh
      exact hnone n hin (htext ▸ hsymbol)
    rw [definition_of_hits hhits, if_pos hempty]
  have hdefines := hn.defines_iff hd hlang hline
  refine ⟨hdefines, fun hqualified htext howned => ?_, fun hqualified hnone => ?_⟩
  · exact definition_covers grammars hd hlang hline hqualified
      (hdefines.mpr ⟨htext, howned⟩) context
  · exact definition_eq_error grammars hlang hline hqualified hnone context

end Listed

namespace GroupedSpecs

def text : Text :=
  "package p\n\nvar (\n\tv int\n)\n\nconst (\n\tc = 1\n)\n".toList

def tree : Tree :=
  .named "source_file" 0 44 "" [
    .named "package_clause" 0 9 "" [
      .mark "package" 0 7,
      .named "package_identifier" 8 9 "" []],
    .named "var_declaration" 11 25 "" [
      .mark "var" 11 14,
      .named "var_spec_list" 15 25 "" [
        .mark "(" 15 16,
        .named "var_spec" 18 23 "" [
          .named "identifier" 18 19 "name" [],
          .named "type_identifier" 20 23 "type" []],
        .mark ")" 24 25]],
    .named "const_declaration" 27 43 "" [
      .mark "const" 27 32,
      .mark "(" 33 34,
      .named "const_spec" 36 41 "" [
        .named "identifier" 36 37 "name" [],
        .mark "=" 38 39,
        .named "expression_list" 40 41 "value" [
          .named "int_literal" 40 41 "" []]],
      .mark ")" 42 43]]

def document : Document := ⟨.go, text, .ofText text, tree⟩

theorem wellFormed : document.WellFormed := ⟨rfl, by decide +kernel⟩

set_option maxRecDepth 30000 in
theorem listed : document.ownSymbols.map (·.content) = [['v'], ['c']] := by
  have hmatches : document.outlineMatches = Query.run
      ((Query.read? Query.Go.outline.toList).getD []) document.source document.tree := by
    rw [outlineMatches, Query.rules,
      show Query.text? document.language .outline = some Query.Go.outline.toList from rfl,
      Option.bind_some]
  rw [ownSymbols, findings, hmatches,
    Query.toList_of_eq_ofList (show Query.Go.outline = _ from rfl)]
  decide +kernel

private theorem exists_listed {name : Text} (h : name ∈ [['v'], ['c']]) :
    ∃ s ∈ sortBy Symbol.le document.ownSymbols, s.content = name := by
  rw [← listed] at h
  obtain ⟨s, hs, rfl⟩ := List.mem_map.mp h
  exact ⟨s, (sortBy_perm _ _).mem_iff.mpr hs, rfl⟩

end GroupedSpecs

open GroupedSpecs in
theorem listed_names_found_constant :
    (document.WellFormed ∧ document.language ∈ queriedLanguages) ∧
    ∃ symbols, document.symbols (fun _ _ => none) = .ok symbols ∧
      ∃ s ∈ symbols, s.content = ['c'] ∧ '\n' ∉ s.content ∧ ¬Qualified s.content ∧
        ∃ n, document.ListedFrom s n ∧ document.source.text n = s.content ∧
          DirectlyOwned n ∧ document.Defines s.content n ∧
          ∃ blocks, document.definition (fun _ _ => none) s.content 0 = .ok blocks ∧
            ∃ b ∈ blocks, b.span.startByte ≤ n.startByte ∧ n.endByte ≤ b.span.endByte := by
  have hlang : document.language ∈ queriedLanguages := by decide
  refine ⟨⟨wellFormed, hlang⟩, ?_⟩
  obtain ⟨symbols, hsymbols, hfound⟩ :=
    listed_names_found (fun _ _ => none) document wellFormed hlang 0
  obtain ⟨s, hs, hcontent⟩ := exists_listed (show ['c'] ∈ _ by decide)
  have hline : '\n' ∉ s.content := by
    rw [hcontent]
    decide
  have hqualified : ¬Qualified s.content := by
    rw [hcontent]
    exact not_qualified_of_not_mem (by decide)
  rw [← Except.ok.inj (hsymbols.symm.trans (symbols_of_queried _ hlang))] at hs
  obtain ⟨⟨n, hn⟩, -, hnames⟩ := hfound s hs hline
  obtain ⟨hin, htrim, -⟩ := hn.ascends hlang
  obtain ⟨htext, howned⟩ : document.source.text n = ['c'] ∧ DirectlyOwned n := by
    have hnodes : ∀ n ∈ document.tree.sites, ['c'] = Text.trim (document.source.text n) →
        document.source.text n = ['c'] ∧ DirectlyOwned n := by
      decide +kernel
    exact hnodes n (Tree.mem_sites_iff.mpr hin) (hcontent ▸ htrim)
  rw [← hcontent] at htext
  obtain ⟨hdefines, hblocks, -⟩ := hnames n hn
  exact ⟨_, hsymbols, s, hs, hcontent, hline, hqualified, n, hn, htext, howned,
    hdefines.mpr ⟨htext, howned⟩, hblocks hqualified htext howned⟩

open GroupedSpecs in
/-- The variable of a group is listed, but it is not found. -/
theorem grouped_variable_not_found :
    ∃ symbols, document.symbols (fun _ _ => none) = .ok symbols ∧
      ∃ s ∈ symbols, s.content = ['v'] ∧
        document.definition (fun _ _ => none) s.content 0 = .error (.symbolNotFound ['v']) := by
  have hlang : document.language ∈ queriedLanguages := by decide
  obtain ⟨s, hs, hcontent⟩ := exists_listed (show ['v'] ∈ _ by decide)
  have hline : '\n' ∉ (['v'] : Text) := by decide
  refine ⟨_, symbols_of_queried _ hlang, s, hs, hcontent, ?_⟩
  rw [hcontent]
  refine definition_eq_error _ hlang hline (not_qualified_of_not_mem (by decide)) ?_ 0
  intro n hn
  have hin := hn.in_tree hlang hline
  have htext := ((defines_iff wellFormed hlang hline hin).mp hn).1
  -- The one node with that text stands in the list of a group.
  have hnodes : ∀ n ∈ document.tree.sites, document.source.text n = ['v'] →
      ¬DirectlyOwned n := by
    decide +kernel
  exact hnodes n (Tree.mem_sites_iff.mpr hin) htext (hn.directlyOwned wellFormed hlang hline)

end Document

end CodeAtlas
