import CodeAtlas.Extract.Definition
import CodeAtlas.Proofs.Order
import CodeAtlas.Proofs.Query.Definition
import CodeAtlas.Proofs.Text.Search

/-!
# Looking up one name and all names

Looking up one name gives the definitions with that name among all definitions.
-/

namespace CodeAtlas

open Query (isName queriedLanguages)

/-- Whether a document has the bytes of its text and a well-formed tree. -/
structure Document.WellFormed (d : Document) : Prop where
  source : d.source = .ofText d.text
  tree : d.tree.WellFormed d.text

namespace Document

variable {d : Document} {name : Text}

section Hits

variable {source : Buffer} {m : Query.Match} {n : Site} {h : Hit}

theorem of_mem_hitsOfMatch (hn : m.Names n)
    (hh : h ∈ hitsOfMatch source m) :
    h.symbol = source.text n ∧ h.name = some (source.span n) := by
  have hfind : m.captures.find? (fun c => Role.ofCaptureName c.name = .name) =
      some ⟨"name", n⟩ := by
    rw [← List.head?_filter]
    exact congrArg List.head? hn
  rw [hitsOfMatch, hfind] at hh
  obtain ⟨span, -, rfl⟩ := List.mem_map.mp hh
  exact ⟨rfl, rfl⟩

theorem exists_of_mem_hitsOfMatch (hnamed : ∃ c ∈ m.captures, isName c.name = true)
    (hh : h ∈ hitsOfMatch source m) :
    ∃ c ∈ m.captures, isName c.name = true ∧ h.symbol = source.text c.site := by
  obtain ⟨c, hfind⟩ := Option.isSome_iff_exists.mp (List.find?_isSome.mpr hnamed)
  have hfind' : m.captures.find? (fun c => Role.ofCaptureName c.name = .name) = some c := hfind
  rw [hitsOfMatch, hfind'] at hh
  obtain ⟨span, -, rfl⟩ := List.mem_map.mp hh
  have hisName := List.find?_some hfind
  exact ⟨c, List.mem_of_find?_eq_some hfind, hisName, rfl⟩

private theorem flatMap_filter_eq {α β : Type} {p : α → Bool} {q : β → Bool} {f : α → List β}
    {as : List α} (h : ∀ a ∈ as, ∀ b ∈ f a, q b = p a) :
    (as.filter p).flatMap f = (as.flatMap f).filter q := by
  induction as with
  | nil => rfl
  | cons a as ih =>
      obtain ⟨ha, has⟩ := List.forall_mem_cons.mp h
      rw [List.flatMap_cons, List.filter_append, ← ih has]
      by_cases hp : p a = true
      · rw [List.filter_cons_of_pos hp, List.flatMap_cons,
          List.filter_eq_self.mpr fun b hb => (ha b hb).trans hp]
      · rw [List.filter_cons_of_neg hp,
          List.filter_eq_nil_iff.mpr fun b hb hq => hp ((ha b hb).symm.trans hq), List.nil_append]

theorem holds_iff_text_eq (hd : d.WellFormed) {rules : List Query.Rule}
    (hm : m ∈ Query.run rules d.source d.tree) (hn : m.Names n) :
    Query.TextTest.holds d.source ⟨"name", name⟩ m.captures = true ↔ d.source.text n = name := by
  have htree : n.In d.tree := Query.site_in_tree hm hn.mem
  rw [Query.holds_iff hn, hd.source]
  exact (Buffer.text_eq_iff (htree.wellFormed hd.tree) name).symm

/-- The hits of the definition query for a name are those for all names that have the name. -/
theorem queryHits_fill (hd : d.WellFormed) (hlang : d.language ∈ queriedLanguages)
    (hname : '\n' ∉ name) :
    ∃ all, d.queryHits .definition Query.dropSlotTests = .ok all ∧
      d.queryHits .definition (Query.fill · name none) =
        .ok (all.filter fun h => h.symbol = name) := by
  obtain ⟨t, rules, htext, htemplate⟩ := Query.exists_template hlang
  simp only [queryHits, htext, htemplate.reads_all, htemplate.read?_fill hname]
  refine ⟨_, rfl, congrArg Except.ok ?_⟩
  rw [filter_sortBy (by simp; omega) (by simp; omega), htemplate.run_fill]
  congr 1
  apply flatMap_filter_eq
  intro m hm h hh
  obtain ⟨n, hn⟩ := htemplate.exists_name hm
  rw [Bool.eq_iff_iff, decide_eq_true_eq, (of_mem_hitsOfMatch hn hh).1]
  exact (holds_iff_text_eq hd hm hn).symm

end Hits

section Languages

theorem lookup_of_queried (hlang : d.language ∈ queriedLanguages) :
    d.profile.lookup = .byQuery := by
  simp only [queriedLanguages, List.mem_cons, List.not_mem_nil, or_false] at hlang
  rcases hlang with h | h | h | h | h <;> rw [profile, h] <;> rfl

/-- Only components have regions. -/
theorem regions_eq_nil (hvue : d.language ≠ .vue) : d.regions = [] := by
  have hembedded : d.profile.embedded = fun _ _ => none := by
    cases hlang : d.language <;> first | exact absurd hlang hvue | rw [profile, hlang]; rfl
  rw [regions, hembedded]
  simp

private theorem regions_of_queried (hlang : d.language ∈ queriedLanguages) : d.regions = [] := by
  apply regions_eq_nil
  intro hvue
  rw [hvue] at hlang
  exact absurd hlang (by decide)

end Languages

end Document

/-- Leaving out inner definitions leaves a definition of every name. -/
theorem exists_mem_outermost_iff {kept hits : List Hit} {name : Text} :
    (∃ h ∈ outermost kept hits, h.symbol = name) ↔ ∃ h ∈ kept ++ hits, h.symbol = name := by
  induction hits generalizing kept with
  | nil => simp [outermost]
  | cons h hits ih =>
      rw [outermost]
      split
      · next hinner =>
          obtain ⟨outer, houter, hcontains⟩ := List.any_eq_true.mp hinner
          rw [Bool.and_eq_true, beq_iff_eq] at hcontains
          rw [ih]
          constructor
          · rintro ⟨g, hg, hsymbol⟩
            refine ⟨g, ?_, hsymbol⟩
            rcases List.mem_append.mp hg with hg | hg
            · exact List.mem_append_left _ hg
            · exact List.mem_append_right _ (List.mem_cons_of_mem _ hg)
          · rintro ⟨g, hg, hsymbol⟩
            rcases List.mem_append.mp hg with hg | hg
            · exact ⟨g, List.mem_append_left _ hg, hsymbol⟩
            · rcases List.mem_cons.mp hg with rfl | hg
              · exact ⟨outer, List.mem_append_left _ houter, hcontains.1.trans hsymbol⟩
              · exact ⟨g, List.mem_append_right _ hg, hsymbol⟩
      · rw [ih]
        simp only [List.cons_append, List.mem_cons, List.mem_append, or_left_comm]

namespace Document

section Lookup

variable {d : Document} {name : Text}

private theorem exists_mem_definitions_iff (grammars : Grammars)
    (hlang : d.language ∈ queriedLanguages)
    {all : List Hit} (hall : d.queryHits .definition Query.dropSlotTests = .ok all) :
    ∃ defs, d.definitions grammars = .ok defs ∧
      ∀ name : Text, name ≠ [] → ((∃ h ∈ defs, h.symbol = name) ↔ ∃ h ∈ all, h.symbol = name) := by
  have hown : d.ownDefinitions grammars = .ok all := by
    rw [ownDefinitions, lookup_of_queried hlang]
    exact hall
  have hhits : d.allHits grammars = .ok all := by
    rw [allHits, hown, innerDocuments, regions_of_queried hlang]
    exact congrArg Except.ok (List.append_nil all)
  refine ⟨_, by rw [definitions, hhits]; rfl, fun name hname => ?_⟩
  rw [exists_mem_outermost_iff, List.nil_append]
  constructor
  · rintro ⟨h, hh, hsymbol⟩
    have hmem := (sortBy_perm _ _).mem_iff.mp hh
    exact ⟨h, (List.mem_filter.mp hmem).1, hsymbol⟩
  · rintro ⟨h, hh, hsymbol⟩
    refine ⟨h, (sortBy_perm _ _).mem_iff.mpr (List.mem_filter.mpr ⟨hh, ?_⟩), hsymbol⟩
    simpa [hsymbol] using hname

/-- Whether a name has a dot between two parts that are not empty. -/
def Qualified (name : Text) : Prop :=
  ∃ parent child, Text.splitOnce '.' name = some (parent, child) ∧ parent ≠ [] ∧ child ≠ []

theorem not_qualified_of_not_mem (hdot : '.' ∉ name) : ¬Qualified name := by
  rintro ⟨parent, child, hsplit, -⟩
  rw [Text.splitOnce_eq_none_iff.mpr hdot] at hsplit
  cases hsplit

theorem hits_of_hitsByQuery (grammars : Grammars) (hlang : d.language ∈ queriedLanguages)
    {hits : List Hit} (hquery : d.hitsByQuery name = .ok hits) :
    d.hits grammars name = .ok hits := by
  have hown : d.ownHits grammars name = .ok hits := by
    rw [ownHits, lookup_of_queried hlang]
    exact hquery
  rw [Document.hits, hown, regions_of_queried hlang]
  cases hits <;> rfl

theorem hits_of_not_qualified (grammars : Grammars) (hlang : d.language ∈ queriedLanguages)
    (hname : ¬Qualified name) {hits : List Hit}
    (hhits : d.queryHits .definition (Query.fill · name none) = .ok hits) :
    d.hits grammars name = .ok hits := by
  apply hits_of_hitsByQuery grammars hlang
  rw [hitsByQuery]
  split
  · next hsplit => exact absurd ⟨_, _, hsplit, by simp, by simp⟩ hname
  · exact hhits

theorem definition_of_hits {grammars : Grammars} {hits : List Hit}
    (hhits : d.hits grammars name = .ok hits) (context : Nat) :
    d.definition grammars name context =
      if hits = [] then .error (.symbolNotFound name)
      else .ok (Block.normalize d.source.bytes context (hits.map Hit.block)) := by
  rw [definition, hhits]
  cases hits <;> rfl

/-- The hits for a name without a dot are those of all hits that have the name. So looking it up
fails if no definition has the name, and in no other way. -/
theorem named_hits_eq_filter_all (grammars : Grammars) (d : Document) (hd : d.WellFormed)
    (hlang : d.language ∈ queriedLanguages) (name : Text) (hne : name ≠ []) (hdot : '.' ∉ name)
    (hline : '\n' ∉ name) (context : Nat) :
    ∃ all defs, d.queryHits .definition Query.dropSlotTests = .ok all ∧
      d.queryHits .definition (Query.fill · name none) =
        .ok (all.filter fun h => h.symbol = name) ∧
      d.definitions grammars = .ok defs ∧
      (d.definition grammars name context = .error (.symbolNotFound name) ↔
        ∀ h ∈ defs, h.symbol ≠ name) ∧
      ∀ e, d.definition grammars name context = .error e → e = .symbolNotFound name := by
  obtain ⟨all, hall, hnamed⟩ := queryHits_fill hd hlang hline
  obtain ⟨defs, hdefs, hsymbols⟩ := exists_mem_definitions_iff grammars hlang hall
  have hlookup := definition_of_hits
    (hits_of_not_qualified grammars hlang (not_qualified_of_not_mem hdot) hnamed) context
  refine ⟨all, defs, hall, hnamed, hdefs, ?_, ?_⟩
  · have hnone : (∀ h ∈ defs, h.symbol ≠ name) ↔ (all.filter fun h => h.symbol = name) = [] := by
      rw [List.filter_eq_nil_iff]
      have hiff := not_congr (hsymbols name hne)
      simpa using hiff
    rw [hnone, hlookup]
    split <;> simp_all
  · intro e he
    rw [hlookup] at he
    split at he
    · exact (Except.error.inj he).symm
    · cases he

end Lookup

namespace QuotedField

def field : Text := ['"', 'b', '\\', '"', 'c', '"']

def text : Text := "class A ".toList ++ ['{', ' '] ++ field ++ " = 1 ".toList ++ ['}']

def tree : Tree :=
  .named "program" 0 22 "" [
    .named "class_declaration" 0 22 "" [
      .mark "class" 0 5,
      .named "type_identifier" 6 7 "name" [],
      .named "class_body" 8 22 "body" [
        .mark "\x7b" 8 9,
        .named "public_field_definition" 10 20 "" [
          .named "string" 10 16 "name" [],
          .mark "=" 17 18,
          .named "number" 19 20 "value" []],
        .mark "\x7d" 21 22]]]

def document : Document := ⟨.typeScript, text, .ofText text, tree⟩

end QuotedField

open QuotedField in
theorem named_hits_eq_filter_all_quoted :
    (document.WellFormed ∧ document.language ∈ queriedLanguages ∧
      field ≠ [] ∧ '.' ∉ field ∧ '\n' ∉ field) ∧
    ∃ all defs, document.queryHits .definition Query.dropSlotTests = .ok all ∧
      document.queryHits .definition (Query.fill · field none) =
        .ok (all.filter fun h => h.symbol = field) ∧
      document.definitions (fun _ _ => none) = .ok defs ∧
      (document.definition (fun _ _ => none) field 0 =
          .error (.symbolNotFound field) ↔
        ∀ h ∈ defs, h.symbol ≠ field) ∧
      ∀ e, document.definition (fun _ _ => none) field 0 = .error e →
        e = .symbolNotFound field := by
  have hd : document.WellFormed := ⟨rfl, by decide +kernel⟩
  have hlang : document.language ∈ queriedLanguages := by decide
  have hne : field ≠ [] := by decide
  have hdot : '.' ∉ field := by decide
  have hline : '\n' ∉ field := by decide
  exact ⟨⟨hd, hlang, hne, hdot, hline⟩,
    named_hits_eq_filter_all (fun _ _ => none) document hd hlang field hne hdot hline 0⟩

end Document

end CodeAtlas
