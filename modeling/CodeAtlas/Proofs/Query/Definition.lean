import CodeAtlas.Extract.Profile
import CodeAtlas.Proofs.Query.Match
import CodeAtlas.Proofs.Query.Template
import CodeAtlas.Query.Catalog

/-!
# Definition queries

Each rule of a definition query leads straight to the name it captures and tests nothing but that
name. So the query for one name finds what the query for all names finds, if the name is the one
looked for.
-/

namespace CodeAtlas.Query

def isName (capture : String) : Bool := Role.ofCaptureName capture = .name

/-- Whether a text is the template of a definition query with some rules. -/
structure DefinitionTemplate (t : Text) (rules : List Rule) : Prop where
  slots : slotsStand t.length .between t = true
  reads : read? t = some rules
  reads_all : read? (dropSlotTests t) = some (rules.map Rule.untested)
  tests : ∀ r ∈ rules, r.tests = [⟨"name", symbolSlot⟩]
  straight : ∀ r ∈ rules, r.isStraight isName = true
  straight_name : ∀ r ∈ rules, r.isStraight (· == "name") = true

def isDefinitionTemplate (t : Text) : Bool :=
  slotsStand t.length .between t && (read? t).any fun rules =>
    decide (read? (dropSlotTests t) = some (rules.map Rule.untested)) && rules.all fun r =>
      decide (r.tests = [⟨"name", symbolSlot⟩]) && r.isStraight isName && r.isStraight (· == "name")

private theorem exists_definitionTemplate {t : Text} (h : isDefinitionTemplate t = true) :
    ∃ rules, DefinitionTemplate t rules := by
  simp only [isDefinitionTemplate, Bool.and_eq_true, Option.any_eq_true, decide_eq_true_eq,
    List.all_eq_true] at h
  obtain ⟨hslots, rules, hreads, hall, hrules⟩ := h
  exact ⟨rules, hslots, hreads, hall, fun r hr => (hrules r hr).1.1,
    fun r hr => (hrules r hr).1.2, fun r hr => (hrules r hr).2⟩

theorem toList_of_eq_ofList {s : String} {cs : List Char} (h : s = String.ofList cs) :
    s.toList = cs := by
  rw [h, String.toList_ofList]

section Checks

set_option maxRecDepth 20000

private theorem isDefinitionTemplate_go : isDefinitionTemplate Go.definitions.toList = true := by
  rw [toList_of_eq_ofList (show Go.definitions = _ from rfl)]
  decide +kernel

private theorem isDefinitionTemplate_python :
    isDefinitionTemplate Python.definitions.toList = true := by
  rw [toList_of_eq_ofList (show Python.definitions = _ from rfl)]
  decide +kernel

private theorem isDefinitionTemplate_typeScript :
    isDefinitionTemplate TypeScript.definitions.toList = true := by
  rw [toList_of_eq_ofList (show TypeScript.definitions = _ from rfl)]
  decide +kernel

private theorem isDefinitionTemplate_java :
    isDefinitionTemplate Java.definitions.toList = true := by
  rw [toList_of_eq_ofList (show Java.definitions = _ from rfl)]
  decide +kernel

end Checks

def queriedLanguages : List Language := [.go, .python, .typeScript, .tsx, .java]

theorem exists_template {language : Language} (h : language ∈ queriedLanguages) :
    ∃ t rules, text? language .definition = some t ∧ DefinitionTemplate t rules := by
  have htemplate : ∃ t, text? language .definition = some t ∧ isDefinitionTemplate t = true := by
    simp only [queriedLanguages, List.mem_cons, List.not_mem_nil, or_false] at h
    rcases h with rfl | rfl | rfl | rfl | rfl
    · exact ⟨_, rfl, isDefinitionTemplate_go⟩
    · exact ⟨_, rfl, isDefinitionTemplate_python⟩
    · exact ⟨_, rfl, isDefinitionTemplate_typeScript⟩
    · exact ⟨_, rfl, isDefinitionTemplate_typeScript⟩
    · exact ⟨_, rfl, isDefinitionTemplate_java⟩
  obtain ⟨t, htext, hcheck⟩ := htemplate
  obtain ⟨rules, hrules⟩ := exists_definitionTemplate hcheck
  exact ⟨t, rules, htext, hrules⟩

section Names

variable {t name : Text} {rules : List Rule} {source : Buffer} {tree : Tree} {m : Match} {n : Site}

theorem DefinitionTemplate.read?_fill (h : DefinitionTemplate t rules) (hname : '\n' ∉ name) :
    read? (fill t name none) = some (rules.map (Rule.fill name)) := by
  rw [Query.read?_fill h.slots hname, h.reads, Option.map_some]

/-- Whether a node is the one name that a match captures. -/
def Match.Names (m : Match) (n : Site) : Prop :=
  m.captures.filter (fun c => isName c.name) = [⟨"name", n⟩]

theorem isName_name : isName "name" = true := by decide +kernel

theorem Match.Names.mem (h : m.Names n) : ⟨"name", n⟩ ∈ m.captures :=
  (List.mem_filter.mp (h ▸ List.mem_singleton_self _)).1

theorem Match.Names.eq_of_mem (h : m.Names n) {c : Capture} (hc : c ∈ m.captures)
    (hname : isName c.name = true) : c = ⟨"name", n⟩ := by
  have hone : c ∈ m.captures.filter (fun c => isName c.name) := List.mem_filter.mpr ⟨hc, hname⟩
  rw [h] at hone
  exact List.mem_singleton.mp hone

/-- Each match of a definition query captures one name. -/
theorem DefinitionTemplate.exists_name (h : DefinitionTemplate t rules)
    (hm : m ∈ run (rules.map Rule.untested) source tree) :
    ∃ n, m.Names n := by
  obtain ⟨r', hr', s, hs, hfit⟩ := exists_of_mem_run hm
  obtain ⟨r, hr, rfl⟩ := List.mem_map.mp hr'
  have hone := Rule.countP_of_isStraight (h.straight r hr) hfit
  have hname := Rule.countP_of_isStraight (h.straight_name r hr) hfit
  rw [List.countP_eq_length_filter, List.length_eq_one_iff] at hone
  obtain ⟨c, hc⟩ := hone
  -- The one name is captured as such.
  obtain ⟨c', hc', heq⟩ := List.countP_pos_iff.mp (by rw [hname]; exact Nat.one_pos)
  have hisName : isName c'.name = true := by rw [beq_iff_eq.mp heq, isName_name]
  have hmem : c' ∈ m.captures.filter (fun c => isName c.name) :=
    List.mem_filter.mpr ⟨hc', hisName⟩
  obtain rfl : c' = c := by
    rw [hc] at hmem
    exact List.mem_singleton.mp hmem
  refine ⟨c'.site, hc.trans ?_⟩
  rw [← beq_iff_eq.mp heq]

theorem holds_iff (hn : m.Names n) :
    TextTest.holds source ⟨"name", name⟩ m.captures = true ↔
      source.bytes.slice n.startByte n.endByte = Utf8.encode name := by
  constructor
  · intro h
    exact slice_of_holds h hn.mem rfl
  · intro h
    rw [TextTest.holds, List.all_eq_true]
    intro c hc
    rw [Bool.or_eq_true, bne_iff_ne, beq_iff_eq]
    by_cases hname : c.name = "name"
    · right
      rw [hn.eq_of_mem hc (by rw [hname, isName_name])]
      exact h
    · exact Or.inl hname

private theorem DefinitionTemplate.rule_run_fill (h : DefinitionTemplate t rules) {r : Rule}
    (hr : r ∈ rules) (name : Text) :
    (r.fill name).run source tree =
      (r.untested.run source tree).filter (TextTest.holds source ⟨"name", name⟩) := by
  have htests : (r.fill name).tests = [⟨"name", name⟩] := by
    simp [Rule.fill, Rule.mapTests, TextTest.mapText, fillSlot, h.tests r hr]
  rw [Rule.run_eq_filter, htests]
  exact List.filter_congr fun captures _ => by simp

/-- The query for one name finds what the query for all names finds, if the test on the name
holds. -/
theorem DefinitionTemplate.run_fill (h : DefinitionTemplate t rules) (name : Text)
    (source : Buffer) (tree : Tree) :
    run (rules.map (Rule.fill name)) source tree =
      (run (rules.map Rule.untested) source tree).filter fun m =>
        TextTest.holds source ⟨"name", name⟩ m.captures := by
  simp only [run, List.zipIdx_map, List.flatMap_map, List.filter_flatMap]
  rw [List.flatMap_def, List.flatMap_def]
  refine congrArg List.flatten (List.map_congr_left fun ruled hr => ?_)
  obtain ⟨r, i⟩ := ruled
  have hmem : r ∈ rules := List.mem_of_getElem? (List.mem_zipIdx_iff_getElem?.mp hr)
  simp only [Prod.map, h.rule_run_fill hmem, List.filter_map]
  rfl

theorem DefinitionTemplate.mem_run_untested (h : DefinitionTemplate t rules)
    (hm : m ∈ run (rules.map (Rule.fill name)) source tree) :
    m ∈ run (rules.map Rule.untested) source tree := by
  rw [h.run_fill] at hm
  exact (List.mem_filter.mp hm).1

end Names

end CodeAtlas.Query
