import CodeAtlas.Proofs.Query.Listing
import CodeAtlas.Proofs.Query.Shape
import Mathlib.Data.List.TakeWhile

/-!
# Comments in front of a declaration

A rule of a definition query declares a node that is no comment, and with it the comments in front
of it: going back from the node, unnamed nodes are passed over, and then comments are taken until
another node comes. This holds of the rules for all names and of those for any given name.
-/

namespace CodeAtlas

/-- Whether a comment stands in front of a node, with nothing but comments and unnamed nodes
between them. -/
def Site.InFront (n comment : Site) : Prop :=
  comment.isComment = true ∧ ∃ near far, n.earlierSiblings = near ++ comment :: far ∧
    ∀ s ∈ near, s.label.named = false ∨ s.isComment = true

namespace Query

def isDeclaration (capture : String) : Bool := Role.ofCaptureName capture = .declaration

section Demands

def Demand.asksComment (d : Demand) : Bool :=
  d.kind.any fun kind => Text.occursIn "comment".toList kind.toList

def Demand.asksOther (d : Demand) : Bool :=
  d.kind.any fun kind => !Text.occursIn "comment".toList kind.toList

variable {d : Demand} {s : Site}

theorem Demand.Holds.isComment (h : d.Holds s) (hd : d.asksComment = true) :
    s.isComment = true := by
  obtain ⟨kind, hkind, hcomment⟩ := (Option.any_eq_true _ _).mp hd
  rw [Site.isComment, kind_of_fitsKind (hkind ▸ h.1)]
  exact hcomment

private theorem Demand.Holds.not_isComment (h : d.Holds s) (hd : d.asksOther = true) :
    s.isComment = false := by
  obtain ⟨kind, hkind, hcomment⟩ := (Option.any_eq_true _ _).mp hd
  rw [Site.isComment, kind_of_fitsKind (hkind ▸ h.1)]
  simpa using hcomment

end Demands

section Rules

/-- Whether a rule declares nodes that are no comments, and takes along comments in front of its
root, which is then all it declares besides. -/
def Rule.foldsComments (r : Rule) : Bool :=
  (r.pattern.routes.all fun route => !isDeclaration route.name ||
    (route.chain.head?.any Demand.asksOther && (r.lead.isNone || route.below.isEmpty))) &&
  r.lead.all fun lead => lead.pattern.heads.all Demand.asksComment

variable {r : Rule} {s : Site} {m : List Capture} {c : Capture}

private theorem Lead.inFront_of_mem_run {lead : Lead}
    (hlead : lead.pattern.heads.all Demand.asksComment = true) {n : Site} (hn : n ∈ lead.run s) :
    s.InFront n := by
  have hcomment : ∀ x, (!(lead.pattern.matchAt x).isEmpty) = true → x.isComment = true := by
    intro x hx
    obtain ⟨m, hm⟩ : ∃ m, m ∈ lead.pattern.matchAt x :=
      List.exists_mem_of_ne_nil _ (by simpa using hx)
    obtain ⟨d, hd, hholds⟩ := Pattern.exists_head lead.pattern hm
    exact hholds.isComment (List.all_eq_true.mp hlead d hd)
  rw [Lead.run, List.mem_reverse] at hn
  have hfits := List.mem_takeWhile_imp hn
  refine ⟨hcomment n hfits, ?_⟩
  -- the unnamed nodes, the run of comments and what is left are the siblings
  obtain ⟨nearer, farther, hrun⟩ := List.append_of_mem hn
  have hnamed := List.takeWhile_append_dropWhile (p := fun x : Site => !x.label.named)
    (l := s.earlierSiblings)
  have htaken := List.takeWhile_append_dropWhile (p := fun x => !(lead.pattern.matchAt x).isEmpty)
    (l := s.earlierSiblings.dropWhile fun x => !x.label.named)
  refine ⟨s.earlierSiblings.takeWhile (fun x => !x.label.named) ++ nearer,
    farther ++ (s.earlierSiblings.dropWhile fun x => !x.label.named).dropWhile
      (fun x => !(lead.pattern.matchAt x).isEmpty), ?_, ?_⟩
  · conv_lhs => rw [← hnamed, ← htaken, hrun]
    simp only [List.append_assoc, List.cons_append]
  · intro x hx
    rcases List.mem_append.mp hx with hx | hx
    · left
      simpa using List.mem_takeWhile_imp hx
    · right
      have hmem : x ∈ (s.earlierSiblings.dropWhile fun x => !x.label.named).takeWhile
          (fun x => !(lead.pattern.matchAt x).isEmpty) := by
        rw [hrun]
        exact List.mem_append_left _ hx
      have hfits := List.mem_takeWhile_imp hmem
      exact hcomment x hfits

/-- A declared node is no comment, and the root where comments are taken along; or it is one of
these comments. -/
theorem Rule.declared_cases (h : r.foldsComments = true) (hm : m ∈ r.matchAt s) (hc : c ∈ m)
    (hdeclared : isDeclaration c.name = true) :
    (c.site.isComment = false ∧ (r.lead = none ∨ c.site = s)) ∨
      (r.lead ≠ none ∧ s.InFront c.site) := by
  rw [Rule.foldsComments, Bool.and_eq_true, List.all_eq_true] at h
  obtain ⟨hroutes, hlead⟩ := h
  obtain ⟨m', hm', rfl⟩ := Rule.mem_matchAt_iff.mp hm
  rcases List.mem_append.mp hc with hc | hc
  · right
    rw [Rule.front] at hc
    split at hc
    case h_1 lead hsome =>
      obtain ⟨n, hn, rfl⟩ := List.mem_map.mp hc
      rw [hsome, Option.all_some] at hlead
      exact ⟨by simp [hsome], Lead.inFront_of_mem_run hlead hn⟩
    case h_2 => cases hc
  · left
    obtain ⟨route, hroute, hname, htaken⟩ := Pattern.exists_route hc r.pattern hm'
    have hcheck := hroutes route hroute
    rw [hname, hdeclared, Bool.not_true, Bool.false_or, Bool.and_eq_true, Bool.or_eq_true] at hcheck
    obtain ⟨d, hd, hother⟩ := (Option.any_eq_true _ _).mp hcheck.1
    obtain ⟨ds, hchain⟩ := List.head?_eq_some_iff.mp hd
    have hholds := htaken.ascends
    rw [hchain] at hholds
    refine ⟨hholds.head.not_isComment hother, hcheck.2.imp Option.isNone_iff_eq_none.mp ?_⟩
    intro hbelow
    have hclimbs := htaken.1
    rw [List.isEmpty_iff.mp hbelow] at hclimbs
    cases hclimbs
    rfl

theorem Rule.inFront_of_declared (h : r.foldsComments = true) (hm : m ∈ r.matchAt s)
    {n : Capture} (hc : c ∈ m) (hn : n ∈ m) (hdeclared : isDeclaration c.name = true)
    (hdeclares : isDeclaration n.name = true) (hcomment : c.site.isComment = true)
    (hother : n.site.isComment = false) : n.site.InFront c.site := by
  rcases Rule.declared_cases h hm hc hdeclared with ⟨hnot, -⟩ | ⟨hlead, hfront⟩
  · rw [hcomment] at hnot
    cases hnot
  · rcases Rule.declared_cases h hm hn hdeclares with ⟨-, hnone | hroot⟩ | ⟨-, hnot, -⟩
    · exact absurd hnone hlead
    · rw [hroot]
      exact hfront
    · rw [hother] at hnot
      cases hnot

end Rules

section Templates

/-- Whether a template has rules that fold comments, and braces in literals only. -/
def foldsTemplate (t : Text) : Bool :=
  bracesQuoted .between t && (read? t).any (·.all Rule.foldsComments)

set_option maxRecDepth 20000

private theorem foldsTemplate_go : foldsTemplate Go.definitions.toList = true ∧
    foldsTemplate Go.parentDefinitions.toList = true := by
  rw [toList_of_eq_ofList (show Go.definitions = _ from rfl),
    toList_of_eq_ofList (show Go.parentDefinitions = _ from rfl)]
  decide +kernel

private theorem foldsTemplate_python : foldsTemplate Python.definitions.toList = true ∧
    foldsTemplate Python.parentDefinitions.toList = true := by
  rw [toList_of_eq_ofList (show Python.definitions = _ from rfl),
    toList_of_eq_ofList (show Python.parentDefinitions = _ from rfl)]
  decide +kernel

private theorem foldsTemplate_typeScript : foldsTemplate TypeScript.definitions.toList = true ∧
    foldsTemplate TypeScript.parentDefinitions.toList = true := by
  rw [toList_of_eq_ofList (show TypeScript.definitions = _ from rfl),
    toList_of_eq_ofList (show TypeScript.parentDefinitions = _ from rfl)]
  decide +kernel

private theorem foldsTemplate_java : foldsTemplate Java.definitions.toList = true ∧
    foldsTemplate Java.parentDefinitions.toList = true := by
  rw [toList_of_eq_ofList (show Java.definitions = _ from rfl),
    toList_of_eq_ofList (show Java.parentDefinitions = _ from rfl)]
  decide +kernel

/-- The ways in which a definition query is asked: for all names, for one name, and for one name in
a parent. -/
inductive Asked : Purpose → (Text → Text) → Prop where
  | all : Asked .definition dropSlotTests
  | named (symbol : Text) : Asked .definition fun t => fill t symbol none
  | within (symbol parent : Text) : Asked .parentDefinition fun t => fill t symbol (some parent)

section Asked

variable {language : Language} {purpose : Purpose} {render : Text → Text} {t : Text}
  {rules : List Rule}

private theorem exists_foldsTemplate (h : language ∈ queriedLanguages)
    (hasked : Asked purpose render) :
    ∃ t, text? language purpose = some t ∧ foldsTemplate t = true := by
  have hboth : ∃ t t', text? language .definition = some t ∧ foldsTemplate t = true ∧
      text? language .parentDefinition = some t' ∧ foldsTemplate t' = true := by
    simp only [queriedLanguages, List.mem_cons, List.not_mem_nil, or_false] at h
    rcases h with rfl | rfl | rfl | rfl | rfl
    · exact ⟨_, _, rfl, foldsTemplate_go.1, rfl, foldsTemplate_go.2⟩
    · exact ⟨_, _, rfl, foldsTemplate_python.1, rfl, foldsTemplate_python.2⟩
    · exact ⟨_, _, rfl, foldsTemplate_typeScript.1, rfl, foldsTemplate_typeScript.2⟩
    · exact ⟨_, _, rfl, foldsTemplate_typeScript.1, rfl, foldsTemplate_typeScript.2⟩
    · exact ⟨_, _, rfl, foldsTemplate_java.1, rfl, foldsTemplate_java.2⟩
  obtain ⟨t, t', htext, hfolds, htext', hfolds'⟩ := hboth
  cases hasked with
  | all => exact ⟨t, htext, hfolds⟩
  | named symbol => exact ⟨t, htext, hfolds⟩
  | within symbol parent => exact ⟨t', htext', hfolds'⟩

theorem Asked.untested (hasked : Asked purpose render) (h : language ∈ queriedLanguages)
    (htext : text? language purpose = some t) (hbraces : bracesQuoted .between t = true)
    (hread : read? (render t) = some rules) :
    (read? t).map (List.map Rule.untested) = some (rules.map Rule.untested) := by
  cases hasked with
  | all =>
    obtain ⟨t', template, htext', htemplate⟩ := exists_template h
    obtain rfl : t' = t := Option.some.inj (htext'.symm.trans htext)
    rw [htemplate.reads_all] at hread
    rw [htemplate.reads, ← Option.some.inj hread, List.map_map]
    rfl
  | named symbol => exact untested_fill hbraces hread
  | within symbol parent => exact untested_fill hbraces hread

theorem Asked.foldsComments (hasked : Asked purpose render) (h : language ∈ queriedLanguages)
    (htext : text? language purpose = some t) (hread : read? (render t) = some rules) :
    ∀ r ∈ rules, r.foldsComments = true := by
  obtain ⟨t', htext', hfolds⟩ := exists_foldsTemplate h hasked
  obtain rfl : t' = t := Option.some.inj (htext'.symm.trans htext)
  rw [foldsTemplate, Bool.and_eq_true, Option.any_eq_true] at hfolds
  obtain ⟨hbraces, template, htemplate, hall⟩ := hfolds
  have huntested := hasked.untested h htext hbraces hread
  rw [htemplate, Option.map_some] at huntested
  intro r hr
  have hmem : r.untested ∈ template.map Rule.untested := by
    rw [Option.some.inj huntested]
    exact List.mem_map_of_mem hr
  obtain ⟨r', hr', heq⟩ := List.mem_map.mp hmem
  have hsame : r'.untested.foldsComments = true := List.all_eq_true.mp hall r' hr'
  rw [heq] at hsame
  exact hsame

end Asked

end Templates

end Query

end CodeAtlas
