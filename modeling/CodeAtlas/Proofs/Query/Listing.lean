import CodeAtlas.Proofs.Query.Definition

/-!
# Listed names and defined names

A language lists names by its outline query and finds them by its definition query. Both lead from a
name up to a declaration, and where the way of the outline query goes on as that of the definition
query does, a listed name is found. It does not go on for the specifications of a group, which the
definition query looks for in the declaration itself and not in a list inside it.
-/

namespace CodeAtlas.Query

section Ascent

/-- Whether a node and those above it are as demanded, one after the other. -/
def Ascends : List Demand → Site → Prop
  | [], _ => True
  | [d], n => d.Holds n
  | d :: ds, n => d.Holds n ∧ ∃ p, n ∈ p.children ∧ Ascends ds p

/-- All demands of a route, that on the root last. -/
def Route.chain (r : Route) : List Demand := r.below ++ [r.top]

theorem Ascends.head {d : Demand} {ds : List Demand} {n : Site} (h : Ascends (d :: ds) n) :
    d.Holds n := by
  cases ds with
  | nil => exact h
  | cons e ds => exact h.1

private theorem ascends_cons {d : Demand} {ds : List Demand} (hds : ds ≠ []) {n : Site} :
    Ascends (d :: ds) n ↔ d.Holds n ∧ ∃ p, n ∈ p.children ∧ Ascends ds p := by
  cases ds with
  | nil => exact absurd rfl hds
  | cons e ds => exact Iff.rfl

private theorem Climbs.ascends {top n : Site} {d : Demand} {ds : List Demand} (h : Climbs top n ds)
    (hd : d.Holds top) : Ascends (ds ++ [d]) n := by
  induction h with
  | here => exact hd
  | up hd' hp _ ih => exact (ascends_cons (by simp)).mpr ⟨hd', _, hp, ih⟩

theorem Route.Taken.ascends {r : Route} {n top : Site} (h : r.Taken n top) : Ascends r.chain n :=
  h.1.ascends h.2

private theorem exists_climbs {n : Site} {d : Demand} {ds : List Demand}
    (h : Ascends (ds ++ [d]) n) : ∃ top, Climbs top n ds ∧ d.Holds top := by
  induction ds generalizing n with
  | nil => exact ⟨n, .here, h⟩
  | cons e ds ih =>
      obtain ⟨he, p, hp, h⟩ := (ascends_cons (by simp)).mp h
      obtain ⟨top, hclimbs, hd⟩ := ih h
      exact ⟨top, .up he hp hclimbs, hd⟩

private theorem Route.exists_taken {r : Route} {n : Site} (h : Ascends r.chain n) :
    ∃ top, r.Taken n top := exists_climbs h

/-- Whether one demand is as strict as another. -/
def Demand.implies (d e : Demand) : Bool := d.kind == e.kind && e.fields.all (d.fields.contains ·)

private theorem Demand.Holds.of_implies {d e : Demand} {s : Site} (h : d.Holds s)
    (himplies : d.implies e = true) : e.Holds s := by
  rw [Demand.implies, Bool.and_eq_true, beq_iff_eq, List.all_eq_true] at himplies
  exact ⟨himplies.1 ▸ h.1, fun f hf => h.2 f (List.contains_iff_mem.mp (himplies.2 f hf))⟩

/-- Whether the first demands of one way up are as strict as those of another. -/
def leadsTo : List Demand → List Demand → Bool
  | _, [] => true
  | [], _ :: _ => false
  | d :: ds, e :: es => d.implies e && leadsTo ds es

theorem Ascends.of_leadsTo {ds es : List Demand} {n : Site} (h : Ascends ds n)
    (hleads : leadsTo ds es = true) : Ascends es n := by
  induction ds, es using leadsTo.induct generalizing n with
  | case1 ds => trivial
  | case2 e es => cases hleads
  | case3 d ds e es ih =>
      rw [leadsTo, Bool.and_eq_true] at hleads
      cases ds with
      | nil =>
          cases es with
          | nil => exact Demand.Holds.of_implies h hleads.1
          | cons e' es => cases hleads.2
      | cons d' ds =>
          obtain ⟨hd, p, hp, h⟩ := h
          cases es with
          | nil => exact hd.of_implies hleads.1
          | cons e' es => exact ⟨hd.of_implies hleads.1, p, hp, ih h hleads.2⟩

end Ascent

section Owners

/-- The declaration that a specification belongs to, by their kinds. -/
def specOwner : String → Option String
  | "type_spec" | "type_alias" => some "type_declaration"
  | "const_spec" => some "const_declaration"
  | "var_spec" => some "var_declaration"
  | _ => none

/-- Whether a node that stands in a specification stands directly in the declaration of it. -/
def DirectlyOwned (n : Site) : Prop :=
  ∀ spec ∈ n.parent?, ∀ owner ∈ specOwner spec.kind,
    ∃ declaration ∈ spec.parent?, fitsKind (some owner) declaration = true

instance (n : Site) : Decidable (DirectlyOwned n) :=
  inferInstanceAs (Decidable (∀ spec ∈ n.parent?, ∀ owner ∈ specOwner spec.kind,
    ∃ declaration ∈ spec.parent?, fitsKind (some owner) declaration = true))

/-- The demands on a name in a specification and on the declaration of it. -/
def withOwner : List Demand → List Demand
  | [d, ⟨some kind, fields⟩] =>
      d :: ⟨some kind, fields⟩ :: ((specOwner kind).map fun owner => ⟨some owner, []⟩).toList
  | ds => ds

theorem kind_of_fitsKind {kind : String} {s : Site} (h : fitsKind (some kind) s = true) :
    s.kind = kind := by
  rw [fitsKind, Bool.and_eq_true] at h
  exact beq_iff_eq.mp h.2

theorem Ascends.withOwner {t : Tree} {ds : List Demand} {n : Site} (h : Ascends ds n)
    (hn : n.In t) (howned : DirectlyOwned n) : Ascends (withOwner ds) n := by
  rw [Query.withOwner.eq_def]
  split
  · next d kind fields =>
      obtain ⟨hd, p, hp, he⟩ := h
      cases howner : specOwner kind with
      | none => exact ⟨hd, p, hp, he⟩
      | some owner =>
          have hparent := Site.parent?_of_mem_children hp
          obtain ⟨hin, -⟩ := hn.of_parent? hparent
          have hkind : specOwner p.kind = some owner := by rw [kind_of_fitsKind he.1, howner]
          obtain ⟨declaration, hdeclaration, hfits⟩ := howned p hparent owner hkind
          obtain ⟨-, hmem⟩ := hin.of_parent? hdeclaration
          exact ⟨hd, p, hp, he, declaration, hmem, hfits, by simp⟩
  · exact h

/-- Whether the demands on a name in a specification go on with one on the declaration. -/
def demandsOwner : List Demand → Bool
  | _ :: ⟨some kind, _⟩ :: rest =>
      (specOwner kind).all fun owner => rest.head?.any (·.kind == some owner)
  | _ => false

theorem Ascends.directlyOwned {ds : List Demand} {n : Site} (h : Ascends ds n)
    (hds : demandsOwner ds = true) : DirectlyOwned n := by
  rw [demandsOwner.eq_def] at hds
  split at hds
  · next d kind fields rest =>
      obtain ⟨-, p, hp, h⟩ := h
      intro spec hspec owner howner
      obtain rfl : p = spec := Option.some.inj ((Site.parent?_of_mem_children hp).symm.trans hspec)
      rw [kind_of_fitsKind h.head.1, Option.mem_def] at howner
      rw [howner, Option.all_some] at hds
      cases rest with
      | nil => cases hds
      | cons e rest =>
          obtain ⟨-, declaration, hmem, h⟩ := h
          rw [List.head?_cons, Option.any_some, beq_iff_eq] at hds
          exact ⟨declaration, Site.parent?_of_mem_children hmem, hds ▸ h.head.1⟩
  · cases hds

end Owners

section Agreement

def Rule.nameChains (r : Rule) : List (List Demand) :=
  (r.pattern.routes.filter fun route => isName route.name).map Route.chain

/-- Whether a rule captures its root as a declaration, which is no comment. -/
def Rule.declaresRoot (r : Rule) : Bool :=
  match r.pattern with
  | .capture p name =>
      Role.ofCaptureName name = .declaration &&
        p.heads.all fun d => d.kind.any fun kind => !Text.occursIn "comment".toList kind.toList
  | _ => false

theorem Rule.exists_of_declaresRoot {r : Rule} (h : r.declaresRoot = true) {s : Site}
    {m : List Capture} (hm : m ∈ r.matchAt s) :
    s.isComment = false ∧ ∃ c ∈ m, c.site = s ∧ Role.ofCaptureName c.name = .declaration := by
  rw [Rule.declaresRoot] at h
  obtain ⟨m', hm', rfl⟩ := Rule.mem_matchAt_iff.mp hm
  split at h
  · next p name hpattern =>
      rw [Bool.and_eq_true, decide_eq_true_eq, List.all_eq_true] at h
      rw [hpattern, Pattern.matchAt] at hm'
      obtain ⟨rest, hrest, rfl⟩ := List.mem_map.mp hm'
      obtain ⟨d, hd, hholds⟩ := Pattern.exists_head p hrest
      obtain ⟨kind, hkind, hcomment⟩ := (Option.any_eq_true _ _).mp (h.2 d hd)
      refine ⟨?_, ⟨name, s⟩, List.mem_append_right _ List.mem_cons_self, rfl, h.1⟩
      rw [Site.isComment, kind_of_fitsKind (hkind ▸ hholds.1)]
      simpa using hcomment
  · cases h

/-- Whether the definition rules of a language go the ways of its outline rules. -/
structure Agree (outline definition : List Rule) : Prop where
  leads : ∀ r ∈ outline, r.lead.all (fun lead => !isName lead.capture) = true
  chains : ∀ r ∈ outline, ∀ ds ∈ r.nameChains,
    ∃ q ∈ definition, ∃ es ∈ q.nameChains, leadsTo (withOwner ds) es = true
  declares : ∀ q ∈ definition, q.declaresRoot = true
  owners : ∀ q ∈ definition, ∀ es ∈ q.nameChains, demandsOwner es = true

def agree (outline definition : List Rule) : Bool :=
  (outline.all fun r => (r.lead.all fun lead => !isName lead.capture) &&
    r.nameChains.all fun ds => definition.any fun q => q.nameChains.any (leadsTo (withOwner ds))) &&
  definition.all fun q => q.declaresRoot && q.nameChains.all demandsOwner

private theorem agree_iff {outline definition : List Rule} :
    agree outline definition = true ↔ Agree outline definition := by
  simp only [agree, Bool.and_eq_true, List.all_eq_true, List.any_eq_true]
  constructor
  · rintro ⟨houtline, hdefinition⟩
    exact ⟨fun r hr => (houtline r hr).1, fun r hr => (houtline r hr).2,
      fun q hq => (hdefinition q hq).1, fun q hq => (hdefinition q hq).2⟩
  · rintro ⟨hleads, hchains, hdeclares, howners⟩
    exact ⟨fun r hr => ⟨hleads r hr, hchains r hr⟩, fun q hq => ⟨hdeclares q hq, howners q hq⟩⟩

set_option maxRecDepth 30000

private theorem agree_go :
    agree ((read? Go.outline.toList).getD []) ((read? Go.definitions.toList).getD []) = true := by
  rw [toList_of_eq_ofList (show Go.outline = _ from rfl),
    toList_of_eq_ofList (show Go.definitions = _ from rfl)]
  decide +kernel

private theorem agree_python :
    agree ((read? Python.outline.toList).getD []) ((read? Python.definitions.toList).getD []) =
      true := by
  rw [toList_of_eq_ofList (show Python.outline = _ from rfl),
    toList_of_eq_ofList (show Python.definitions = _ from rfl)]
  decide +kernel

private theorem agree_typeScript :
    agree ((read? TypeScript.outline.toList).getD [])
      ((read? TypeScript.definitions.toList).getD []) = true := by
  rw [toList_of_eq_ofList (show TypeScript.outline = _ from rfl),
    toList_of_eq_ofList (show TypeScript.definitions = _ from rfl)]
  decide +kernel

private theorem agree_java :
    agree ((read? Java.outline.toList).getD [])
      ((read? Java.definitions.toList).getD []) = true := by
  rw [toList_of_eq_ofList (show Java.outline = _ from rfl),
    toList_of_eq_ofList (show Java.definitions = _ from rfl)]
  decide +kernel

private theorem agree_rules {language : Language} {o d : Text}
    (ho : text? language .outline = some o) (hd : text? language .definition = some d)
    (h : agree ((read? o).getD []) ((read? d).getD []) = true) :
    Agree (rules language .outline) (rules language .definition) := by
  rw [rules, rules, ho, hd, Option.bind_some, Option.bind_some]
  exact agree_iff.mp h

/-- In all languages with a definition query it goes the ways of the outline query. -/
theorem agree_of_queried {language : Language} (h : language ∈ queriedLanguages) :
    Agree (rules language .outline) (rules language .definition) := by
  simp only [queriedLanguages, List.mem_cons, List.not_mem_nil, or_false] at h
  rcases h with rfl | rfl | rfl | rfl | rfl
  · exact agree_rules (o := Go.outline.toList) rfl rfl agree_go
  · exact agree_rules (o := Python.outline.toList) rfl rfl agree_python
  · exact agree_rules (o := TypeScript.outline.toList) rfl rfl agree_typeScript
  · exact agree_rules (o := TypeScript.outline.toList) rfl rfl agree_typeScript
  · exact agree_rules (o := Java.outline.toList) rfl rfl agree_java

end Agreement

section Found

variable {outline rules : List Rule} {source : Buffer} {tree : Tree} {m : Match} {n : Site}

/-- The names that an outline query captures are those from which one of its ways leads up. -/
theorem Agree.listed_ascends (h : Agree outline rules) (hm : m ∈ run outline source tree)
    {c : Capture} (hc : c ∈ m.captures) (hname : isName c.name = true) :
    c.site.In tree ∧ ∃ r ∈ outline, ∃ ds ∈ r.nameChains, Ascends ds c.site := by
  obtain ⟨r, hr, s, hs, hfit⟩ := exists_of_mem_run hm
  obtain ⟨route, hroute, hroutename, htaken⟩ := Rule.exists_route hfit hc (h.leads r hr) hname
  refine ⟨htaken.1.in_tree hs, r, hr, route.chain, ?_, htaken.ascends⟩
  exact List.mem_map_of_mem (List.mem_filter.mpr ⟨hroute, hroutename ▸ hname⟩)

variable {t : Text}

theorem DefinitionTemplate.exists_root (h : DefinitionTemplate t rules)
    (hm : m ∈ run (rules.map Rule.untested) source tree)
    (hn : m.Names n) :
    ∃ r ∈ rules, ∃ s, s.In tree ∧ m.captures ∈ r.matchAt s ∧
      ∃ route ∈ r.pattern.routes, isName route.name = true ∧ route.Taken n s := by
  obtain ⟨r', hr', s, hs, hfit⟩ := exists_of_mem_run hm
  obtain ⟨r, hr, rfl⟩ := List.mem_map.mp hr'
  have hlead := h.straight r hr
  rw [Rule.isStraight, Bool.and_eq_true] at hlead
  obtain ⟨route, hroute, hroutename, htaken⟩ := Rule.exists_route hfit hn.mem hlead.2 isName_name
  exact ⟨r, hr, s, hs, hfit, route, hroute, by rw [hroutename, isName_name], htaken⟩

theorem DefinitionTemplate.exists_match_iff (h : DefinitionTemplate t rules) (hn : n.In tree) :
    (∃ m ∈ run (rules.map Rule.untested) source tree, m.Names n) ↔
      ∃ r ∈ rules, ∃ es ∈ r.nameChains, Ascends es n := by
  constructor
  · rintro ⟨m, hm, hname⟩
    obtain ⟨r, hr, s, -, -, route, hroute, hroutename, htaken⟩ := h.exists_root hm hname
    exact ⟨r, hr, route.chain, List.mem_map_of_mem (List.mem_filter.mpr ⟨hroute, hroutename⟩),
      htaken.ascends⟩
  · rintro ⟨r, hr, es, hes, hascends⟩
    obtain ⟨route, hroute, rfl⟩ := List.mem_map.mp hes
    obtain ⟨hroute, hroutename⟩ := List.mem_filter.mp hroute
    obtain ⟨top, htaken⟩ := Route.exists_taken hascends
    obtain ⟨captures, hfit, hmem⟩ :=
      Rule.exists_fit (h.straight r hr) hroute hroutename (htaken.1.top_in_tree hn) htaken
    obtain ⟨m, hm, rfl⟩ := exists_mem_run_iff.mpr ⟨r.untested, List.mem_map_of_mem hr, hfit⟩
    obtain ⟨n', hname⟩ := h.exists_name hm
    obtain rfl : n = n' := congrArg Capture.site (hname.eq_of_mem hmem hroutename)
    exact ⟨m, hm, hname⟩

end Found

end CodeAtlas.Query
