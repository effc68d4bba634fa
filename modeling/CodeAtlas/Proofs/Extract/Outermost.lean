import CodeAtlas.Proofs.Block.Normal
import CodeAtlas.Proofs.Extract.Ordered

/-!
# Outermost definitions

The definitions of a document are its named hits without those inside another one of the same name.
One pass over the hits finds them, since a hit stands behind those that it is inside of.
-/

namespace CodeAtlas

open Block (startsBefore_iff)

private theorem Span.contains_of_startsBefore {s t : Span} (hbefore : s.startsBefore t = true)
    (h : t.contains s = true) : s.contains t = true := by
  simp only [startsBefore_iff, contains, Bool.and_eq_true, decide_eq_true_eq] at *
  omega

namespace Hit

/-- Whether the second hit is inside the first one and has the same name. -/
def Shadows (outer h : Hit) : Prop :=
  outer.symbol = h.symbol ∧ outer.span.contains h.span = true

instance (outer h : Hit) : Decidable (outer.Shadows h) := inferInstanceAs (Decidable (_ ∧ _))

theorem Shadows.refl (h : Hit) : h.Shadows h := by
  simp [Shadows, Span.contains]

private theorem Shadows.of_startsBefore {g h : Hit} (hbefore : g.span.startsBefore h.span = true)
    (hshadows : h.Shadows g) : g.Shadows h :=
  ⟨hshadows.1.symm, Span.contains_of_startsBefore hbefore hshadows.2⟩

end Hit

section Pass

variable {kept hits : List Hit} {h : Hit}

/-- One step of the pass: a hit is left out exactly if a kept one shadows it. -/
theorem outermost_cons (kept : List Hit) (h : Hit) (hits : List Hit) :
    outermost kept (h :: hits) =
      if ∃ g ∈ kept, g.Shadows h then outermost kept hits else outermost (h :: kept) hits := by
  have hshadowed : (kept.any fun outer => outer.symbol == h.symbol && outer.span.contains h.span) =
      true ↔ ∃ g ∈ kept, g.Shadows h := by
    simp [Hit.Shadows]
  rw [outermost]
  exact if_congr hshadowed rfl rfl

private theorem exists_outermost_eq (kept hits : List Hit) :
    ∃ more, outermost kept hits = kept.reverse ++ more ∧ more.Sublist hits := by
  induction hits generalizing kept with
  | nil => exact ⟨[], by simp [outermost]⟩
  | cons h hits ih =>
    rw [outermost_cons]
    split
    · obtain ⟨more, hmore, hsublist⟩ := ih kept
      exact ⟨more, hmore, hsublist.cons h⟩
    · obtain ⟨more, hmore, hsublist⟩ := ih (h :: kept)
      exact ⟨h :: more, by simp [hmore], hsublist.cons_cons h⟩

private theorem outermost_sublist (hits : List Hit) : (outermost [] hits).Sublist hits := by
  obtain ⟨more, hmore, hsublist⟩ := exists_outermost_eq [] hits
  simpa [hmore] using hsublist

private theorem mem_outermost_of_mem_kept (hh : h ∈ kept) (hits : List Hit) :
    h ∈ outermost kept hits := by
  obtain ⟨more, hmore, -⟩ := exists_outermost_eq kept hits
  simp [hmore, hh]

/-- Every hit is shadowed by one that is kept. -/
theorem exists_mem_outermost_shadows (kept : List Hit) (hh : h ∈ hits) :
    ∃ g ∈ outermost kept hits, g.Shadows h := by
  induction hits generalizing kept with
  | nil => cases hh
  | cons first hits ih =>
    rw [outermost_cons]
    rcases List.mem_cons.mp hh with rfl | hh
    · split
      · next hinner =>
        obtain ⟨g, hg, hshadows⟩ := hinner
        exact ⟨g, mem_outermost_of_mem_kept hg hits, hshadows⟩
      · exact ⟨h, mem_outermost_of_mem_kept List.mem_cons_self hits, .refl h⟩
    · split
      · exact ih kept hh
      · exact ih (first :: kept) hh

/-- No kept hit shadows a later one. -/
theorem pairwise_not_shadows (hkept : kept.reverse.Pairwise fun g h => ¬g.Shadows h)
    (hits : List Hit) : (outermost kept hits).Pairwise fun g h => ¬g.Shadows h := by
  induction hits generalizing kept with
  | nil => exact hkept
  | cons h hits ih =>
    rw [outermost_cons]
    split
    · exact ih hkept
    · next houter =>
      apply ih
      rw [List.reverse_cons, List.pairwise_append]
      refine ⟨hkept, List.pairwise_singleton _ h, ?_⟩
      simpa using houter

end Pass

/-- The named ones of some hits by their start, the longer one first: none is inside another of the
same name, and every named hit is inside one of its name. -/
structure Outermost (all defs : List Hit) : Prop where
  named : ∀ h ∈ defs, h ∈ all ∧ h.symbol ≠ []
  in_order : defs.Pairwise fun g h => g.span.startByte < h.span.startByte ∨
    g.span.startByte = h.span.startByte ∧ h.span.endByte ≤ g.span.endByte
  apart : defs.Pairwise fun g h => ¬g.Shadows h ∧ ¬h.Shadows g
  complete : ∀ h ∈ all, h.symbol ≠ [] → ∃ g ∈ defs, g.Shadows h

/-- The order in which the hits are passed is what makes one pass enough: a later hit shadows an
earlier one only if both cover the same bytes, and then it is left out. -/
theorem outermost_outermost (all : List Hit) :
    Outermost all (outermost [] (sortBy (fun g h => g.span.startsBefore h.span)
      (all.filter (·.symbol ≠ [])))) := by
  have hsorted := (Block.pairwise_sortBy_startsBefore Hit.span
    (all.filter (·.symbol ≠ []))).sublist (outermost_sublist _)
  have hmem (h : Hit) : h ∈ sortBy (fun g h => g.span.startsBefore h.span)
      (all.filter (·.symbol ≠ [])) ↔ h ∈ all ∧ h.symbol ≠ [] := by
    rw [(sortBy_perm _ _).mem_iff]
    simp
  refine ⟨?_, ?_, ?_, ?_⟩
  · intro h hh
    exact (hmem h).mp ((outermost_sublist _).subset hh)
  · exact hsorted.imp startsBefore_iff.mp
  · apply (hsorted.and (pairwise_not_shadows List.Pairwise.nil _)).imp
    rintro g h ⟨hbefore, hshadows⟩
    exact ⟨hshadows, fun hlater => hshadows (.of_startsBefore hbefore hlater)⟩
  · intro h hh hname
    exact exists_mem_outermost_shadows [] ((hmem h).mpr ⟨hh, hname⟩)

namespace Document

variable {grammars : Grammars} {d : Document}

private theorem exists_allQueryHits (hlang : d.language ∈ Query.queriedLanguages) :
    ∃ hits, d.queryHits .definition Query.dropSlotTests = .ok hits := by
  obtain ⟨t, rules, htext, htemplate⟩ := Query.exists_template hlang
  simp only [queryHits, htext, htemplate.reads_all]
  exact ⟨_, rfl⟩

private theorem queried_of_lookup (h : d.profile.lookup = .byQuery) :
    d.language ∈ Query.queriedLanguages := by
  rw [profile] at h
  cases hlang : d.language <;> rw [hlang] at h <;> first | decide | cases h

private theorem exists_ownDefinitions
    (hparsed : ∀ r ∈ d.regions, grammars r.language r.text ≠ none) :
    ∃ hits, d.ownDefinitions grammars = .ok hits := by
  rw [ownDefinitions]
  cases hlookup : d.profile.lookup with
  | byQuery => exact exists_allQueryHits (queried_of_lookup hlookup)
  | bySymbols =>
    obtain ⟨symbols, hsymbols⟩ := exists_symbols hparsed
    exact ⟨_, by rw [hsymbols]; rfl⟩
  | inRegions => exact ⟨[], rfl⟩

private theorem Embeds.exists_ownDefinitions {r : Region} {inner : Document}
    (h : d.Embeds grammars r inner) : ∃ hits, inner.ownDefinitions grammars = .ok hits := by
  have hvue : d.language = .vue := by
    by_cases hvue : d.language = .vue
    · exact hvue
    · have hmem := h.1
      rw [regions_eq_nil hvue] at hmem
      cases hmem
  rw [h.ownDefinitions hvue]
  exact exists_allQueryHits (h.queried hvue)

theorem exists_allHits (hparsed : ∀ r ∈ d.regions, grammars r.language r.text ≠ none) :
    ∃ hits, d.allHits grammars = .ok hits := by
  obtain ⟨own, hown⟩ := exists_ownDefinitions hparsed
  obtain ⟨inners, hinners⟩ := exists_innerDocuments hparsed
  have hinner : ∀ pair ∈ inners, ∃ hits : List Hit, (do
      return (← pair.2.ownDefinitions grammars).map (Hit.shift pair.1) :
        Except ExtractError (List Hit)) = .ok hits := by
    intro pair hpair
    obtain ⟨hits, hhits⟩ := ((mem_innerDocuments hinners).mp hpair).exists_ownDefinitions
    exact ⟨_, by rw [hhits]; rfl⟩
  obtain ⟨shifted, hshifted⟩ := exists_mapM_eq_ok hinner
  refine ⟨own ++ shifted.flatten, ?_⟩
  exact bind_eq_ok_iff.mpr ⟨own, hown, bind_eq_ok_iff.mpr ⟨inners, hinners,
    bind_eq_ok_iff.mpr ⟨shifted, hshifted, rfl⟩⟩⟩

/-- In every language, and with every tree of a document and of each of its regions, all
definitions are found, in the order of their places. None is inside another of the same name, and
every named hit is inside one of its name. -/
theorem definitions_are_outermost (grammars : Grammars) (d : Document)
    (hparsed : ∀ r ∈ d.regions, grammars r.language r.text ≠ none) :
    ∃ all defs, d.allHits grammars = .ok all ∧ d.definitions grammars = .ok defs ∧
      Outermost all defs := by
  obtain ⟨all, hall⟩ := exists_allHits hparsed
  refine ⟨all, _, hall, ?_, outermost_outermost all⟩
  rw [definitions, hall]
  rfl

open ScriptOnFirstRow in
theorem definitions_are_outermost_script :
    (document.regions.map (fun r => (r.language, r.text)) = [(.typeScript, script)] ∧
      ∀ r ∈ document.regions, scriptGrammars r.language r.text ≠ none) ∧
    ∃ all defs, document.allHits scriptGrammars = .ok all ∧
      document.definitions scriptGrammars = .ok defs ∧ Outermost all defs := by
  have hparsed : ∀ r ∈ document.regions, scriptGrammars r.language r.text ≠ none := by
    intro r hr
    have hmem := List.mem_map_of_mem (f := fun r => (r.language, r.text)) hr
    rw [regions_eq, List.mem_singleton, Prod.mk.injEq] at hmem
    simp [scriptGrammars, hmem]
  exact ⟨⟨regions_eq, hparsed⟩, definitions_are_outermost scriptGrammars document hparsed⟩

end Document

end CodeAtlas
