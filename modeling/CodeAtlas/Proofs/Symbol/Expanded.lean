import CodeAtlas.Proofs.Order
import CodeAtlas.Symbol.Spelling

/-!
# Symbols under further names

Expanding a list of symbols keeps it as it is and adds a symbol for each spelling that is not a name
already. An added symbol is the first one with that spelling, under another name.
-/

namespace CodeAtlas.Symbol

section Spellings

variable {s : Symbol} {form : Text}

private theorem spellings_eq_cons (hname : s.content ≠ []) :
    s.spellings = s.content :: s.spellings.drop 1 := by
  have hfirst : s.spellings.head? = some s.content := by
    rw [spellings, List.cons_append, List.cons_append,
      List.filter_cons_of_pos (by simpa using hname), List.eraseDups_cons]
    rfl
  rw [List.drop_one, List.cons_head?_tail hfirst]

private theorem mem_spellings_iff_drop (hname : s.content ≠ []) :
    form ∈ s.spellings ↔ form = s.content ∨ form ∈ s.spellings.drop 1 := by
  conv_lhs => rw [spellings_eq_cons hname]
  exact List.mem_cons

end Spellings

section NewForms

variable {seen : List Text} {forms : List Symbol} {a : Symbol}

/-- What one form adds: nothing if its name is taken, else itself, and then its name is taken. -/
theorem newForms_cons (seen : List Text) (s : Symbol) (rest : List Symbol) :
    newForms seen (s :: rest) =
      if s.content ∈ seen then newForms seen rest else s :: newForms (s.content :: seen) rest := by
  simp only [newForms, List.contains_iff_mem]

private theorem content_not_mem_of_mem_newForms (h : a ∈ newForms seen forms) :
    a.content ∉ seen := by
  induction forms generalizing seen with
  | nil => cases h
  | cons s rest ih =>
    rw [newForms_cons] at h
    split at h
    · exact ih h
    · next hnew =>
      rcases List.mem_cons.mp h with rfl | h
      · exact hnew
      · exact fun hseen => ih h (List.mem_cons_of_mem _ hseen)

private theorem nodup_newForms (seen : List Text) (forms : List Symbol) :
    ((newForms seen forms).map (·.content)).Nodup := by
  induction forms generalizing seen with
  | nil => exact List.nodup_nil
  | cons s rest ih =>
    rw [newForms_cons]
    split
    · exact ih seen
    · rw [List.map_cons, List.nodup_cons]
      refine ⟨?_, ih _⟩
      intro hagain
      obtain ⟨a, ha, hsame⟩ := List.mem_map.mp hagain
      apply content_not_mem_of_mem_newForms ha
      rw [hsame]
      exact List.mem_cons_self

private theorem find?_of_mem_newForms (h : a ∈ newForms seen forms) :
    forms.find? (·.content = a.content) = some a := by
  induction forms generalizing seen with
  | nil => cases h
  | cons s rest ih =>
    rw [newForms_cons] at h
    split at h
    · next hseen =>
      have hother : ¬s.content = a.content := by
        intro hsame
        rw [hsame] at hseen
        exact content_not_mem_of_mem_newForms h hseen
      rw [List.find?_cons_of_neg (by simpa using hother)]
      exact ih h
    · rcases List.mem_cons.mp h with rfl | h
      · exact List.find?_cons_of_pos (by simp)
      · have hother : ¬s.content = a.content := by
          intro hsame
          apply content_not_mem_of_mem_newForms h
          rw [hsame]
          exact List.mem_cons_self
        rw [List.find?_cons_of_neg (by simpa using hother)]
        exact ih h

private theorem content_mem_of_mem (seen : List Text) (h : a ∈ forms) :
    a.content ∈ seen ∨ a.content ∈ (newForms seen forms).map (·.content) := by
  induction forms generalizing seen with
  | nil => cases h
  | cons s rest ih =>
    rw [newForms_cons]
    split
    · next hseen =>
      rcases List.mem_cons.mp h with rfl | h
      · exact Or.inl hseen
      · exact ih seen h
    · rw [List.map_cons, List.mem_cons]
      rcases List.mem_cons.mp h with rfl | h
      · exact Or.inr (Or.inl rfl)
      · rcases ih (s.content :: seen) h with hseen | hadded
        · exact (List.mem_cons.mp hseen).elim (fun hs => Or.inr (Or.inl hs)) Or.inl
        · exact Or.inr (Or.inr hadded)

end NewForms

section Expand

variable {symbols : List Symbol} {s a : Symbol} {form : Text}

/-- A symbol under each of its spellings but the first. -/
def renamed (s : Symbol) : List Symbol :=
  (s.spellings.drop 1).map fun form => { s with content := form }

def added (symbols : List Symbol) : List Symbol :=
  newForms (symbols.map (·.content)) (symbols.flatMap renamed)

private theorem expand_eq_append (symbols : List Symbol) :
    expand symbols = symbols ++ added symbols := rfl

private theorem mem_renamed_iff :
    a ∈ s.renamed ↔ a.content ∈ s.spellings.drop 1 ∧ a = { s with content := a.content } := by
  rw [renamed, List.mem_map]
  constructor
  · rintro ⟨form, hform, rfl⟩
    exact ⟨hform, rfl⟩
  · rintro ⟨hform, ha⟩
    exact ⟨a.content, hform, ha.symm⟩

private theorem find?_renamed_eq_none_iff (hname : s.content ≠ []) (hform : form ≠ s.content) :
    s.renamed.find? (·.content = form) = none ↔ form ∉ s.spellings := by
  rw [List.find?_eq_none, mem_spellings_iff_drop hname, or_iff_right hform]
  constructor
  · intro hnone hmem
    exact hnone { s with content := form } (mem_renamed_iff.mpr ⟨hmem, rfl⟩) (by simp)
  · intro hnot a ha hsame
    rw [decide_eq_true_eq] at hsame
    exact hnot (hsame ▸ (mem_renamed_iff.mp ha).1)

variable (hnamed : ∀ s ∈ symbols, s.content ≠ [])
include hnamed

/-- An added symbol comes from the first symbol with its spelling. -/
theorem exists_first_of_mem_added (ha : a ∈ added symbols) :
    ∃ s, symbols.find? (a.content ∈ ·.spellings) = some s ∧
      a = { s with content := a.content } := by
  have hfresh : ∀ s ∈ symbols, a.content ≠ s.content := fun s hs hsame =>
    content_not_mem_of_mem_newForms ha (hsame ▸ List.mem_map_of_mem hs)
  have hfirst := find?_of_mem_newForms ha
  rw [List.find?_flatMap, List.findSome?_eq_some_iff] at hfirst
  obtain ⟨before, s, after, hsplit, hfound, hnone⟩ := hfirst
  have hs : s ∈ symbols := by
    rw [hsplit]
    exact List.mem_append_right _ List.mem_cons_self
  obtain ⟨hform, hrenamed⟩ := mem_renamed_iff.mp (List.mem_of_find?_eq_some hfound)
  refine ⟨s, List.find?_eq_some_iff_append.mpr ⟨?_, before, after, hsplit, ?_⟩, hrenamed⟩
  · rw [decide_eq_true_eq, mem_spellings_iff_drop (hnamed s hs)]
    exact Or.inr hform
  · intro other hother
    have hmem : other ∈ symbols := by
      rw [hsplit]
      exact List.mem_append_left _ hother
    simpa using (find?_renamed_eq_none_iff (hnamed other hmem) (hfresh other hmem)).mp
      (hnone other hother)

/-- The names after an expansion are the spellings before it. -/
theorem mem_content_expand_iff :
    form ∈ (expand symbols).map (·.content) ↔ ∃ s ∈ symbols, form ∈ s.spellings := by
  rw [expand_eq_append, List.map_append, List.mem_append]
  constructor
  · rintro (hname | hadded)
    · obtain ⟨s, hs, rfl⟩ := List.mem_map.mp hname
      exact ⟨s, hs, (mem_spellings_iff_drop (hnamed s hs)).mpr (Or.inl rfl)⟩
    · obtain ⟨a, ha, rfl⟩ := List.mem_map.mp hadded
      obtain ⟨s, hfirst, -⟩ := exists_first_of_mem_added hnamed ha
      exact ⟨s, List.mem_of_find?_eq_some hfirst, by simpa using List.find?_some hfirst⟩
  · rintro ⟨s, hs, hform⟩
    rcases (mem_spellings_iff_drop (hnamed s hs)).mp hform with rfl | hform
    · exact Or.inl (List.mem_map_of_mem hs)
    · have hrenamed : { s with content := form } ∈ symbols.flatMap renamed :=
        List.mem_flatMap.mpr ⟨s, hs, mem_renamed_iff.mpr ⟨hform, rfl⟩⟩
      exact content_mem_of_mem _ hrenamed

end Expand

/-- Expanding symbols, each of which has a name, keeps them in front as they are. What is added has
names of its own, each of them once, and is the first symbol with that spelling under this name. The
names of the whole are all spellings of the symbols. -/
theorem expand_supplements (symbols : List Symbol) (hnamed : ∀ s ∈ symbols, s.content ≠ []) :
    ∃ added, expand symbols = symbols ++ added ∧
      (added.map (·.content)).Nodup ∧
      (∀ a ∈ added, a.content ∉ symbols.map (·.content) ∧
        ∃ s, symbols.find? (a.content ∈ ·.spellings) = some s ∧
          a = { s with content := a.content }) ∧
      ∀ form, form ∈ (expand symbols).map (·.content) ↔ ∃ s ∈ symbols, form ∈ s.spellings := by
  refine ⟨added symbols, expand_eq_append symbols, nodup_newForms _ _, ?_, ?_⟩
  · intro a ha
    exact ⟨content_not_mem_of_mem_newForms ha, exists_first_of_mem_added hnamed ha⟩
  · intro form
    exact mem_content_expand_iff hnamed

/-- Methods of one receiver, and a symbol whose name is a spelling of the second one. -/
def startAndStop : List Symbol :=
  let receiver : Detail := ⟨"method.receiver", "(s *Server)".toList⟩
  [⟨"Start".toList, .method, default, [receiver], default⟩,
    ⟨"Stop".toList, .method, default, [receiver], default⟩,
    ⟨"Server.Stop".toList, .variableName, default, [], default⟩]

theorem expand_supplements_startAndStop :
    ((∀ s ∈ startAndStop, s.content ≠ []) ∧
      "(*Server).Stop".toList ∈ (expand startAndStop).map (·.content)) ∧
    ∃ added, expand startAndStop = startAndStop ++ added ∧
      (added.map (·.content)).Nodup ∧
      (∀ a ∈ added, a.content ∉ startAndStop.map (·.content) ∧
        ∃ s, startAndStop.find? (a.content ∈ ·.spellings) = some s ∧
          a = { s with content := a.content }) ∧
      ∀ form, form ∈ (expand startAndStop).map (·.content) ↔
        ∃ s ∈ startAndStop, form ∈ s.spellings := by
  have hnamed : ∀ s ∈ startAndStop, s.content ≠ [] := by decide +kernel
  exact ⟨⟨hnamed, by decide +kernel⟩, expand_supplements startAndStop hnamed⟩

end CodeAtlas.Symbol
