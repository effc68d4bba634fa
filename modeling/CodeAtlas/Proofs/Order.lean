import CodeAtlas.Order
import Mathlib.Data.List.Sort

/-!
# Sorted lists

The stable sort is the insertion sort of the library, so what holds of the one holds of the other.
-/

namespace CodeAtlas

variable {α : Type} {le : α → α → Bool}

private theorem insertBy_eq_orderedInsert (a : α) (as : List α) :
    insertBy le a as = as.orderedInsert (fun x y => le x y = true) a := by
  induction as with
  | nil => rfl
  | cons b bs ih => rw [insertBy, List.orderedInsert_cons, ih]

private theorem sortBy_eq_insertionSort (as : List α) :
    sortBy le as = as.insertionSort (fun x y => le x y = true) := by
  induction as with
  | nil => rfl
  | cons a as ih => rw [sortBy, List.insertionSort_cons, ih, insertBy_eq_orderedInsert]

theorem sortBy_perm (le : α → α → Bool) (as : List α) : (sortBy le as).Perm as := by
  rw [sortBy_eq_insertionSort]
  exact List.perm_insertionSort _ as

theorem pairwise_sortBy (total : ∀ a b, le a b = true ∨ le b a = true)
    (trans : ∀ a b c, le a b = true → le b c = true → le a c = true) (as : List α) :
    (sortBy le as).Pairwise (fun a b => le a b = true) := by
  have : Std.Total (fun x y => le x y = true) := ⟨total⟩
  have : IsTrans α (fun x y => le x y = true) := ⟨trans⟩
  rw [sortBy_eq_insertionSort]
  exact List.pairwise_insertionSort _ as

private theorem pairwise_insertBy {R : α → α → Prop} (hle : ∀ a b, R a b → le a b = true)
    (trans : ∀ a b c, le a b = true → le b c = true → le a c = true) {a : α} {as : List α}
    (has : as.Pairwise R) (hbefore : ∀ b ∈ as, le a b = true → R a b)
    (hafter : ∀ b ∈ as, ¬le a b = true → R b a) : (insertBy le a as).Pairwise R := by
  induction as with
  | nil => exact List.pairwise_singleton R a
  | cons b bs ih =>
      have hbs := List.pairwise_cons.mp has
      by_cases hab : le a b = true
      · rw [insertBy, if_pos hab]
        refine List.pairwise_cons.mpr ⟨?_, has⟩
        intro c hc
        apply hbefore c hc
        rcases List.mem_cons.mp hc with rfl | hc
        · exact hab
        · exact trans a b c hab (hle b c (hbs.1 c hc))
      · rw [insertBy, if_neg hab]
        refine List.pairwise_cons.mpr ⟨?_, ?_⟩
        · intro c hc
          rw [insertBy_eq_orderedInsert, List.mem_orderedInsert] at hc
          rcases hc with rfl | hc
          · exact hafter b List.mem_cons_self hab
          · exact hbs.1 c hc
        · exact ih hbs.2 (fun c hc => hbefore c (List.mem_cons_of_mem _ hc))
            (fun c hc => hafter c (List.mem_cons_of_mem _ hc))

/-- The sort is stable: elements that the order does not tell apart stand as they stood before. -/
theorem pairwise_sortBy_stable (total : ∀ a b, le a b = true ∨ le b a = true)
    (trans : ∀ a b c, le a b = true → le b c = true → le a c = true) {R : α → α → Prop}
    {as : List α} (has : as.Pairwise R) :
    (sortBy le as).Pairwise (fun a b => le a b = true ∧ (le b a = true → R a b)) := by
  induction as with
  | nil => exact .nil
  | cons a as ih =>
      have hsplit := List.pairwise_cons.mp has
      rw [sortBy]
      apply pairwise_insertBy (fun _ _ h => h.1) trans (ih hsplit.2)
      · intro b hb hab
        exact ⟨hab, fun _ => hsplit.1 b ((sortBy_perm le as).mem_iff.mp hb)⟩
      · intro b _ hab
        exact ⟨(total a b).resolve_left hab, fun h => absurd h hab⟩

theorem sortBy_of_pairwise {as : List α} (h : as.Pairwise (fun a b => le a b = true)) :
    sortBy le as = as := by
  rw [sortBy_eq_insertionSort]
  exact h.insertionSort_eq

private theorem insertBy_of_forall {a : α} {as : List α} (h : ∀ b ∈ as, le a b = true) :
    insertBy le a as = a :: as := by
  cases as with
  | nil => rfl
  | cons b bs => rw [insertBy, if_pos (h b List.mem_cons_self)]

private theorem filter_insertBy (trans : ∀ a b c, le a b = true → le b c = true → le a c = true)
    (p : α → Bool) (a : α) {as : List α} (has : as.Pairwise (fun a b => le a b = true)) :
    (insertBy le a as).filter p =
      if p a then insertBy le a (as.filter p) else as.filter p := by
  induction as with
  | nil => by_cases ha : p a = true <;> simp [insertBy, ha]
  | cons b bs ih =>
      obtain ⟨hb, hbs⟩ := List.pairwise_cons.mp has
      by_cases hab : le a b = true
      · have hall : ∀ c ∈ (b :: bs).filter p, le a c = true := by
          intro c hc
          rcases List.mem_cons.mp (List.mem_filter.mp hc).1 with rfl | hc
          · exact hab
          · exact trans a b c hab (hb c hc)
        rw [insertBy, if_pos hab, List.filter_cons, insertBy_of_forall hall]
      · have hstep := ih hbs
        by_cases hpb : p b = true
        · rw [insertBy, if_neg hab, List.filter_cons_of_pos hpb, hstep, List.filter_cons_of_pos hpb,
            insertBy, if_neg hab]
          split <;> rfl
        · rw [insertBy, if_neg hab, List.filter_cons_of_neg hpb, hstep,
            List.filter_cons_of_neg hpb]

theorem filter_sortBy (total : ∀ a b, le a b = true ∨ le b a = true)
    (trans : ∀ a b c, le a b = true → le b c = true → le a c = true) (p : α → Bool) (as : List α) :
    (sortBy le as).filter p = sortBy le (as.filter p) := by
  induction as with
  | nil => rfl
  | cons a as ih =>
      rw [sortBy, filter_insertBy trans p a (pairwise_sortBy total trans as), ih]
      by_cases ha : p a = true
      · rw [if_pos ha, List.filter_cons_of_pos ha, sortBy]
      · rw [if_neg ha, List.filter_cons_of_neg ha]

section Repeats

variable {same : α → α → Bool} {a last : α} {as : List α}

private theorem mem_dropRepeats (last : α) (h : a ∈ as) :
    a ∈ dropRepeats same last as ∨ same last a = true ∨
      ∃ b ∈ dropRepeats same last as, same b a = true := by
  induction as generalizing last with
  | nil => cases h
  | cons b as ih =>
      rw [dropRepeats]
      split
      · next hsame =>
          rcases List.mem_cons.mp h with rfl | h
          · exact Or.inr (Or.inl hsame)
          · exact ih last h
      · rcases List.mem_cons.mp h with rfl | h
        · exact Or.inl List.mem_cons_self
        · rcases ih b h with h | h | ⟨c, hc, h⟩
          · exact Or.inl (List.mem_cons_of_mem _ h)
          · exact Or.inr (Or.inr ⟨b, List.mem_cons_self, h⟩)
          · exact Or.inr (Or.inr ⟨c, List.mem_cons_of_mem _ hc, h⟩)

theorem exists_mem_dedupRuns (h : a ∈ as) : ∃ b ∈ dedupRuns same as, b = a ∨ same b a = true := by
  cases as with
  | nil => cases h
  | cons c as =>
      rw [dedupRuns]
      rcases List.mem_cons.mp h with rfl | h
      · exact ⟨a, List.mem_cons_self, Or.inl rfl⟩
      · rcases mem_dropRepeats c h with h | h | ⟨b, hb, h⟩
        · exact ⟨a, List.mem_cons_of_mem _ h, Or.inl rfl⟩
        · exact ⟨c, List.mem_cons_self, Or.inr h⟩
        · exact ⟨b, List.mem_cons_of_mem _ hb, Or.inr h⟩

private theorem mem_of_mem_dropRepeats (h : a ∈ dropRepeats same last as) : a ∈ as := by
  induction as generalizing last with
  | nil => cases h
  | cons b as ih =>
      rw [dropRepeats] at h
      split at h
      · exact List.mem_cons_of_mem _ (ih h)
      · rcases List.mem_cons.mp h with rfl | h
        · exact List.mem_cons_self
        · exact List.mem_cons_of_mem _ (ih h)

theorem mem_of_mem_dedupRuns (h : a ∈ dedupRuns same as) : a ∈ as := by
  cases as with
  | nil => cases h
  | cons c as =>
      rcases List.mem_cons.mp h with rfl | h
      · exact List.mem_cons_self
      · exact List.mem_cons_of_mem _ (mem_of_mem_dropRepeats h)

theorem eraseDupsBy_sublist (same : α → α → Bool) (as : List α) :
    (as.eraseDupsBy same).Sublist as := by
  generalize hn : as.length = n
  induction n using Nat.strongRecOn generalizing as with
  | ind n ih =>
      cases as with
      | nil => exact .slnil
      | cons b as =>
          rw [List.eraseDupsBy_cons]
          have hshorter : (as.filter fun x => same x b = false).length < n := by
            rw [← hn, List.length_cons]
            exact Nat.lt_succ_of_le (List.length_filter_le _ as)
          exact ((ih _ hshorter _ rfl).trans List.filter_sublist).cons_cons b

theorem mem_of_mem_eraseDupsBy (h : a ∈ as.eraseDupsBy same) : a ∈ as :=
  (eraseDupsBy_sublist same as).mem h

theorem pairwise_eraseDupsBy (same : α → α → Bool) (as : List α) :
    (as.eraseDupsBy same).Pairwise (fun a b => same b a = false) := by
  generalize hn : as.length = n
  induction n using Nat.strongRecOn generalizing as with
  | ind n ih =>
      cases as with
      | nil => exact .nil
      | cons b as =>
          rw [List.eraseDupsBy_cons]
          have hshorter : (as.filter fun x => same x b = false).length < n := by
            rw [← hn, List.length_cons]
            exact Nat.lt_succ_of_le (List.length_filter_le _ as)
          refine List.pairwise_cons.mpr ⟨?_, ih _ hshorter _ rfl⟩
          intro c hc
          simpa using (List.mem_filter.mp (mem_of_mem_eraseDupsBy hc)).2

theorem exists_mem_eraseDupsBy {same : α → α → Bool} (hrefl : ∀ a, same a a = true) {a : α}
    {as : List α} (h : a ∈ as) : ∃ b ∈ as.eraseDupsBy same, same a b = true := by
  generalize hn : as.length = n
  induction n using Nat.strongRecOn generalizing as with
  | ind n ih =>
      cases as with
      | nil => cases h
      | cons b as =>
          rw [List.eraseDupsBy_cons]
          cases hsame : same a b with
          | true => exact ⟨b, List.mem_cons_self, hsame⟩
          | false =>
              have hmem : a ∈ as.filter fun x => same x b = false := by
                rcases List.mem_cons.mp h with rfl | h
                · rw [hrefl] at hsame
                  cases hsame
                · exact List.mem_filter.mpr ⟨h, by simp [hsame]⟩
              have hshorter : (as.filter fun x => same x b = false).length < n := by
                rw [← hn, List.length_cons]
                exact Nat.lt_succ_of_le (List.length_filter_le _ as)
              obtain ⟨x, hx, hax⟩ := ih _ hshorter hmem rfl
              exact ⟨x, List.mem_cons_of_mem _ hx, hax⟩

end Repeats

section Best

variable {same better : α → α → Bool} {a : α} {as : List α}

private theorem mem_of_mem_putBest {x : α} {kept : List α} (h : x ∈ putBest same better a kept) :
    x = a ∨ x ∈ kept := by
  induction kept with
  | nil => exact Or.inl (List.mem_singleton.mp h)
  | cons b kept ih =>
      rw [putBest] at h
      split at h
      · rcases List.mem_cons.mp h with rfl | h
        · split
          · exact Or.inl rfl
          · exact Or.inr List.mem_cons_self
        · exact Or.inr (List.mem_cons_of_mem _ h)
      · rcases List.mem_cons.mp h with rfl | h
        · exact Or.inr List.mem_cons_self
        · exact (ih h).imp_right (List.mem_cons_of_mem _)

private theorem mem_of_mem_foldl_putBest {kept : List α}
    (h : a ∈ as.foldl (fun kept a => putBest same better a kept) kept) : a ∈ kept ∨ a ∈ as := by
  induction as generalizing kept with
  | nil => exact Or.inl h
  | cons b as ih =>
      rcases ih h with h | h
      · rcases mem_of_mem_putBest h with rfl | h
        · exact Or.inr List.mem_cons_self
        · exact Or.inl h
      · exact Or.inr (List.mem_cons_of_mem _ h)

theorem mem_of_mem_keepBest (h : a ∈ keepBest same better as) : a ∈ as :=
  (mem_of_mem_foldl_putBest h).resolve_left List.not_mem_nil

section Keys

variable (hrefl : ∀ a, same a a = true) (heuc : ∀ a b c, same a b = true → same c b = true →
  same a c = true)
include hrefl

private theorem exists_mem_putBest_self (kept : List α) :
    ∃ b ∈ putBest same better a kept, same a b = true := by
  induction kept with
  | nil => exact ⟨a, List.mem_singleton_self a, hrefl a⟩
  | cons b kept ih =>
      rw [putBest]
      split
      · next hsame =>
        refine ⟨_, List.mem_cons_self, ?_⟩
        split
        · exact hrefl a
        · exact hsame
      · obtain ⟨x, hx, hax⟩ := ih
        exact ⟨x, List.mem_cons_of_mem _ hx, hax⟩

include heuc

omit hrefl in
private theorem exists_mem_putBest {kept : List α} (b : α) (h : ∃ x ∈ kept, same a x = true) :
    ∃ x ∈ putBest same better b kept, same a x = true := by
  obtain ⟨x, hx, hax⟩ := h
  induction kept with
  | nil => cases hx
  | cons y kept ih =>
      rw [putBest]
      rcases List.mem_cons.mp hx with rfl | hx
      · split
        · next hsame =>
          refine ⟨_, List.mem_cons_self, ?_⟩
          split
          · exact heuc a x b hax hsame
          · exact hax
        · exact ⟨x, List.mem_cons_self, hax⟩
      · split
        · exact ⟨x, List.mem_cons_of_mem _ hx, hax⟩
        · obtain ⟨z, hz, haz⟩ := ih hx
          exact ⟨z, List.mem_cons_of_mem _ hz, haz⟩

private theorem exists_mem_foldl_putBest {kept : List α}
    (h : (∃ x ∈ kept, same a x = true) ∨ a ∈ as) :
    ∃ x ∈ as.foldl (fun kept a => putBest same better a kept) kept, same a x = true := by
  induction as generalizing kept with
  | nil => exact h.resolve_right List.not_mem_nil
  | cons b as ih =>
      apply ih
      rcases h with h | h
      · exact Or.inl (exists_mem_putBest heuc b h)
      · rcases List.mem_cons.mp h with rfl | h
        · exact Or.inl (exists_mem_putBest_self hrefl kept)
        · exact Or.inr h

/-- Some element with the key of each one is kept. -/
theorem exists_mem_keepBest (h : a ∈ as) : ∃ b ∈ keepBest same better as, same a b = true :=
  exists_mem_foldl_putBest hrefl heuc (Or.inr h)

end Keys

end Best

end CodeAtlas
