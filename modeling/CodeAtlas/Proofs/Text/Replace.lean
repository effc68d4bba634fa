import CodeAtlas.Proofs.Text.Blank
import CodeAtlas.Proofs.Text.Search
import Mathlib.Data.List.Find

/-!
# Replacing several texts at once

Replacement in one pass reads each character of a text once, so what is put in is not looked at
again. A character that occurs in none of the texts looked for splits the work in two.
-/

namespace CodeAtlas.Text

/-- Replace every occurrence of a first text of a pair by the second one, after the first `skip`
characters, which are dropped. Of two texts that occur at one place the earlier pair counts. -/
def replaceEachFrom (pairs : List (Text × Text)) : Nat → Text → Text
  | _, [] => []
  | skip + 1, _ :: cs => replaceEachFrom pairs skip cs
  | 0, c :: cs =>
      match pairs.find? fun pair => pair.1.isPrefixOf (c :: cs) with
      | some pair => pair.2 ++ replaceEachFrom pairs (pair.1.length - 1) cs
      | none => c :: replaceEachFrom pairs 0 cs

/-- Replace several texts in one pass from the left. -/
def replaceEach (pairs : List (Text × Text)) (t : Text) : Text := replaceEachFrom pairs 0 t

section Occurs

variable {p t : Text} {c : Char}

private theorem occursIn_cons (p : Text) (c : Char) (cs : Text) :
    occursIn p (c :: cs) = (p.isPrefixOf (c :: cs) || occursIn p cs) := by
  rw [occursIn, splitOnceText]
  split
  · next hstart => simp [hstart]
  · next hstart => simp [hstart, occursIn]

private theorem prefix_append_cons_iff (hc : c ∉ p) (s t : Text) : p <+: s ++ c :: t ↔ p <+: s := by
  constructor
  · intro h
    apply List.prefix_of_prefix_length_le h (List.prefix_append s (c :: t))
    -- A longer beginning would reach over the character.
    apply Nat.le_of_not_lt
    intro hlong
    apply hc
    obtain ⟨rest, hrest⟩ := h
    have hat : p[s.length]? = some c := by
      have hwhole := congrArg (·[s.length]?) hrest
      simpa [List.getElem?_append_left hlong] using hwhole
    exact List.mem_of_getElem? hat
  · intro h
    exact h.trans (List.prefix_append s (c :: t))

end Occurs

section Each

variable {pairs : List (Text × Text)} {c : Char}

private theorem replaceEachFrom_eq_drop (skip : Nat) (t : Text) :
    replaceEachFrom pairs skip t = replaceEach pairs (t.drop skip) := by
  induction skip generalizing t with
  | zero => rfl
  | succ skip ih =>
    cases t with
    | nil => rfl
    | cons c cs => rw [replaceEachFrom, ih, List.drop_succ_cons]

theorem replaceAll_eq_replaceEach (p new t : Text) :
    replaceAll p new t = replaceEach [(p, new)] t := by
  suffices h : ∀ skip, replaceFrom p new skip t = replaceEachFrom [(p, new)] skip t from h 0
  induction t with
  | nil => simp [replaceFrom, replaceEachFrom]
  | cons c cs ih =>
    intro skip
    cases skip with
    | zero =>
      rw [replaceFrom, replaceEachFrom, ih, ih]
      by_cases hstart : p.isPrefixOf (c :: cs) = true
      · simp [hstart]
      · simp [hstart]
    | succ skip => exact ih skip

private theorem replaceEach_cons {cs : Text}
    (h : pairs.find? (fun pair => pair.1.isPrefixOf (c :: cs)) = none) :
    replaceEach pairs (c :: cs) = c :: replaceEach pairs cs := by
  rw [replaceEach, replaceEachFrom, h]
  rfl

theorem replaceEach_eq_self {t : Text} (h : ∀ pair ∈ pairs, occursIn pair.1 t = false) :
    replaceEach pairs t = t := by
  induction t with
  | nil => rfl
  | cons c cs ih =>
    simp only [occursIn_cons, Bool.or_eq_false_iff] at h
    have hnone : pairs.find? (fun pair => pair.1.isPrefixOf (c :: cs)) = none := by
      rw [List.find?_eq_none]
      intro pair hpair
      simp [(h pair hpair).1]
    rw [replaceEach_cons hnone, ih fun pair hpair => (h pair hpair).2]

theorem replaceEach_of_find? {p new : Text} (hp : p ≠ [])
    (h : pairs.find? (fun pair => pair.1.isPrefixOf p) = some (p, new)) :
    replaceEach pairs p = new := by
  obtain ⟨c, cs, rfl⟩ := List.exists_cons_of_ne_nil hp
  have hrest : replaceEachFrom pairs cs.length cs = [] := by
    rw [replaceEachFrom_eq_drop, List.drop_length]
    rfl
  rw [replaceEach, replaceEachFrom, h]
  simp [hrest]

section Split

variable (hpairs : ∀ pair ∈ pairs, pair.1 ≠ [] ∧ c ∉ pair.1)
include hpairs

private theorem replaceEachFrom_append_cons {s : Text} {skip : Nat} (hskip : skip ≤ s.length)
    (t : Text) :
    replaceEachFrom pairs skip (s ++ c :: t) =
      replaceEachFrom pairs skip s ++ c :: replaceEach pairs t := by
  induction s generalizing skip with
  | nil =>
    have hnone : pairs.find? (fun pair => pair.1.isPrefixOf (c :: t)) = none := by
      rw [List.find?_eq_none]
      intro pair hpair
      rw [List.isPrefixOf_iff_prefix, List.prefix_cons_iff]
      rintro (hnil | ⟨rest, hrest, -⟩)
      · exact (hpairs pair hpair).1 hnil
      · exact (hpairs pair hpair).2 (by simp [hrest])
    obtain rfl : skip = 0 := by simpa using hskip
    exact replaceEach_cons hnone
  | cons d ds ih =>
    cases skip with
    | succ skip => exact ih (by simpa using hskip)
    | zero =>
      have hsame : pairs.find? (fun pair => pair.1.isPrefixOf (d :: (ds ++ c :: t))) =
          pairs.find? (fun pair => pair.1.isPrefixOf (d :: ds)) := by
        apply List.find?_congr
        intro pair hpair
        rw [Bool.eq_iff_iff, List.isPrefixOf_iff_prefix, List.isPrefixOf_iff_prefix]
        exact prefix_append_cons_iff (hpairs pair hpair).2 (d :: ds) t
      rw [List.cons_append, replaceEachFrom, replaceEachFrom, hsame]
      cases hfind : pairs.find? (fun pair => pair.1.isPrefixOf (d :: ds)) with
      | none => simp [ih (Nat.zero_le _)]
      | some pair =>
        have hlength : pair.1.length ≤ (d :: ds).length := by
          apply List.IsPrefix.length_le
          simpa using List.find?_some hfind
        rw [List.length_cons] at hlength
        simp [ih (show pair.1.length - 1 ≤ ds.length by omega)]

/-- Replacement goes separately over the two sides of a character that is looked for nowhere. -/
theorem replaceEach_append_cons (s t : Text) :
    replaceEach pairs (s ++ c :: t) = replaceEach pairs s ++ c :: replaceEach pairs t :=
  replaceEachFrom_append_cons hpairs (Nat.zero_le _) t

end Split

end Each

section All

variable {p new : Text} (hp : p ≠ [])
include hp

/-- A property of texts that is passed on over an occurrence and over any other character holds of
every text. -/
theorem replaceAll_induction {motive : Text → Prop} (nil : motive [])
    (found : ∀ t, motive t → motive (p ++ t))
    (other : ∀ c cs, ¬p <+: c :: cs → motive cs → motive (c :: cs)) (t : Text) : motive t := by
  induction hlength : t.length using Nat.strongRecOn generalizing t with
  | ind n ih =>
    by_cases hfound : p <+: t
    · obtain ⟨rest, rfl⟩ := hfound
      have hpositive := List.length_pos_iff.mpr hp
      rw [List.length_append] at hlength
      exact found rest (ih rest.length (by omega) rest rfl)
    · cases t with
      | nil => exact nil
      | cons c cs =>
        rw [List.length_cons] at hlength
        exact other c cs hfound (ih cs.length (by omega) cs rfl)

theorem mem_replaceAll_or {c : Char} (hc : c ∉ p) (t : Text) :
    c ∈ replaceAll p new t ∨ c ∈ new ↔ c ∈ t ∨ c ∈ new := by
  induction t using replaceAll_induction hp with
  | nil => rfl
  | found t ih =>
    rw [replaceAll_append hp, List.mem_append, List.mem_append, or_iff_right hc, ← ih,
      or_right_comm, or_self, or_comm]
  | other d cs hother ih =>
    rw [replaceAll_cons hother, List.mem_cons, List.mem_cons, or_assoc, or_assoc, ih]

private theorem replaceAll_self (t : Text) : replaceAll p p t = t := by
  induction t using replaceAll_induction hp with
  | nil => rfl
  | found t ih => rw [replaceAll_append hp, ih]
  | other c cs hother ih => rw [replaceAll_cons hother, ih]

private theorem length_replaceAll_le (h : new.length ≤ p.length) (t : Text) :
    (replaceAll p new t).length ≤ t.length := by
  induction t using replaceAll_induction hp with
  | nil => exact Nat.le_refl 0
  | found t ih =>
    rw [replaceAll_append hp, List.length_append, List.length_append]
    omega
  | other c cs hother ih =>
    rw [replaceAll_cons hother, List.length_cons, List.length_cons]
    omega

private theorem le_length_replaceAll (h : p.length ≤ new.length) (t : Text) :
    t.length ≤ (replaceAll p new t).length := by
  induction t using replaceAll_induction hp with
  | nil => exact Nat.le_refl 0
  | found t ih =>
    rw [replaceAll_append hp, List.length_append, List.length_append]
    omega
  | other c cs hother ih =>
    rw [replaceAll_cons hother, List.length_cons, List.length_cons]
    omega

/-- Replacement leaves a text as it is exactly if nothing is found or each find is put back. -/
theorem replaceAll_eq_self_iff (t : Text) :
    replaceAll p new t = t ↔ occursIn p t = false ∨ new = p := by
  cases hsplit : splitOnceText p t with
  | none => simp [occursIn, hsplit, replaceAll_of_splitOnceText_none hsplit]
  | some parts =>
    obtain ⟨before, after⟩ := parts
    have hoccurs : occursIn p t = true := by simp [occursIn, hsplit]
    simp only [hoccurs, Bool.true_eq_false, false_or]
    constructor
    · intro h
      rw [replaceAll_of_splitOnceText hp hsplit] at h
      conv at h => rhs; rw [eq_append_of_splitOnceText hsplit]
      rw [List.append_assoc, List.append_assoc, List.append_cancel_left_eq] at h
      have hlength := congrArg List.length h
      rw [List.length_append, List.length_append] at hlength
      -- What is put in is as long as what is taken out, since the rest does not make up for it.
      have hsame : new.length = p.length := by
        rcases Nat.le_total new.length p.length with hle | hle
        · have := length_replaceAll_le hp hle after
          omega
        · have := le_length_replaceAll hp hle after
          omega
      exact (List.append_inj h hsame).1
    · rintro rfl
      exact replaceAll_self hp t

end All

end CodeAtlas.Text
