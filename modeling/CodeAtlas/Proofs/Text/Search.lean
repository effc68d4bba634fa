import CodeAtlas.Text.Basic

/-!
# Searching a text

What the search functions find is where they say it is, and replacement changes just what is found.
-/

namespace CodeAtlas.Text

theorem eq_append_of_splitOnceText {p t before after : Text}
    (h : splitOnceText p t = some (before, after)) : t = before ++ p ++ after := by
  induction t generalizing before after with
  | nil =>
      rw [splitOnceText] at h
      split at h
      · next hp =>
          simp only [Option.some.injEq, Prod.mk.injEq, List.nil_eq] at h
          simp [List.isEmpty_iff.mp hp, h]
      · cases h
  | cons c cs ih =>
      rw [splitOnceText] at h
      split at h
      · next hp =>
          simp only [Option.some.injEq, Prod.mk.injEq, List.nil_eq] at h
          rw [← h.2, h.1, List.nil_append]
          exact List.prefix_iff_eq_append.mp (List.isPrefixOf_iff_prefix.mp hp) |>.symm
      · obtain ⟨⟨before', after'⟩, hcs, hpair⟩ := Option.map_eq_some_iff.mp h
        simp only [Prod.mk.injEq] at hpair
        rw [← hpair.1, ← hpair.2, ih hcs]
        simp

theorem not_prefix_drop_of_splitOnceText {p t before after : Text}
    (h : splitOnceText p t = some (before, after)) {i : Nat} (hi : i < before.length) :
    ¬p <+: t.drop i := by
  induction t generalizing before after i with
  | nil =>
      rw [splitOnceText] at h
      split at h
      · cases h
        simp at hi
      · cases h
  | cons c cs ih =>
      rw [splitOnceText] at h
      split at h
      · cases h
        simp at hi
      · next hp =>
          obtain ⟨⟨before', after'⟩, hcs, hpair⟩ := Option.map_eq_some_iff.mp h
          cases hpair
          cases i with
          | zero => simpa using hp
          | succ i => exact ih hcs (by simpa using hi)

theorem not_prefix_drop_of_splitOnceText_none {p t : Text} (h : splitOnceText p t = none)
    (i : Nat) : ¬p <+: t.drop i := by
  induction t generalizing i with
  | nil =>
      rw [splitOnceText] at h
      split at h
      · cases h
      · next hp => simpa using hp
  | cons c cs ih =>
      rw [splitOnceText] at h
      split at h
      · cases h
      · next hp =>
          have hcs := Option.map_eq_none_iff.mp h
          cases i with
          | zero => simpa using hp
          | succ i => simpa using ih hcs i

section Replace

variable {p new t before after : Text}

private theorem replaceFrom_eq_drop (skip : Nat) (t : Text) :
    replaceFrom p new skip t = replaceAll p new (t.drop skip) := by
  induction skip generalizing t with
  | zero => rfl
  | succ skip ih =>
      cases t with
      | nil => rfl
      | cons c cs => rw [replaceFrom, ih, List.drop_succ_cons]

theorem replaceAll_cons {c : Char} {cs : Text} (h : ¬p <+: c :: cs) :
    replaceAll p new (c :: cs) = c :: replaceAll p new cs := by
  rw [replaceAll, replaceFrom, if_neg (by rwa [List.isPrefixOf_iff_prefix])]
  rfl

theorem replaceAll_append (hp : p ≠ []) (t : Text) :
    replaceAll p new (p ++ t) = new ++ replaceAll p new t := by
  obtain ⟨c, cs, rfl⟩ := List.exists_cons_of_ne_nil hp
  have hprefix : (c :: cs).isPrefixOf (c :: (cs ++ t)) = true :=
    List.isPrefixOf_iff_prefix.mpr (List.prefix_append (c :: cs) t)
  rw [replaceAll, List.cons_append, replaceFrom, if_pos hprefix, replaceFrom_eq_drop]
  simp

theorem replaceAll_of_splitOnceText_none (h : splitOnceText p t = none) :
    replaceAll p new t = t := by
  induction t with
  | nil => rfl
  | cons c cs ih =>
      rw [splitOnceText] at h
      split at h
      · cases h
      · next hp =>
          rw [replaceAll_cons (by simpa using hp), ih (Option.map_eq_none_iff.mp h)]

theorem replaceAll_of_splitOnceText (hp : p ≠ []) (h : splitOnceText p t = some (before, after)) :
    replaceAll p new t = before ++ new ++ replaceAll p new after := by
  induction t generalizing before with
  | nil =>
      rw [splitOnceText, if_neg (by simpa using hp)] at h
      cases h
  | cons c cs ih =>
      have hsplit := eq_append_of_splitOnceText h
      rw [splitOnceText] at h
      split at h
      · simp only [Option.some.injEq, Prod.mk.injEq] at h
        rw [hsplit, ← h.1]
        exact replaceAll_append hp after
      · next hprefix =>
          obtain ⟨⟨before', after'⟩, hcs, hpair⟩ := Option.map_eq_some_iff.mp h
          simp only [Prod.mk.injEq] at hpair
          obtain ⟨rfl, rfl⟩ := hpair
          rw [replaceAll_cons (by simpa using hprefix), ih hcs]
          simp

end Replace

theorem eq_append_of_splitOnce {c : Char} {t before after : Text}
    (h : splitOnce c t = some (before, after)) : t = before ++ c :: after := by
  rw [splitOnce] at h
  split at h
  · cases h
  · next first rest hdrop =>
      cases h
      -- The rest begins where the characters other than `c` end.
      have hfirst : ¬(first != c) = true := by
        have hhead := List.head_dropWhile_not (· != c) (l := t) (by simp [hdrop])
        simpa [hdrop] using hhead
      obtain rfl : first = c := by simpa using hfirst
      rw [← hdrop, List.takeWhile_append_dropWhile]

theorem splitOnce_eq_none_iff {c : Char} {t : Text} : splitOnce c t = none ↔ c ∉ t := by
  induction t with
  | nil => simp [splitOnce]
  | cons x t ih =>
      by_cases hx : x = c
      · simp [splitOnce, hx]
      · have hcut : (x :: t).dropWhile (· != c) = t.dropWhile (· != c) := by simp [hx]
        rw [List.mem_cons, not_or, ← ih, splitOnce, splitOnce, hcut]
        cases t.dropWhile (· != c) <;> simp [Ne.symm hx]

end CodeAtlas.Text
