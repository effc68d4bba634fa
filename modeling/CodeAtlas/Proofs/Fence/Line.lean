import CodeAtlas.Fence.Segment
import CodeAtlas.Proofs.Text.Blank

/-!
# Fence lines

What a line that starts with a fence looks like, and which lines close a block.
-/

namespace CodeAtlas.FenceLine

/-- What reading a line as a fence promises: at least three of one of the two characters, and all of
them counted. -/
structure WellFormed (f : FenceLine) : Prop where
  marker : f.marker = '\x60' ∨ f.marker = '~'
  count : 3 ≤ f.count
  rest : f.rest.head? ≠ some f.marker

private theorem takeWhile_marker (m : Char) (t : Text) :
    t.takeWhile (· == m) = List.replicate (t.takeWhile (· == m)).length m := by
  apply List.eq_replicate_of_mem
  intro c hc
  have hall := List.all_takeWhile (p := fun x : Char => x == m) (l := t)
  simpa using List.all_eq_true.mp hall c hc

private theorem head_dropWhile_marker (m : Char) (t : Text) :
    (t.dropWhile (· == m)).head? ≠ some m := by
  intro h
  have hd := List.head?_dropWhile_not (· == m) t
  rw [h] at hd
  simp at hd

private theorem drop_takeWhile_length (m : Char) (t : Text) :
    t.drop (t.takeWhile (· == m)).length = t.dropWhile (· == m) := by
  have h := congrArg (List.drop (t.takeWhile (· == m)).length)
    (List.takeWhile_append_dropWhile (p := (· == m)) (l := t))
  rw [List.drop_left] at h
  exact h.symm

/-- A line that reads as a fence is an indent, the fence and the rest. -/
theorem of_ofLine? {line : Text} {f : FenceLine} (h : ofLine? line = some f) :
    f.WellFormed ∧ ∃ indent, indent.length ≤ 3 ∧ line = indent ++ (f.characters ++ f.rest) := by
  rw [ofLine?] at h
  cases hb : line.dropWhile (· == ' ') with
  | nil => simp [hb] at h
  | cons m cs =>
      simp only [hb] at h
      split at h
      · rename_i hcond
        obtain ⟨hindent, hmarker, hcount⟩ := hcond
        have hf := Option.some.inj h
        subst hf
        refine ⟨⟨hmarker, hcount, ?_⟩, line.takeWhile (· == ' '), ?_, ?_⟩
        · rw [drop_takeWhile_length]
          exact head_dropWhile_marker m (m :: cs)
        · have hlength := congrArg List.length
            (List.takeWhile_append_dropWhile (p := (· == ' ')) (l := line))
          rw [List.length_append, hb] at hlength
          omega
        · simp only [characters]
          rw [drop_takeWhile_length, ← takeWhile_marker, List.takeWhile_append_dropWhile, ← hb,
            List.takeWhile_append_dropWhile]
      · simp at h

private theorem takeWhile_characters {f : FenceLine} (hr : f.rest.head? ≠ some f.marker) :
    (f.characters ++ f.rest).takeWhile (· == f.marker) = f.characters := by
  have hrest : f.rest.takeWhile (· == f.marker) = [] := by
    cases hf : f.rest with
    | nil => rfl
    | cons c cs =>
        rw [hf] at hr
        simp only [List.head?_cons, ne_eq, Option.some.injEq] at hr
        simp [hr]
  rw [List.takeWhile_append_of_pos, hrest, List.append_nil]
  intro c hc
  simp only [characters, List.mem_replicate] at hc
  simp [hc.2]

/-- A fence at the start of a line reads back. -/
theorem ofLine?_characters {f : FenceLine} (hf : f.WellFormed) :
    ofLine? (f.characters ++ f.rest) = some f := by
  obtain ⟨m, n, rest⟩ := f
  obtain ⟨k, hk⟩ : ∃ k, n = k + 1 := ⟨n - 1, by have := hf.count; simp at this; omega⟩
  have hspace : m ≠ ' ' := by
    intro h
    have hm := hf.marker
    simp only [h] at hm
    revert hm
    decide
  have hdrop : (characters ⟨m, n, rest⟩ ++ rest).dropWhile (· == ' ') =
      characters ⟨m, n, rest⟩ ++ rest := by
    simp [characters, hk, List.replicate_succ, hspace]
  have htake := takeWhile_characters hf.rest
  have hlen : (characters ⟨m, n, rest⟩).length = n := by simp [characters]
  have hcons : characters ⟨m, n, rest⟩ ++ rest = m :: (List.replicate k m ++ rest) := by
    simp [characters, hk, List.replicate_succ]
  rw [ofLine?, hdrop]
  simp only [hcons]
  simp only [← hcons]
  simp only at htake
  rw [htake, hlen, if_pos ⟨by simp, hf.marker, hf.count⟩]
  rw [show (characters ⟨m, n, rest⟩ ++ rest).drop n = rest from
    (congrArg (fun k => (characters ⟨m, n, rest⟩ ++ rest).drop k) hlen.symm).trans List.drop_left]

theorem canOpen_iff {f : FenceLine} :
    f.canOpen = true ↔ (f.marker = '\x60' → '\x60' ∉ f.rest) := by
  by_cases hm : f.marker = '\x60' <;> simp [canOpen, hm]

theorem closedBy_iff {f : FenceLine} {line : Text} :
    f.closedBy line = true ↔
      ∃ g, ofLine? line = some g ∧ g.marker = f.marker ∧ f.count ≤ g.count ∧
        Text.isBlank g.rest = true := by
  rw [closedBy]
  cases ofLine? line with
  | none => simp
  | some g => simp [and_assoc]

theorem closedBy_characters {f : FenceLine} (hf : f.WellFormed) {g : FenceLine} :
    g.closedBy f.characters = true ↔ g.marker = f.marker ∧ g.count ≤ f.count := by
  have hbare : WellFormed ⟨f.marker, f.count, []⟩ := ⟨hf.marker, hf.count, by simp⟩
  have hread := ofLine?_characters hbare
  rw [List.append_nil] at hread
  rw [closedBy_iff, show f.characters = characters ⟨f.marker, f.count, []⟩ from rfl, hread]
  constructor
  · rintro ⟨k, hk, hm, hc, -⟩
    rw [← Option.some.inj hk] at hm hc
    exact ⟨hm.symm, hc⟩
  · rintro ⟨hm, hc⟩
    exact ⟨_, rfl, hm.symm, hc, rfl⟩

theorem closedBy_eq_false_of_ofLine? {line : Text} (h : ofLine? line = none) (f : FenceLine) :
    f.closedBy line = false := by
  simp [closedBy, h]

theorem closedBy_of_le {f g : FenceLine} {line : Text} (hm : g.marker = f.marker)
    (hc : g.count ≤ f.count) (h : f.closedBy line = true) : g.closedBy line = true := by
  obtain ⟨k, hk, hkm, hkc, hblank⟩ := closedBy_iff.mp h
  exact closedBy_iff.mpr ⟨k, hk, hkm.trans hm.symm, Nat.le_trans hc hkc, hblank⟩

end CodeAtlas.FenceLine
