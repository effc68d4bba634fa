import CodeAtlas.Proofs.Syntax.Tree

/-!
# Characters by offset

A property of offsets picks characters of a text. What it picks can be cut at any offset, and two
offsets that stand between characters pick the text between them.
-/

namespace CodeAtlas

namespace Text

open Utf8 (size size_append)

/-- The characters of a text at the offsets with a property; the first character stands at `k`. -/
def pick (p : Nat → Bool) (k : Nat) : Text → Text
  | [] => []
  | c :: cs => if p k then c :: pick p (k + size [c]) cs else pick p (k + size [c]) cs

theorem size_cons (c : Char) (cs : Text) : size (c :: cs) = size [c] + size cs :=
  size_append [c] cs

private theorem size_singleton_pos (c : Char) : 0 < size [c] := by
  have hlength : size [c] = c.utf8Size := by simp [size, Utf8.encode]
  rw [hlength]
  exact c.utf8Size_pos

theorem length_le_size (t : Text) : t.length ≤ size t := by
  induction t with
  | nil => exact Nat.le_refl 0
  | cons c cs ih =>
    have hpos := size_singleton_pos c
    rw [size_cons, List.length_cons]
    omega

theorem size_eq_length {t : Text} (h : ∀ c ∈ t, c.toNat < 128) : size t = t.length := by
  induction t with
  | nil => rfl
  | cons c cs ih =>
    obtain ⟨hc, hcs⟩ := List.forall_mem_cons.mp h
    have hone : size [c] = 1 := by
      have hlength : size [c] = c.utf8Size := by simp [size, Utf8.encode]
      rw [hlength]
      exact Char.utf8Size_eq_one_iff.mpr (UInt32.le_iff_toNat_le.mpr (Nat.le_of_lt_succ hc))
    rw [size_cons, hone, ih hcs, List.length_cons, Nat.add_comm]

variable {p q : Nat → Bool} {k : Nat} {t : Text}

theorem pick_append (p : Nat → Bool) (k : Nat) (s t : Text) :
    pick p k (s ++ t) = pick p k s ++ pick p (k + size s) t := by
  induction s generalizing k with
  | nil => rfl
  | cons c cs ih =>
    rw [List.cons_append, pick, pick, ih, size_cons c cs, Nat.add_assoc]
    split <;> rfl

theorem pick_congr (h : ∀ i, k ≤ i → i < k + size t → p i = q i) : pick p k t = pick q k t := by
  induction t generalizing k with
  | nil => rfl
  | cons c cs ih =>
    have hpos := size_singleton_pos c
    rw [size_cons] at h
    have hrest : pick p (k + size [c]) cs = pick q (k + size [c]) cs := by
      apply ih
      intro i hi hlt
      exact h i (by omega) (by omega)
    rw [pick, pick, h k (Nat.le_refl k) (by omega), hrest]

@[simp] theorem pick_true (k : Nat) (t : Text) : pick (fun _ => true) k t = t := by
  induction t generalizing k with
  | nil => rfl
  | cons c cs ih => simp [pick, ih]

@[simp] theorem pick_false (k : Nat) (t : Text) : pick (fun _ => false) k t = [] := by
  induction t generalizing k with
  | nil => rfl
  | cons c cs ih => simp [pick, ih]

theorem pick_eq_self (h : ∀ i, k ≤ i → i < k + size t → p i = true) : pick p k t = t := by
  rw [pick_congr h, pick_true]

private theorem pick_eq_nil (h : ∀ i, k ≤ i → i < k + size t → p i = false) : pick p k t = [] := by
  rw [pick_congr h, pick_false]

theorem pick_sublist (p : Nat → Bool) (k : Nat) (t : Text) : (pick p k t).Sublist t := by
  induction t generalizing k with
  | nil => exact List.Sublist.refl []
  | cons c cs ih =>
    rw [pick]
    split
    · exact (ih _).cons_cons c
    · exact (ih _).cons c

theorem pick_split (p : Nat → Bool) (k b : Nat) (t : Text) :
    pick p k t =
      pick (fun i => p i && decide (i < b)) k t ++ pick (fun i => p i && decide (b ≤ i)) k t := by
  induction t generalizing k with
  | nil => rfl
  | cons c cs ih =>
    by_cases hb : k < b
    · simp only [pick, hb, Nat.not_le.mpr hb, decide_true, decide_false, Bool.and_true,
        Bool.and_false, Bool.false_eq_true, if_false]
      rw [ih (k + size [c])]
      split <;> rfl
    · -- from the offset on nothing is picked before it
      have hbefore : pick (fun i => p i && decide (i < b)) k (c :: cs) = [] := by
        apply pick_eq_nil
        intro i hi _
        simp [show ¬i < b by omega]
      rw [hbefore, List.nil_append]
      apply pick_congr
      intro i hi _
      simp [show b ≤ i by omega]

theorem pick_middle {x u z : Text} (hbefore : ∀ i, i < size x → p i = false)
    (hafter : ∀ i, size x + size u ≤ i → p i = false) :
    pick p 0 (x ++ u ++ z) = pick p (size x) u := by
  have hx : pick p 0 x = [] := pick_eq_nil fun i _ hi => hbefore i (by omega)
  have hz : pick p (0 + size (x ++ u)) z = [] := by
    apply pick_eq_nil
    intro i hi _
    rw [size_append] at hi
    exact hafter i (by omega)
  rw [pick_append, hz, List.append_nil, pick_append, hx, List.nil_append, Nat.zero_add]

theorem IsBoundary.decode?_slice {a b : Nat} (ha : t.IsBoundary a) (hb : t.IsBoundary b) :
    Utf8.decode? ((Utf8.encode t).slice a b) =
      some (pick (fun i => decide (a ≤ i) && decide (i < b)) 0 t) := by
  rcases Nat.le_total a b with h | h
  · obtain ⟨x, u, z, rfl, rfl, rfl⟩ := ha.split hb h
    have hpick : pick (fun i => decide (size x ≤ i) && decide (i < size x + size u)) (size x) u =
        u := by
      apply pick_eq_self
      intro i hi hlt
      simp [hi, hlt]
    rw [Utf8.slice_encode, Utf8.decode?_encode, pick_middle, hpick]
    · intro i hi
      simp [Nat.not_le.mpr hi]
    · intro i hi
      simp [Nat.not_lt.mpr hi]
  · have hpick : pick (fun i => decide (a ≤ i) && decide (i < b)) 0 t = [] := by
      apply pick_eq_nil
      intro i _ _
      simp
      omega
    rw [hpick, Bytes.slice, Nat.sub_eq_zero_of_le h, List.take_zero]
    rfl

end Text

end CodeAtlas
