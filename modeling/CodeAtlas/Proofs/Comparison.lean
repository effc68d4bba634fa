import CodeAtlas.Path
import CodeAtlas.Proofs.Order
import CodeAtlas.Symbol.Basic

/-!
# Comparisons

The orders by which results are sorted are linear: what is sorted by one of them is in order, and
what it does not tell apart agrees in all that it compares.
-/

namespace CodeAtlas

section Sorting

variable {α : Type} (cmp : α → α → Ordering) [Std.TransCmp cmp]

private theorem isLE_total (a b : α) : (cmp a b).isLE = true ∨ (cmp b a).isLE = true := by
  have hswap : cmp b a = (cmp a b).swap := Std.OrientedCmp.eq_swap
  rw [hswap]
  cases cmp a b <;> simp

theorem pairwise_sortBy_isLE (as : List α) :
    (sortBy (fun a b => (cmp a b).isLE) as).Pairwise (fun a b => (cmp a b).isLE = true) := by
  apply pairwise_sortBy
  · exact isLE_total cmp
  · intro a b c hab hbc
    exact Std.TransCmp.isLE_trans hab hbc

end Sorting

namespace Path

namespace Component

private def order : Component → Nat
  | root => 0
  | here => 1
  | up => 2
  | name _ => 3

private def word : Component → Text
  | name n => n
  | _ => []

private theorem compare_eq_compareLex : (compare : Component → Component → Ordering) =
    compareLex (compareOn order) (compareOn word) := by
  funext a b
  cases a <;> cases b <;> rfl

instance : Std.TransOrd Component := by
  rw [Std.TransOrd, compare_eq_compareLex]
  infer_instance

instance : Std.LawfulEqOrd Component where
  eq_of_compare := by
    intro a b h
    rw [compare_eq_compareLex, compareLex_eq_eq] at h
    have horder : a.order = b.order := Std.LawfulEqOrd.eq_of_compare h.1
    have hword : a.word = b.word := Std.LawfulEqOrd.eq_of_compare h.2
    cases a <;> cases b <;> simp_all [order, word]

end Component

end Path

namespace Point

theorem compare_eq_compareLex : (compare : Point → Point → Ordering) =
    compareLex (compareOn row) (compareOn column) := rfl

instance : Std.TransOrd Point := by
  rw [Std.TransOrd, compare_eq_compareLex]
  infer_instance

end Point

namespace Extent

theorem compare_eq_compareLex : (compare : Extent → Extent → Ordering) =
    compareLex (compareOn startPoint) (compareOn endPoint) := rfl

instance : Std.TransOrd Extent := by
  rw [Std.TransOrd, compare_eq_compareLex]
  infer_instance

end Extent

section Results

variable {α : Type} (extent : α → Extent) (content : α → Text)

/-- Signatures and symbols are in order once they are sorted by place and then by text. -/
theorem pairwise_sortBy_place (as : List α) :
    (sortBy (fun a b => ((compare (extent a) (extent b)).then
      (compare (content a) (content b))).isLE) as).Pairwise fun a b =>
        ((compare (extent a) (extent b)).then (compare (content a) (content b))).isLE = true :=
  pairwise_sortBy_isLE (compareLex (compareOn extent) (compareOn content)) as

end Results

end CodeAtlas
