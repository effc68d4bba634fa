import CodeAtlas.Text.Basic
import CodeAtlas.Text.Utf8
import Mathlib.Tactic.Ring

/-!
# Decoding

Decoding undoes encoding, and it goes line by line: a line feed is never part of another character,
neither in a well-formed buffer nor in an ill-formed one.
-/

namespace CodeAtlas.Utf8

section Steps

variable {b : UInt8} {bs : Bytes} {p : Pending}

private theorem decodeFrom_whole {c : Char} (h : opening b = .whole c) :
    decodeFrom none (b :: bs) = c :: decodeFrom none bs := by
  rw [decodeFrom, h]

private theorem decodeFrom_start (h : opening b = .start p) :
    decodeFrom none (b :: bs) = decodeFrom (some p) bs := by
  rw [decodeFrom, h]

private theorem decodeFrom_invalid (h : opening b = .invalid) :
    decodeFrom none (b :: bs) = replacement :: decodeFrom none bs := by
  rw [decodeFrom, h]

private theorem decodeFrom_last (hb : p.low ≤ b ∧ b ≤ p.high) (hdue : p.due ≤ 1) :
    decodeFrom (some p) (b :: bs) =
      Char.ofNat (p.value * 64 + (b.toNat - 0x80)) :: decodeFrom none bs := by
  rw [decodeFrom, if_pos (by simpa using hb), if_pos hdue]

private theorem decodeFrom_next (hb : p.low ≤ b ∧ b ≤ p.high) (hdue : ¬p.due ≤ 1) :
    decodeFrom (some p) (b :: bs) =
      decodeFrom (some ⟨p.due - 1, 0x80, 0xBF, p.value * 64 + (b.toNat - 0x80)⟩) bs := by
  rw [decodeFrom, if_pos (by simpa using hb), if_neg hdue]

end Steps

section LineFeeds

/-- A character that is longer than one octet: its further octets are no ASCII octets, and its value
is no ASCII value. -/
structure Pending.Proper (p : Pending) : Prop where
  low : 0x80 ≤ p.low.toNat
  value : 0x80 ≤ (p.value * 64 + (p.low.toNat - 0x80)) * 64 ^ (p.due - 1)

private theorem proper_of_opening {b : UInt8} {p : Pending} (h : opening b = .start p) :
    p.Proper := by
  dsimp only [opening] at h
  split at h
  · cases h
  split at h
  · cases h
  split at h
  · cases h
    refine ⟨by simp, ?_⟩
    simp
    omega
  split at h
  · cases h
    constructor
    · dsimp only
      split <;> simp
    · dsimp only
      split
      · next h => simp [h]
      · simp
        omega
  split at h
  · cases h
    constructor
    · dsimp only
      split <;> simp
    · dsimp only
      split
      · next h => simp [h]
      · simp
        omega
  · cases h

theorem Pending.Proper.next {p : Pending} {b : UInt8} (h : p.Proper) (hb : p.low ≤ b)
    (hdue : ¬p.due ≤ 1) :
    Pending.Proper ⟨p.due - 1, 0x80, 0xBF, p.value * 64 + (b.toNat - 0x80)⟩ := by
  refine ⟨by simp, ?_⟩
  have hlow := UInt8.le_iff_toNat_le.mp hb
  have hpow : 64 ^ (p.due - 1) = 64 * 64 ^ (p.due - 1 - 1) := by
    rw [← Nat.pow_succ']
    congr 1
    omega
  calc
    0x80 ≤ (p.value * 64 + (p.low.toNat - 0x80)) * 64 ^ (p.due - 1) := h.value
    _ ≤ (p.value * 64 + (b.toNat - 0x80)) * 64 ^ (p.due - 1) :=
      Nat.mul_le_mul_right _ (by omega)
    _ = _ := by
      rw [hpow]
      simp
      ring

private theorem Pending.Proper.le_value {p : Pending} {b : UInt8} (h : p.Proper) (hb : p.low ≤ b)
    (hdue : p.due ≤ 1) : 0x80 ≤ p.value * 64 + (b.toNat - 0x80) := by
  have hlow := UInt8.le_iff_toNat_le.mp hb
  have hvalue := h.value
  rw [Nat.sub_eq_zero_of_le hdue, Nat.pow_zero, Nat.mul_one] at hvalue
  omega

private theorem toNat_ofNat {n : Nat} (h : n.isValidChar) : (Char.ofNat n).toNat = n := by
  rw [Char.ofNat, dif_pos h]
  rfl

private theorem ofNat_ne_lineFeed {n : Nat} (h : n ≠ 10) : Char.ofNat n ≠ '\n' := by
  by_cases hn : n.isValidChar
  · intro hc
    have := congrArg Char.toNat hc
    rw [toNat_ofNat hn] at this
    exact h this
  · rw [Char.ofNat, dif_neg hn]
    decide

private theorem opening_whole {b : UInt8} {c : Char} (h : opening b = .whole c) :
    c = Char.ofNat b.toNat := by
  dsimp only [opening] at h
  split at h
  · cases h
    rfl
  all_goals (repeat' split at h) <;> cases h

private theorem not_continues_lineFeed {p : Pending} (h : p.Proper) :
    ¬(p.low ≤ 10 ∧ (10 : UInt8) ≤ p.high) := by
  have hlow := h.low
  rw [UInt8.le_iff_toNat_le]
  simp
  omega

private theorem decodeFrom_append_lineFeed {begun : Option Pending} (hbegun : ∀ p ∈ begun, p.Proper)
    (a b : Bytes) :
    decodeFrom begun (a ++ 10 :: b) = decodeFrom begun a ++ '\n' :: decodeFrom none b := by
  have hfeed : opening 10 = .whole '\n' := rfl
  induction a generalizing begun with
  | nil =>
      cases begun with
      | none => exact decodeFrom_whole hfeed
      | some p =>
          rw [List.nil_append, decodeFrom_refused (not_continues_lineFeed (hbegun p rfl)),
            decodeFrom_whole hfeed]
          rfl
  | cons o os ih =>
      have hnone : decodeFrom none (os ++ 10 :: b) =
          decodeFrom none os ++ '\n' :: decodeFrom none b := ih (by simp)
      have hopen : decodeFrom none (o :: (os ++ 10 :: b)) =
          decodeFrom none (o :: os) ++ '\n' :: decodeFrom none b := by
        cases ho : opening o with
        | whole c => rw [decodeFrom_whole ho, decodeFrom_whole ho, hnone, List.cons_append]
        | start q =>
            rw [decodeFrom_start ho, decodeFrom_start ho]
            exact ih (by simpa using proper_of_opening ho)
        | invalid => rw [decodeFrom_invalid ho, decodeFrom_invalid ho, hnone, List.cons_append]
      rw [List.cons_append]
      cases begun with
      | none => exact hopen
      | some p =>
          by_cases ho : p.low ≤ o ∧ o ≤ p.high
          · by_cases hdue : p.due ≤ 1
            · rw [decodeFrom_last ho hdue, decodeFrom_last ho hdue, hnone, List.cons_append]
            · rw [decodeFrom_next ho hdue, decodeFrom_next ho hdue]
              exact ih (by simpa using (hbegun p rfl).next ho.1 hdue)
          · rw [decodeFrom_refused ho, decodeFrom_refused ho, hopen, List.cons_append]

private theorem lineFeed_notMem_decodeFrom {begun : Option Pending} (hbegun : ∀ p ∈ begun, p.Proper)
    {a : Bytes} (ha : 10 ∉ a) : '\n' ∉ decodeFrom begun a := by
  have hreplacement : replacement ≠ '\n' := by decide
  induction a generalizing begun with
  | nil =>
      cases begun with
      | none => simp [decodeFrom]
      | some p => simp [decodeFrom, hreplacement.symm]
  | cons o os ih =>
      rw [List.mem_cons, not_or] at ha
      have hnone : '\n' ∉ decodeFrom none os := ih (by simp) ha.2
      have hopen : '\n' ∉ decodeFrom none (o :: os) := by
        cases ho : opening o with
        | whole c =>
            have hc : c ≠ '\n' := by
              rw [opening_whole ho]
              apply ofNat_ne_lineFeed
              intro h
              exact ha.1 (UInt8.toNat_inj.mp h.symm)
            rw [decodeFrom_whole ho, List.mem_cons, not_or]
            exact ⟨hc.symm, hnone⟩
        | start q =>
            rw [decodeFrom_start ho]
            exact ih (by simpa using proper_of_opening ho) ha.2
        | invalid =>
            rw [decodeFrom_invalid ho, List.mem_cons, not_or]
            exact ⟨hreplacement.symm, hnone⟩
      cases begun with
      | none => exact hopen
      | some p =>
          by_cases ho : p.low ≤ o ∧ o ≤ p.high
          · by_cases hdue : p.due ≤ 1
            · have hvalue := (hbegun p rfl).le_value ho.1 hdue
              rw [decodeFrom_last ho hdue, List.mem_cons, not_or]
              exact ⟨(ofNat_ne_lineFeed (by omega)).symm, hnone⟩
            · rw [decodeFrom_next ho hdue]
              exact ih (by simpa using (hbegun p rfl).next ho.1 hdue) ha.2
          · rw [decodeFrom_refused ho, List.mem_cons, not_or]
            exact ⟨hreplacement.symm, hopen⟩

theorem splitOn_append_cons {α : Type} [BEq α] [LawfulBEq α] {x : α} {a : List α}
    (ha : x ∉ a) (b : List α) : (a ++ x :: b).splitOn x = a :: b.splitOn x := by
  apply List.splitOnP_append_cons_of_forall_mem
  · intro y hy
    exact beq_eq_false_iff_ne.mpr fun h => ha (h ▸ hy)
  · exact beq_self_eq_true x

theorem splitOn_eq_singleton {α : Type} [BEq α] [LawfulBEq α] {x : α} {a : List α}
    (ha : x ∉ a) : a.splitOn x = [a] := by
  apply List.splitOnP_eq_singleton
  intro y hy
  exact beq_eq_false_iff_ne.mpr fun h => ha (h ▸ hy)

theorem decodeLossy_append_lineFeed (a b : Bytes) :
    decodeLossy (a ++ 10 :: b) = decodeLossy a ++ '\n' :: decodeLossy b :=
  decodeFrom_append_lineFeed (by simp) a b

private theorem lineFeed_notMem_decodeLossy {a : Bytes} (ha : 10 ∉ a) : '\n' ∉ decodeLossy a :=
  lineFeed_notMem_decodeFrom (by simp) ha

/-- The rows of a decoded buffer are its rows decoded. -/
theorem rows_decodeLossy (bs : Bytes) :
    Text.rows (decodeLossy bs) = (bs.splitOn 10).map decodeLossy := by
  generalize hn : bs.length = n
  induction n using Nat.strongRecOn generalizing bs with
  | ind n ih =>
      by_cases hfeed : 10 ∈ bs
      · obtain ⟨a, b, rfl, ha⟩ := List.eq_append_cons_of_mem hfeed
        have hrest := ih b.length (by simp [← hn]; omega) b rfl
        rw [decodeLossy_append_lineFeed, Text.rows,
          splitOn_append_cons (lineFeed_notMem_decodeLossy ha), splitOn_append_cons ha,
          List.map_cons, ← hrest, Text.rows]
      · rw [Text.rows, splitOn_eq_singleton (lineFeed_notMem_decodeLossy hfeed),
          splitOn_eq_singleton hfeed, List.map_singleton]

end LineFeeds

section Encoded

theorem toNat_ofNat_octet {n : Nat} (h : n < 256) : (UInt8.ofNat n).toNat = n := by
  rw [UInt8.toNat_ofNat']
  exact Nat.mod_eq_of_lt h

private theorem opening_ofNat {n : Nat} (h : n < 256) : opening (UInt8.ofNat n) =
    if n < 0x80 then .whole (Char.ofNat n)
    else if n < 0xC2 then .invalid
    else if n < 0xE0 then .start ⟨1, 0x80, 0xBF, n - 0xC0⟩
    else if n < 0xF0 then
      .start ⟨2, if n = 0xE0 then 0xA0 else 0x80, if n = 0xED then 0x9F else 0xBF, n - 0xE0⟩
    else if n < 0xF5 then
      .start ⟨3, if n = 0xF0 then 0x90 else 0x80, if n = 0xF4 then 0x8F else 0xBF, n - 0xF0⟩
    else .invalid := by
  rw [opening, toNat_ofNat_octet h]

private theorem continues_ofNat {low high : UInt8} {n : Nat} (h : n < 256) (hlow : low.toNat ≤ n)
    (hhigh : n ≤ high.toNat) : low ≤ UInt8.ofNat n ∧ UInt8.ofNat n ≤ high := by
  rw [UInt8.le_iff_toNat_le, UInt8.le_iff_toNat_le, toNat_ofNat_octet h]
  exact ⟨hlow, hhigh⟩

/-- The last octet of a character gives its last six bits. -/
private theorem decodeFrom_lastBits {low high : UInt8} {value d : Nat} {bs : Bytes} (hd : d < 64)
    (hlow : low.toNat ≤ d + 128) (hhigh : d + 128 ≤ high.toNat) :
    decodeFrom (some ⟨1, low, high, value⟩) (UInt8.ofNat (d + 128) :: bs) =
      Char.ofNat (value * 64 + d) :: decodeFrom none bs := by
  rw [decodeFrom_last (continues_ofNat (by omega) hlow hhigh) (Nat.le_refl 1),
    toNat_ofNat_octet (by omega), Nat.add_sub_cancel]

private theorem decodeFrom_moreBits {low high : UInt8} {due value d : Nat} {bs : Bytes}
    (hd : d < 64) (hlow : low.toNat ≤ d + 128) (hhigh : d + 128 ≤ high.toNat) :
    decodeFrom (some ⟨due + 2, low, high, value⟩) (UInt8.ofNat (d + 128) :: bs) =
      decodeFrom (some ⟨due + 1, 0x80, 0xBF, value * 64 + d⟩) bs := by
  rw [decodeFrom_next (continues_ofNat (by omega) hlow hhigh) (by simp),
    toNat_ofNat_octet (by omega), Nat.add_sub_cancel]
  rfl

private theorem decodeFrom_utf8EncodeChar (c : Char) (bs : Bytes) :
    decodeFrom none (String.utf8EncodeChar c ++ bs) = c :: decodeFrom none bs := by
  have hvalid : c.val.toNat < 0xD800 ∨ 0xDFFF < c.val.toNat ∧ c.val.toNat < 0x110000 := c.valid
  have hc : Char.ofNat c.val.toNat = c := Char.ofNat_toNat c
  have hlow : (0x80 : UInt8).toNat = 0x80 ∧ (0xA0 : UInt8).toNat = 0xA0 ∧
      (0x90 : UInt8).toNat = 0x90 := ⟨rfl, rfl, rfl⟩
  have hhigh : (0xBF : UInt8).toNat = 0xBF ∧ (0x9F : UInt8).toNat = 0x9F ∧
      (0x8F : UInt8).toNat = 0x8F := ⟨rfl, rfl, rfl⟩
  rw [String.utf8EncodeChar]
  generalize c.val.toNat = v at hvalid hc ⊢
  rw [← hc]
  split
  · next h =>
      rw [List.singleton_append, decodeFrom_whole]
      rw [opening_ofNat (by omega), if_pos (by omega)]
  split
  · next h1 h2 =>
      have hopen : opening (UInt8.ofNat (v / 64 % 32 + 192)) =
          .start ⟨1, 0x80, 0xBF, v / 64 % 32⟩ := by
        rw [opening_ofNat (by omega), if_neg (by omega), if_neg (by omega), if_pos (by omega),
          Nat.add_sub_cancel]
      rw [List.cons_append, List.singleton_append, decodeFrom_start hopen,
        decodeFrom_lastBits (by omega) (by omega) (by omega)]
      congr 2
      omega
  split
  · next h1 h2 h3 =>
      have hopen : opening (UInt8.ofNat (v / 4096 % 16 + 224)) =
          .start ⟨2, if v / 4096 % 16 + 224 = 0xE0 then 0xA0 else 0x80,
            if v / 4096 % 16 + 224 = 0xED then 0x9F else 0xBF, v / 4096 % 16⟩ := by
        rw [opening_ofNat (by omega), if_neg (by omega), if_neg (by omega), if_neg (by omega),
          if_pos (by omega), Nat.add_sub_cancel]
      rw [List.cons_append, List.cons_append, List.singleton_append, decodeFrom_start hopen,
        decodeFrom_moreBits (by omega) (by split <;> omega) (by split <;> omega),
        decodeFrom_lastBits (by omega) (by omega) (by omega)]
      congr 2
      omega
  · next h1 h2 h3 =>
      have hopen : opening (UInt8.ofNat (v / 262144 % 8 + 240)) =
          .start ⟨3, if v / 262144 % 8 + 240 = 0xF0 then 0x90 else 0x80,
            if v / 262144 % 8 + 240 = 0xF4 then 0x8F else 0xBF, v / 262144 % 8⟩ := by
        rw [opening_ofNat (by omega), if_neg (by omega), if_neg (by omega), if_neg (by omega),
          if_neg (by omega), if_pos (by omega), Nat.add_sub_cancel]
      rw [List.cons_append, List.cons_append, List.cons_append, List.singleton_append,
        decodeFrom_start hopen,
        decodeFrom_moreBits (by omega) (by split <;> omega) (by split <;> omega),
        decodeFrom_moreBits (by omega) (by omega) (by omega),
        decodeFrom_lastBits (by omega) (by omega) (by omega)]
      congr 2
      omega

theorem encode_singleton (c : Char) : encode [c] = String.utf8EncodeChar c :=
  List.flatMap_singleton _ _

theorem getLast?_utf8EncodeChar (c : Char) : (String.utf8EncodeChar c).getLast? =
    some (.ofNat (if c.val.toNat ≤ 127 then c.val.toNat else c.val.toNat % 64 + 128)) := by
  rw [String.utf8EncodeChar]
  generalize c.val.toNat = v
  by_cases h : v ≤ 127
  · simp [h]
  · simp only [if_neg h]
    split
    · rfl
    · split <;> rfl

/-- Decoding undoes encoding. -/
theorem decodeLossy_encode (t : Text) : decodeLossy (encode t) = t := by
  induction t with
  | nil => rfl
  | cons c cs ih =>
      rw [encode, List.flatMap_cons, decodeLossy, decodeFrom_utf8EncodeChar]
      exact congrArg (c :: ·) ih

theorem decode?_encode (t : Text) : decode? (encode t) = some t := by
  simp only [decode?, decodeLossy_encode, if_true]

theorem encode_append (s t : Text) : encode (s ++ t) = encode s ++ encode t := List.flatMap_append

theorem size_append (s t : Text) : size (s ++ t) = size s + size t := by
  rw [size, encode_append, List.length_append]
  rfl

theorem encode_injective {s t : Text} (h : encode s = encode t) : s = t := by
  rw [← decodeLossy_encode s, h, decodeLossy_encode]

end Encoded

end CodeAtlas.Utf8
