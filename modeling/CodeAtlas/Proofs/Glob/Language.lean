import CodeAtlas.Glob.Basic
import Mathlib.Data.List.Infix

/-!
# The language of a glob

What the tokens of a glob take of a path, without regard to the order in which they are tried. A
glob matches a path if its tokens take the whole of it.
-/

namespace CodeAtlas

namespace GlobToken

mutual

inductive Takes (stops : Bool) : GlobToken → Bytes → Prop
  | literal (c : Char) : Takes stops (.literal c) (Utf8.encode [c])
  | any {b : UInt8} (h : (stops && b == separator) = false) : Takes stops .any [b]
  | star {w : Bytes} (h : ∀ b ∈ w, (stops && b == separator) = false) : Takes stops .star w
  | atStart : Takes stops .leadingDirectories []
  | leading (w : Bytes) : Takes stops .leadingDirectories (w ++ [separator])
  | everything (w : Bytes) : Takes stops .everythingBelow (separator :: w)
  | directly : Takes stops .innerDirectories [separator]
  | inner (w : Bytes) : Takes stops .innerDirectories (separator :: (w ++ [separator]))
  | oneOf {negated : Bool} {ranges : List (Char × Char)} {b : UInt8}
      (h : (ranges.any (inRange b) != negated) = true) : Takes stops (.oneOf negated ranges) [b]
  | void {branches : List (List GlobToken)} (h : areVoidBranches branches = true) :
      Takes stops (.choice branches) []
  | branch {branches : List (List GlobToken)} {b : List GlobToken} {w : Bytes}
      (h : areVoidBranches branches = false) (mem : b ∈ branches) (asks : areVoid b = false)
      (takes : TakesAll stops b w) : Takes stops (.choice branches) w

inductive TakesAll (stops : Bool) : List GlobToken → Bytes → Prop
  | nil : TakesAll stops [] []
  | cons {t : GlobToken} {ts : List GlobToken} {u v : Bytes} (first : Takes stops t u)
      (rest : TakesAll stops ts v) : TakesAll stops (t :: ts) (u ++ v)

end

section Rests

variable {r bs : Bytes}

private theorem mem_tailsWhile_iff {p : UInt8 → Bool} :
    r ∈ tailsWhile p bs ↔ ∃ w, bs = w ++ r ∧ ∀ b ∈ w, p b = true := by
  induction bs with
  | nil =>
    rw [tailsWhile, List.mem_singleton]
    constructor
    · intro h
      exact ⟨[], h.symm, by simp⟩
    · intro h
      obtain ⟨w, heq, -⟩ := h
      exact (List.append_eq_nil_iff.mp heq.symm).2
  | cons b bs ih =>
    rw [tailsWhile, List.mem_cons]
    constructor
    · intro h
      rcases h with rfl | h
      · exact ⟨[], rfl, by simp⟩
      · split at h
        · next hb =>
          obtain ⟨w, rfl, hw⟩ := ih.mp h
          exact ⟨b :: w, rfl, by simpa [hb] using hw⟩
        · cases h
    · intro h
      obtain ⟨w, heq, hw⟩ := h
      cases w with
      | nil => exact Or.inl heq.symm
      | cons c w =>
        obtain ⟨rfl, rfl⟩ := List.cons.inj heq
        rw [List.forall_mem_cons] at hw
        rw [if_pos hw.1]
        exact Or.inr (ih.mpr ⟨w, rfl, hw.2⟩)

private theorem mem_afterSeparators_iff :
    r ∈ afterSeparators bs ↔ ∃ w, bs = w ++ separator :: r := by
  induction bs with
  | nil => simp [afterSeparators]
  | cons b bs ih =>
    have hsplit : (∃ w, b :: bs = w ++ separator :: r) ↔
        (b = separator ∧ r = bs) ∨ ∃ w, bs = w ++ separator :: r := by
      constructor
      · intro h
        obtain ⟨w, hw⟩ := h
        cases w with
        | nil => exact Or.inl ⟨(List.cons.inj hw).1, (List.cons.inj hw).2.symm⟩
        | cons c w => exact Or.inr ⟨w, (List.cons.inj hw).2⟩
      · intro h
        rcases h with ⟨rfl, rfl⟩ | ⟨w, rfl⟩
        · exact ⟨[], rfl⟩
        · exact ⟨b :: w, rfl⟩
    rw [hsplit, ← ih, afterSeparators]
    split <;> simp [*]

private theorem stripBytes?_eq_some_iff {a : Bytes} : stripBytes? a bs = some r ↔ bs = a ++ r := by
  induction a generalizing bs with
  | nil => simp [stripBytes?]
  | cons o a ih =>
    cases bs with
    | nil => simp [stripBytes?]
    | cons b bs =>
      rw [stripBytes?]
      split
      · next h => simp [h, ih]
      · next h => simp [Ne.symm h]

/-- Ends of one subject are the same if they have the same length. -/
theorem mem_distinct_iff {whole : Bytes} {rs : List Bytes} (h : ∀ s ∈ rs, s <:+ whole) :
    r ∈ distinct rs ↔ r ∈ rs := by
  induction rs with
  | nil => rfl
  | cons s rs ih =>
    rw [List.forall_mem_cons] at h
    rw [distinct, List.mem_cons, List.mem_cons, List.mem_filter, ih h.2]
    constructor
    · intro hr
      exact hr.imp_right And.left
    · intro hr
      rcases hr with hr | hr
      · exact Or.inl hr
      · by_cases hlength : r.length = s.length
        · exact Or.inl ((List.suffix_of_suffix_length_le (h.2 r hr) h.1 hlength.le).eq_of_length
            hlength)
        · exact Or.inr ⟨hr, by simpa using hlength⟩

end Rests

section Language

variable {stops : Bool}

theorem takes_literal_iff {c : Char} {w : Bytes} :
    Takes stops (.literal c) w ↔ w = Utf8.encode [c] := by
  constructor
  · intro h
    cases h with
    | literal => rfl
  · intro h
    rw [h]
    exact .literal c

private theorem takes_any_iff {w : Bytes} :
    Takes stops .any w ↔ ∃ b, w = [b] ∧ (stops && b == separator) = false := by
  constructor
  · intro h
    cases h with
    | any h => exact ⟨_, rfl, h⟩
  · intro h
    obtain ⟨b, rfl, h⟩ := h
    exact .any h

theorem takes_oneOf_iff {negated : Bool} {ranges : List (Char × Char)} {w : Bytes} :
    Takes stops (.oneOf negated ranges) w ↔
      ∃ b, w = [b] ∧ (ranges.any (inRange b) != negated) = true := by
  constructor
  · intro h
    cases h with
    | oneOf h => exact ⟨_, rfl, h⟩
  · intro h
    obtain ⟨b, rfl, h⟩ := h
    exact .oneOf h

theorem takes_leadingDirectories_iff {w : Bytes} :
    Takes stops .leadingDirectories w ↔ w = [] ∨ ∃ v, w = v ++ [separator] := by
  constructor
  · intro h
    cases h with
    | atStart => exact Or.inl rfl
    | leading v => exact Or.inr ⟨v, rfl⟩
  · intro h
    rcases h with rfl | ⟨v, rfl⟩
    · exact .atStart
    · exact .leading v

theorem takes_everythingBelow_iff {w : Bytes} :
    Takes stops .everythingBelow w ↔ ∃ v, w = separator :: v := by
  constructor
  · intro h
    cases h with
    | everything v => exact ⟨v, rfl⟩
  · intro h
    obtain ⟨v, rfl⟩ := h
    exact .everything v

theorem takes_innerDirectories_iff {w : Bytes} :
    Takes stops .innerDirectories w ↔
      ∃ v, w = separator :: v ∧ Takes stops .leadingDirectories v := by
  constructor
  · intro h
    cases h with
    | directly => exact ⟨[], rfl, .atStart⟩
    | inner v => exact ⟨_, rfl, .leading v⟩
  · intro h
    obtain ⟨v, rfl, h⟩ := h
    cases h with
    | atStart => exact .directly
    | leading v => exact .inner v

theorem takes_choice_iff {branches : List (List GlobToken)} {w : Bytes} :
    Takes stops (.choice branches) w ↔ if areVoidBranches branches then w = []
      else ∃ b ∈ branches, areVoid b = false ∧ TakesAll stops b w := by
  constructor
  · intro h
    cases h with
    | void h => rw [if_pos h]
    | branch h mem asks takes =>
      rw [if_neg (by simp [h])]
      exact ⟨_, mem, asks, takes⟩
  · intro h
    split at h
    · next hvoid =>
      rw [h]
      exact .void hvoid
    · next hvoid =>
      obtain ⟨b, mem, asks, takes⟩ := h
      exact .branch (by simpa using hvoid) mem asks takes

theorem takesAll_cons_iff {t : GlobToken} {ts : List GlobToken} {w : Bytes} :
    TakesAll stops (t :: ts) w ↔ ∃ u v, w = u ++ v ∧ Takes stops t u ∧ TakesAll stops ts v := by
  constructor
  · intro h
    cases h with
    | cons first rest => exact ⟨_, _, rfl, first, rest⟩
  · intro h
    obtain ⟨u, v, rfl, first, rest⟩ := h
    exact .cons first rest

private theorem mem_rests_leadingDirectories_iff {r bs : Bytes} :
    r ∈ bs :: afterSeparators bs ↔ ∃ w, bs = w ++ r ∧ Takes stops .leadingDirectories w := by
  rw [List.mem_cons, mem_afterSeparators_iff]
  simp only [takes_leadingDirectories_iff]
  constructor
  · intro h
    rcases h with rfl | ⟨w, rfl⟩
    · exact ⟨[], rfl, Or.inl rfl⟩
    · exact ⟨w ++ [separator], by simp, Or.inr ⟨w, rfl⟩⟩
  · intro h
    obtain ⟨w, rfl, rfl | ⟨v, rfl⟩⟩ := h
    · exact Or.inl rfl
    · exact Or.inr ⟨v, by simp⟩

private theorem exists_octet_iff {P : UInt8 → Prop} {r : Bytes} (b : UInt8) (bs : Bytes) :
    (∃ w, b :: bs = w ++ r ∧ ∃ o, w = [o] ∧ P o) ↔ r = bs ∧ P b := by
  constructor
  · intro h
    obtain ⟨w, heq, o, rfl, ho⟩ := h
    obtain ⟨rfl, rfl⟩ := List.cons.inj heq
    exact ⟨rfl, ho⟩
  · intro h
    obtain ⟨rfl, hb⟩ := h
    exact ⟨[b], rfl, b, rfl, hb⟩

private theorem exists_separator_iff {P : Bytes → Prop} {r : Bytes} (b : UInt8) (bs : Bytes) :
    (∃ w, b :: bs = w ++ r ∧ ∃ v, w = separator :: v ∧ P v) ↔
      b = separator ∧ ∃ v, bs = v ++ r ∧ P v := by
  constructor
  · intro h
    obtain ⟨w, heq, v, rfl, hv⟩ := h
    obtain ⟨rfl, rfl⟩ := List.cons.inj heq
    exact ⟨rfl, v, rfl, hv⟩
  · intro h
    obtain ⟨rfl, v, rfl, hv⟩ := h
    exact ⟨separator :: v, rfl, v, rfl, hv⟩

mutual

private theorem mem_rests_iff {r bs : Bytes} :
    ∀ t : GlobToken, r ∈ rests stops t bs ↔ ∃ w, bs = w ++ r ∧ Takes stops t w
  | .literal c => by
    rw [rests, Option.mem_toList, stripBytes?_eq_some_iff]
    simp only [takes_literal_iff, exists_eq_right]
  | .any => by
    simp only [takes_any_iff]
    cases bs with
    | nil => simp [rests]
    | cons b bs =>
      rw [rests, exists_octet_iff]
      cases stops && b == separator <;> simp
  | .star => by
    rw [rests, mem_tailsWhile_iff]
    constructor
    · intro h
      obtain ⟨w, h, hw⟩ := h
      exact ⟨w, h, .star fun b hb => Bool.not_eq_true' _ |>.mp (hw b hb)⟩
    · intro h
      obtain ⟨w, h, htakes⟩ := h
      cases htakes with
      | star hw => exact ⟨w, h, fun b hb => Bool.not_eq_true' _ |>.mpr (hw b hb)⟩
  | .leadingDirectories => by
    rw [rests]
    exact mem_rests_leadingDirectories_iff
  | .everythingBelow => by
    simp only [takes_everythingBelow_iff]
    cases bs with
    | nil => simp [rests]
    | cons b bs =>
      have hsplit := exists_separator_iff (P := fun _ => True) (r := r) b bs
      simp only [and_true] at hsplit
      rw [rests, hsplit]
      split
      · next h => simp [h, mem_tailsWhile_iff]
      · next h => simp [h]
  | .innerDirectories => by
    simp only [takes_innerDirectories_iff]
    cases bs with
    | nil => simp [rests]
    | cons b bs =>
      rw [rests, exists_separator_iff]
      split
      · next h => simp only [h, true_and, ← mem_rests_leadingDirectories_iff]
      · next h => simp [h]
  | .oneOf negated ranges => by
    simp only [takes_oneOf_iff]
    cases bs with
    | nil => simp [rests]
    | cons b bs =>
      rw [rests, exists_octet_iff]
      cases ranges.any (inRange b) != negated <;> simp
  | .choice branches => by
    have hbranches : r ∈ restsOfBranches stops branches bs ↔ _ := mem_restsOfBranches_iff branches
    simp only [takes_choice_iff]
    rw [rests]
    split
    · simp [eq_comm]
    · rw [hbranches]
      constructor
      · intro h
        obtain ⟨b, hb, hasks, w, h, htakes⟩ := h
        exact ⟨w, h, b, hb, hasks, htakes⟩
      · intro h
        obtain ⟨w, h, b, hb, hasks, htakes⟩ := h
        exact ⟨b, hb, hasks, w, h, htakes⟩

private theorem mem_restsOfAll_iff {r whole : Bytes} :
    ∀ (ts : List GlobToken) {subjects : List Bytes},
    (∀ s ∈ subjects, s <:+ whole) → (r ∈ restsOfAll stops ts subjects ↔
      ∃ s ∈ subjects, ∃ w, s = w ++ r ∧ TakesAll stops ts w)
  | [], subjects, _ => by
    rw [restsOfAll]
    constructor
    · intro h
      exact ⟨r, h, [], rfl, .nil⟩
    · intro h
      obtain ⟨s, hs, w, rfl, hw⟩ := h
      cases hw
      exact hs
  | t :: ts, subjects, h => by
    have hfirst : ∀ s ∈ subjects.flatMap (rests stops t), s <:+ whole := by
      intro s hs
      obtain ⟨subject, hsubject, hs⟩ := List.mem_flatMap.mp hs
      obtain ⟨w, rfl, -⟩ := (mem_rests_iff t).mp hs
      exact (List.suffix_append w s).trans (h _ hsubject)
    have hdistinct : ∀ s ∈ distinct (subjects.flatMap (rests stops t)), s <:+ whole := by
      intro s hs
      exact hfirst s ((mem_distinct_iff hfirst).mp hs)
    rw [restsOfAll, mem_restsOfAll_iff ts hdistinct]
    simp only [takesAll_cons_iff, mem_distinct_iff hfirst, List.mem_flatMap]
    constructor
    · intro h
      obtain ⟨s, ⟨subject, hsubject, hs⟩, v, rfl, hv⟩ := h
      obtain ⟨u, rfl, hu⟩ := (mem_rests_iff t).mp hs
      exact ⟨_, hsubject, u ++ v, (List.append_assoc u v r).symm, u, v, rfl, hu, hv⟩
    · intro h
      obtain ⟨subject, hsubject, w, rfl, u, v, rfl, hu, hv⟩ := h
      refine ⟨v ++ r, ⟨_, hsubject, (mem_rests_iff t).mpr ⟨u, ?_, hu⟩⟩, v, rfl, hv⟩
      rw [List.append_assoc]

private theorem mem_restsOfBranches_iff {r bs : Bytes} : ∀ branches : List (List GlobToken),
    r ∈ restsOfBranches stops branches bs ↔
      ∃ b ∈ branches, areVoid b = false ∧ ∃ w, bs = w ++ r ∧ TakesAll stops b w
  | [] => by simp [restsOfBranches]
  | b :: branches => by
    have hfirst : ∀ s ∈ [bs], s <:+ bs := by simp
    have hb : r ∈ restsOfAll stops b [bs] ↔ ∃ w, bs = w ++ r ∧ TakesAll stops b w := by
      rw [mem_restsOfAll_iff b hfirst]
      simp only [List.mem_singleton, exists_eq_left]
    rw [restsOfBranches, List.mem_append, mem_restsOfBranches_iff branches,
      List.exists_mem_cons_iff]
    apply or_congr_left
    split
    · next hvoid => simp [hvoid]
    · next hasks => simp [hasks, hb]

end

end Language

end GlobToken

theorem Glob.isMatch_iff {g : Glob} {path : Text} : g.isMatch path = true ↔
    g.tokens = [.leadingDirectories] ∨
      GlobToken.TakesAll g.stopsAtSeparator g.tokens (Utf8.encode path) := by
  have hwhole : ∀ s ∈ [Utf8.encode path], s <:+ Utf8.encode path := by simp
  rw [isMatch]
  split
  · next h => simp [h]
  · next hnot =>
    rw [List.any_eq_true]
    simp only [List.isEmpty_iff, exists_eq_right, GlobToken.mem_restsOfAll_iff _ hwhole,
      List.mem_singleton, exists_eq_left, List.append_nil, exists_eq_left']
    exact ⟨Or.inr, fun h => h.resolve_left hnot⟩

end CodeAtlas
