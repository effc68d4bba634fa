import CodeAtlas.Proofs.Glob.Language
import CodeAtlas.Proofs.Text.Utf8

/-!
# Globs that settle

Whether a directory is entered is asked of a name that need not be in it. A glob settles if it gives
every other name the answer that it gives this one where it matches: a glob for everything below a
directory does, and so does one that cannot match the name at all.
-/

namespace CodeAtlas

namespace GlobToken

def underscore : UInt8 := 95

/-- Only an underscore is encoded with its octet at the end. -/
theorem eq_of_encode_eq_concat {c : Char} {s : Bytes} (h : Utf8.encode [c] = s ++ [underscore]) :
    c = '_' := by
  have hlast := Utf8.getLast?_utf8EncodeChar c
  rw [← Utf8.encode_singleton, h, List.getLast?_concat, Option.some.injEq] at hlast
  have hvalue := congrArg UInt8.toNat hlast
  split at hvalue
  · next hsmall =>
    rw [Utf8.toNat_ofNat_octet (by omega)] at hvalue
    apply Char.toNat_inj.mp
    exact hvalue.symm
  · rw [Utf8.toNat_ofNat_octet (by omega)] at hvalue
    have hsmall : underscore.toNat < 128 := by decide
    omega

mutual

/-- Whether a token that takes an underscore at the end takes anything in its place. -/
def settles : GlobToken → Bool
  | literal c => c ≠ '_'
  | any | star | leadingDirectories => false
  | everythingBelow | innerDirectories => true
  | oneOf negated ranges => ranges.any (inRange underscore) == negated
  | choice branches => !areVoidBranches branches && settleBranches branches

def settlesLast : List GlobToken → Bool
  | [] => true
  | t :: ts => if ts.isEmpty then t.settles else settlesLast ts

/-- Whether the last tokens of all branches settle. -/
def settleBranches : List (List GlobToken) → Bool
  | [] => true
  | b :: branches => settlesLast b && settleBranches branches

end

/-- Words, none of them empty, among which is with a word that ends in an underscore every word with
anything in its place. -/
structure Settled (takes : Bytes → Prop) : Prop where
  not_nil : ¬takes []
  of_underscore : ∀ s r, takes (s ++ [underscore]) → takes (s ++ r)

theorem Settled.congr {p q : Bytes → Prop} (h : ∀ w, p w ↔ q w) (hq : Settled q) : Settled p where
  not_nil hp := hq.not_nil ((h _).mp hp)
  of_underscore s r hp := (h _).mpr (hq.of_underscore s r ((h _).mp hp))

section Settling

variable {stops : Bool}

private theorem takesAll_singleton_iff {t : GlobToken} {w : Bytes} :
    TakesAll stops [t] w ↔ Takes stops t w := by
  rw [takesAll_cons_iff]
  constructor
  · intro h
    obtain ⟨u, v, rfl, hu, hv⟩ := h
    cases hv
    rwa [List.append_nil]
  · intro h
    exact ⟨w, [], (List.append_nil w).symm, h, .nil⟩

/-- A sequence is settled where its rest is. -/
theorem Settled.cons {t : GlobToken} {ts : List GlobToken} (h : Settled (TakesAll stops ts)) :
    Settled (TakesAll stops (t :: ts)) := by
  apply Settled.congr (fun _ => takesAll_cons_iff)
  refine ⟨?_, ?_⟩
  · intro htakes
    obtain ⟨u, v, heq, -, hv⟩ := htakes
    rw [(List.append_eq_nil_iff.mp heq.symm).2] at hv
    exact h.not_nil hv
  · intro s r htakes
    obtain ⟨u, v, heq, hu, hv⟩ := htakes
    rcases List.eq_nil_or_concat v with rfl | ⟨v, b, rfl⟩
    · exact absurd hv h.not_nil
    · rw [List.concat_eq_append, ← List.append_assoc] at heq
      obtain ⟨rfl, hb⟩ := List.append_inj' heq rfl
      rw [List.concat_eq_append, ← hb] at hv
      exact ⟨u, v ++ r, List.append_assoc u v r, hu, h.of_underscore v r hv⟩

mutual

private theorem settled_of_settles : ∀ t : GlobToken, t.settles = true → Settled (Takes stops t)
  | .literal c, h => by
    have hc : c ≠ '_' := by simpa [settles] using h
    refine ⟨?_, ?_⟩
    · intro htakes
      have hlast := Utf8.getLast?_utf8EncodeChar c
      rw [← Utf8.encode_singleton, ← takes_literal_iff.mp htakes] at hlast
      cases hlast
    · intro s r htakes
      exact absurd (eq_of_encode_eq_concat (takes_literal_iff.mp htakes).symm) hc
  | .any, h => by cases h
  | .star, h => by cases h
  | .leadingDirectories, h => by cases h
  | .everythingBelow, _ => by
    apply Settled.congr (fun _ => takes_everythingBelow_iff)
    refine ⟨by simp, ?_⟩
    intro s r htakes
    obtain ⟨v, hv⟩ := htakes
    cases s with
    | nil => exact absurd (List.cons.inj hv).1 (by decide)
    | cons b s =>
      refine ⟨s ++ r, ?_⟩
      rw [(List.cons.inj hv).1, List.cons_append]
  | .innerDirectories, _ => by
    apply Settled.congr (fun _ => takes_innerDirectories_iff)
    refine ⟨by simp, ?_⟩
    intro s r htakes
    obtain ⟨v, hv, htakes⟩ := htakes
    have hlast : (separator :: v).getLast? = some separator := by
      rcases takes_leadingDirectories_iff.mp htakes with rfl | ⟨v, rfl⟩
      · rfl
      · rw [← List.cons_append, List.getLast?_concat]
    rw [← hv, List.getLast?_concat] at hlast
    exact absurd hlast (by decide)
  | .oneOf negated ranges, h => by
    rw [settles, beq_iff_eq] at h
    apply Settled.congr (fun _ => takes_oneOf_iff)
    refine ⟨by simp, ?_⟩
    intro s r htakes
    obtain ⟨b, hb, hrange⟩ := htakes
    rw [← List.nil_append [b]] at hb
    obtain ⟨-, hlast⟩ := List.append_inj' hb rfl
    rw [← List.cons.inj hlast |>.1, h] at hrange
    simp at hrange
  | .choice branches, h => by
    rw [settles, Bool.and_eq_true, Bool.not_eq_true'] at h
    have hbranches := settled_of_settleBranches branches h.2
    have hne : ∀ {b : List GlobToken}, areVoid b = false → b ≠ [] := by
      intro b hasks hnil
      rw [hnil] at hasks
      cases hasks
    apply Settled.congr (fun _ => takes_choice_iff)
    simp only [h.1, Bool.false_eq_true, if_false]
    refine ⟨?_, ?_⟩
    · intro htakes
      obtain ⟨b, hb, hasks, htakes⟩ := htakes
      exact (hbranches b hb (hne hasks)).not_nil htakes
    · intro s r htakes
      obtain ⟨b, hb, hasks, htakes⟩ := htakes
      exact ⟨b, hb, hasks, (hbranches b hb (hne hasks)).of_underscore s r htakes⟩

private theorem settled_of_settlesLast : ∀ ts : List GlobToken, settlesLast ts = true → ts ≠ [] →
    Settled (TakesAll stops ts)
  | [], _, hne => absurd rfl hne
  | t :: ts, h, _ => by
    rw [settlesLast] at h
    split at h
    · next hempty =>
      rw [List.isEmpty_iff.mp hempty]
      exact Settled.congr (fun _ => takesAll_singleton_iff) (settled_of_settles t h)
    · next hmore => exact (settled_of_settlesLast ts h (by simpa using hmore)).cons

private theorem settled_of_settleBranches : ∀ branches : List (List GlobToken),
    settleBranches branches = true → ∀ b ∈ branches, b ≠ [] → Settled (TakesAll stops b)
  | [], _, _, hb, _ => by cases hb
  | b :: branches, h, b', hb', hne => by
    rw [settleBranches, Bool.and_eq_true] at h
    have hfirst := settled_of_settlesLast b h.1
    rcases List.mem_cons.mp hb' with rfl | hb'
    · exact hfirst hne
    · exact settled_of_settleBranches branches h.2 b' hb' hne

end

end Settling

end GlobToken

namespace Glob

/-- Whether a glob that matches a path with an underscore at the end matches it with anything in its
place. -/
def settles (g : Glob) : Bool :=
  match g.tokens with
  | [.leadingDirectories] => true
  | tokens => GlobToken.settlesLast tokens

theorem isMatch_append_of_settles {g : Glob} (hg : g.settles = true) {s : Text}
    (h : g.isMatch (s ++ ['_']) = true) (t : Text) : g.isMatch (s ++ t) = true := by
  rw [isMatch_iff] at h ⊢
  rcases h with hall | htakes
  · exact Or.inl hall
  · rw [settles] at hg
    split at hg
    · next hall => exact Or.inl hall
    · rw [Utf8.encode_append] at htakes ⊢
      have hne : g.tokens ≠ [] := by
        intro hnil
        have hempty : Utf8.encode s ++ Utf8.encode ['_'] = [] := by
          rw [hnil] at htakes
          generalize Utf8.encode s ++ Utf8.encode ['_'] = w at htakes ⊢
          cases htakes
          rfl
        exact absurd (List.append_eq_nil_iff.mp hempty).2 (by decide)
      exact Or.inr ((GlobToken.settled_of_settlesLast _ hg hne).of_underscore _ _ htakes)

end Glob

end CodeAtlas
