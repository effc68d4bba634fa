import CodeAtlas.Proofs.Fence.Shrink

/-!
# What shrinking keeps

Shrinking goes through the segments of a text in place. Prose, patches, blocks of symbols and blocks
without a known language stay as they are, unless a block repeats an earlier one. Only a block in a
known language is rewritten.
-/

namespace CodeAtlas

private theorem Text.mem_toLower {c : Char} (hsigma : c.toNat ≠ 0x3A3) (hlower : lowerChar c = [c])
    {t : Text} (h : c ∈ t) : c ∈ toLower t := by
  have hafter (before : Text) : c ∈ lowerAfter before t := by
    induction t generalizing before with
    | nil => cases h
    | cons d ds ih =>
      rw [lowerAfter, List.mem_append]
      rcases List.mem_cons.mp h with rfl | h
      · left
        simp [hsigma, hlower]
      · right
        exact ih h (d :: before)
  exact hafter []

private theorem Text.stripSuffix?_append (t s : Text) : stripSuffix? s (t ++ s) = some t := by
  have hsuffix : s.isSuffixOf (t ++ s) = true :=
    List.isSuffixOf_iff_suffix.mpr (List.suffix_append t s)
  rw [stripSuffix?, if_pos hsuffix, List.length_append, Nat.add_sub_cancel, List.take_left' rfl]

namespace FencedBlock

variable {b c : FencedBlock}

theorem isPatch_of_isSignatures (h : b.isSignatures = true) : b.isPatch = false := by
  have hsuffix : signaturesEnding <:+ b.tag := List.isSuffixOf_iff_suffix.mp h
  have htag : '-' ∈ b.tag := hsuffix.subset (by decide)
  have hlower : '-' ∈ Text.toLower b.tag := Text.mem_toLower (by decide) (by decide) htag
  have hne (t : Text) (ht : '-' ∉ t) : (Text.toLower b.tag == t) = false := by
    rw [beq_eq_false_iff_ne]
    intro heq
    exact ht (heq ▸ hlower)
  rw [isPatch, hne _ (by decide), hne _ (by decide)]
  rfl

theorem isSymbols_of_isSignatures (h : b.isSignatures = true) : b.isSymbols = false := by
  have hsuffix : signaturesEnding <:+ b.tag := List.isSuffixOf_iff_suffix.mp h
  cases hsymbols : b.isSymbols with
  | false => rfl
  | true =>
    have hother : symbolsEnding <:+ b.tag := List.isSuffixOf_iff_suffix.mp hsymbols
    have hboth : symbolsEnding <:+ signaturesEnding :=
      List.suffix_of_suffix_length_le hother hsuffix (by decide)
    exact absurd hboth (by decide)

section Signatures

variable {hint : Text} (h : Follows signaturesEnding (' ' :: hint)) (body : Text)
include h

private theorem isSignatures_withSignatures : (b.withSignatures hint body).isSignatures = true := by
  rw [isSignatures, tag_withSignatures b h, List.isSuffixOf_iff_suffix]
  exact List.suffix_append _ _

private theorem isCode_withSignatures : (b.withSignatures hint body).isCode = false := by
  rw [isCode, isSignatures_withSignatures h]
  simp

private theorem baseTag_withSignatures : (b.withSignatures hint body).baseTag = b.baseTag := by
  rw [baseTag, tag_withSignatures b h, Text.stripSuffix?_append]
  rfl

theorem withSignatures_withSignatures (hint' body' : Text) :
    (b.withSignatures hint body).withSignatures hint' body' = b.withSignatures hint' body' := by
  rw [withSignatures, baseTag_withSignatures h]
  rfl

end Signatures

/-- What shrinking may make of a block in a known language: code becomes signatures, with comments
or without, and signatures lose their comments once. -/
inductive Shortened (b : FencedBlock) : FencedBlock → Prop
  | signatures (code : b.isCode = true) (language : b.language? ≠ none) (body : Text) :
      Shortened b (b.withSignatures signaturesHint body)
  | stripped (opened : b.isCode = true ∨
        b.isSignatures = true ∧ Text.occursIn strippedHint b.info = false)
      (language : b.language? ≠ none) (body : Text) :
      Shortened b (b.withSignatures strippedHint body)

namespace Shortened

theorem isCode (h : b.Shortened c) : c.isCode = false := by
  cases h with
  | signatures => exact isCode_withSignatures follows_signatures _
  | stripped => exact isCode_withSignatures follows_stripped _

private theorem language_ne (h : b.Shortened c) : b.language? ≠ none := by
  cases h with
  | signatures _ language _ => exact language
  | stripped _ language _ => exact language

/-- Patches and blocks of symbols are not shortened. -/
theorem unguarded (h : b.Shortened c) : b.isPatch = false ∧ b.isSymbols = false := by
  have hcode (hb : b.isCode = true) : b.isPatch = false ∧ b.isSymbols = false := by
    simp only [FencedBlock.isCode, Bool.and_eq_true, Bool.not_eq_true'] at hb
    exact ⟨hb.1.1, hb.2⟩
  cases h with
  | signatures code _ _ => exact hcode code
  | stripped opened _ _ =>
    rcases opened with code | ⟨hsignatures, -⟩
    · exact hcode code
    · exact ⟨isPatch_of_isSignatures hsignatures, isSymbols_of_isSignatures hsignatures⟩

theorem ne (h : b.Shortened c) : c ≠ b := by
  intro heq
  have hcode := h.isCode
  rw [heq] at hcode
  cases h with
  | signatures code _ _ => exact absurd (code.symm.trans hcode) (by simp)
  | stripped opened _ body =>
    rcases opened with code | ⟨-, hinfo⟩
    · exact absurd (code.symm.trans hcode) (by simp)
    · have hoccurs := occursIn_strippedHint b body
      rw [heq, hinfo] at hoccurs
      cases hoccurs

theorem trans {a : FencedBlock} (hab : a.Shortened b) (hbc : b.Shortened c) : a.Shortened c := by
  have hcode := hab.isCode
  cases hbc with
  | signatures code _ _ => exact absurd (code.symm.trans hcode) (by simp)
  | stripped opened _ body =>
    have hopen : b.isSignatures = true ∧ Text.occursIn strippedHint b.info = false :=
      opened.resolve_left (by simp [hcode])
    cases hab with
    | signatures code language _ =>
      rw [withSignatures_withSignatures follows_signatures]
      exact .stripped (Or.inl code) language body
    | stripped _ _ body' =>
      rw [occursIn_strippedHint] at hopen
      exact absurd hopen.2 (by simp)

end Shortened

variable {grammars : Grammars}

private theorem shortened_of_toSignatures? (h : b.toSignatures? grammars = some c) :
    b.Shortened c := by
  obtain ⟨code, language, -, body, rfl⟩ := toSignatures?_eq_some h
  exact .signatures code language _

private theorem shortened_of_withoutComments? (h : b.withoutComments? grammars = some c) :
    b.Shortened c := by
  obtain ⟨opened, language, body, rfl⟩ := withoutComments?_eq_some h
  exact .stripped (Or.inr opened) language _

private theorem OpenedBy.isCode_of_render_eq {f g : FenceLine} (hb : b.OpenedBy f)
    (hc : c.OpenedBy g) (h : b.render = c.render) : b.isCode = c.isCode := by
  have hopening : b.opening = c.opening := by
    simp only [render, List.append_assoc, List.cons_append] at h
    exact Text.eq_of_append_lineFeed hb.opening_line hc.opening_line h
  have hfence : f = g := by
    have hopens := hb.opens
    rw [hopening, hc.opens] at hopens
    exact (Option.some.inj hopens).symm
  have hinfo : b.info = c.info := by rw [hb.info, hc.info, hfence]
  simp only [isCode, isPatch, isSignatures, isSymbols, tag, hinfo]

end FencedBlock

namespace Segment

def CodeBefore (segments : List Segment) (i : Nat) (text : Text) : Prop :=
  ∃ j < i, ∃ a, segments[j]? = some (.block a) ∧ a.isCode = true ∧ a.render = text

/-- Whether the block in a place has the text of code that stands before it. -/
def Repeats (segments : List Segment) (i : Nat) : Prop :=
  ∃ b, segments[i]? = some (.block b) ∧ CodeBefore segments i b.render

private theorem codeBefore_cons {s : Segment} {rest : List Segment} {i : Nat} {text : Text} :
    CodeBefore (s :: rest) (i + 1) text ↔
      (∃ a, s = .block a ∧ a.isCode = true ∧ a.render = text) ∨ CodeBefore rest i text := by
  constructor
  · rintro ⟨j, hj, a, ha, hcode⟩
    cases j with
    | zero => exact Or.inl ⟨a, Option.some.inj ha, hcode⟩
    | succ j => exact Or.inr ⟨j, Nat.lt_of_succ_lt_succ hj, a, ha, hcode⟩
  · rintro (⟨a, rfl, hcode⟩ | ⟨j, hj, a, ha, hcode⟩)
    · exact ⟨0, Nat.succ_pos i, a, rfl, hcode⟩
    · exact ⟨j + 1, Nat.succ_lt_succ hj, a, ha, hcode⟩

/-- Whether a text was seen or stands before a place as code. -/
def Told (seen : List FencedBlock) (segments : List Segment) (i : Nat) (text : Text) : Prop :=
  (∃ o ∈ seen, o.render = text) ∨ CodeBefore segments i text

private theorem told_zero {seen : List FencedBlock} {segments : List Segment} {text : Text} :
    Told seen segments 0 text ↔ ∃ o ∈ seen, o.render = text := by
  simp [Told, CodeBefore]

private theorem told_cons_code {seen : List FencedBlock} {c : FencedBlock} (hc : c.isCode = true)
    {rest : List Segment} {i : Nat} {text : Text} :
    Told seen (.block c :: rest) (i + 1) text ↔ Told (c :: seen) rest i text := by
  simp only [Told, codeBefore_cons, List.mem_cons, exists_eq_or_imp, block.injEq]
  grind

private theorem told_cons_of_seen {seen : List FencedBlock} {s : Segment}
    (hs : ∀ a, s = .block a → a.isCode = true → ∃ o ∈ seen, o.render = a.render)
    (rest : List Segment) (i : Nat) (text : Text) :
    Told seen (s :: rest) (i + 1) text ↔ Told seen rest i text := by
  simp only [Told, codeBefore_cons]
  grind

/-- A place keeps its segment, or it holds code whose text was seen or stands before it as code. -/
theorem getElem?_dropRepeated (seen : List FencedBlock) (segments : List Segment) (i : Nat) :
    (dropRepeated seen segments)[i]? = segments[i]? ∧
        (∀ b, segments[i]? = some (.block b) → b.isCode = true →
          ¬Told seen segments i b.render) ∨
      ∃ b, segments[i]? = some (.block b) ∧ b.isCode = true ∧ Told seen segments i b.render ∧
        (dropRepeated seen segments)[i]? = some (.prose repeatMark) := by
  fun_induction dropRepeated seen segments generalizing i with
  | case1 =>
    left
    simp
  | case2 seen c rest hcode hseen ih =>
    have hknown : ∃ o ∈ seen, o.render = c.render := any_render_eq.mp hseen
    cases i with
    | zero => exact Or.inr ⟨c, rfl, hcode, told_zero.mpr hknown, rfl⟩
    | succ i =>
      have hsame : ∀ a, Segment.block c = .block a → a.isCode = true →
          ∃ o ∈ seen, o.render = a.render := by
        rintro a ⟨⟩ -
        exact hknown
      simpa only [told_cons_of_seen hsame, List.getElem?_cons_succ] using ih i
  | case3 seen c rest hcode hseen ih =>
    cases i with
    | zero =>
      refine Or.inl ⟨rfl, ?_⟩
      intro b hb _ htold
      cases hb
      exact hseen (any_render_eq.mpr (told_zero.mp htold))
    | succ i => simpa only [told_cons_code hcode, List.getElem?_cons_succ] using ih i
  | case4 seen c rest hcode ih =>
    cases i with
    | zero =>
      refine Or.inl ⟨rfl, ?_⟩
      intro b hb hbcode
      cases hb
      exact absurd hbcode hcode
    | succ i =>
      have hnone : ∀ a, Segment.block c = .block a → a.isCode = true →
          ∃ o ∈ seen, o.render = a.render := by
        rintro a ⟨⟩ ha
        exact absurd ha hcode
      simpa only [told_cons_of_seen hnone, List.getElem?_cons_succ] using ih i
  | case5 seen t rest ih =>
    cases i with
    | zero => exact Or.inl ⟨rfl, fun b hb => by cases hb⟩
    | succ i =>
      have hnone : ∀ a, Segment.prose t = .block a → a.isCode = true →
          ∃ o ∈ seen, o.render = a.render := by
        rintro a ⟨⟩
      simpa only [told_cons_of_seen hnone, List.getElem?_cons_succ] using ih i

/-- What leaving out repeated blocks does to the place of one: a repeated block gives way to the
mark, and every other segment stays. -/
theorem dropRepeated_place (text : Text) (i : Nat) :
    (dropRepeated [] (ofText text))[i]? = (ofText text)[i]? ∧ ¬Repeats (ofText text) i ∨
      (dropRepeated [] (ofText text))[i]? = some (.prose repeatMark) ∧ Repeats (ofText text) i ∧
        ∃ b, (ofText text)[i]? = some (.block b) ∧ b.isCode = true := by
  have htold {t : Text} : Told [] (ofText text) i t ↔ CodeBefore (ofText text) i t := by
    simp [Told]
  rcases getElem?_dropRepeated [] (ofText text) i with
    ⟨hsame, hnew⟩ | ⟨b, hb, hcode, hbefore, hmark⟩
  · refine Or.inl ⟨hsame, ?_⟩
    rintro ⟨b, hb, j, hj, a, ha, hacode, hrender⟩
    -- Equal texts open with equal lines, so the later block is code as well.
    obtain ⟨f, hf⟩ := exists_openedBy_of_mem_blocks (mem_blocks.mpr (List.mem_of_getElem? ha))
    obtain ⟨g, hg⟩ := exists_openedBy_of_mem_blocks (mem_blocks.mpr (List.mem_of_getElem? hb))
    have hbcode : b.isCode = true := (hf.isCode_of_render_eq hg hrender).symm.trans hacode
    exact hnew b hb hbcode (htold.mpr ⟨j, hj, a, ha, hacode, hrender⟩)
  · exact Or.inr ⟨hmark, ⟨b, hb, htold.mp hbefore⟩, b, hb, hcode⟩

/-- Whether a place holds a segment as it was, or a block that was shortened. -/
def ShortenedAt (origin left : List Segment) (i : Nat) : Prop :=
  left[i]? = origin[i]? ∨ ∃ b c, origin[i]? = some (.block b) ∧ left[i]? = some (.block c) ∧
    b.Shortened c

private theorem ShortenedAt.exists_shortened {origin left : List Segment} {i : Nat}
    {b c : FencedBlock}
    (h : ShortenedAt origin left i) (hleft : left[i]? = some (.block b)) (hc : b.Shortened c) :
    ∃ a, origin[i]? = some (.block a) ∧ a.Shortened c := by
  rcases h with hsame | ⟨a, b', ha, hb', hab⟩
  · exact ⟨b, hsame ▸ hleft, hc⟩
  · rw [hleft, Option.some.injEq, block.injEq] at hb'
    subst hb'
    exact ⟨a, ha, hab.trans hc⟩

end Segment

namespace Draft

/-- A draft of some segments that were shortened in place, and that tells whether one was. -/
structure Tracks (origin : List Segment) (d : Draft) : Prop where
  shortened : ∀ i, Segment.ShortenedAt origin d.segments i
  changed : d.changed = false ↔ d.segments = origin

namespace Tracks

variable {origin : List Segment} {d : Draft} {condense : FencedBlock → Option FencedBlock}

theorem condenseAt (h : d.Tracks origin) (hshort : ∀ b c, condense b = some c → b.Shortened c)
    (limit i : Nat) : (d.condenseAt limit condense i).Tracks origin := by
  rcases condenseAt_cases limit condense d i with ⟨hstep, -⟩ | ⟨b, c, hb, hc, hstep⟩
  · rw [hstep]
    exact h
  rw [hstep]
  have hset : (d.segments.set i (.block c))[i]? = some (.block c) :=
    List.getElem?_set_self (List.getElem?_eq_some_iff.mp hb).1
  obtain ⟨a, ha, hac⟩ := (h.shortened i).exists_shortened hb (hshort b c hc)
  refine ⟨?_, ?_⟩
  · intro j
    by_cases hij : i = j
    · subst hij
      exact Or.inr ⟨a, c, ha, hset, hac⟩
    · have hother : (d.segments.set i (.block c))[j]? = d.segments[j]? := List.getElem?_set_ne hij
      have hplace := h.shortened j
      rw [Segment.ShortenedAt, ← hother] at hplace
      exact hplace
  · refine iff_of_false (by simp) ?_
    intro hsame
    rw [← hsame, hset, Option.some.injEq, Segment.block.injEq] at ha
    exact hac.ne ha

theorem condenseIn (h : d.Tracks origin) (hshort : ∀ b c, condense b = some c → b.Shortened c)
    (limit : Nat) (places : List Nat) : (d.condenseIn limit condense places).Tracks origin := by
  induction places generalizing d with
  | nil => exact h
  | cons i places ih => exact ih (h.condenseAt hshort limit i)

end Tracks

private theorem tracks_shrunk (grammars : Grammars) (longestFirst : Bool) (limit : Nat)
    (text : Text) :
    (shrunk grammars longestFirst limit text).Tracks
      (Segment.dropRepeated [] (Segment.ofText text)) := by
  have hstart : (ofText text).Tracks (Segment.dropRepeated [] (Segment.ofText text)) :=
    ⟨fun i => Or.inl rfl, iff_of_true rfl rfl⟩
  have hsignatures (places : List Nat) :
      ((ofText text).condenseIn limit (·.toSignatures? grammars) places).Tracks
        (Segment.dropRepeated [] (Segment.ofText text)) :=
    hstart.condenseIn (fun _ _ => FencedBlock.shortened_of_toSignatures?) limit places
  exact (hsignatures _).condenseIn (fun _ _ => FencedBlock.shortened_of_withoutComments?) limit _

end Draft

/-- The segments that shrinking leaves of some others, place by place. -/
structure Segment.ShrunkTo (origin left : List Segment) : Prop where
  length : left.length = origin.length
  prose : ∀ (i : Nat) (t : Text), origin[i]? = some (.prose t) → left[i]? = some (.prose t)
  guarded : ∀ (i : Nat) (b : FencedBlock), origin[i]? = some (.block b) →
    b.isPatch = true ∨ b.isSymbols = true → left[i]? = some (.block b)
  unknown : ∀ (i : Nat) (b : FencedBlock), origin[i]? = some (.block b) → b.language? = none →
    ¬Repeats origin i → left[i]? = some (.block b)
  block : ∀ (i : Nat) (b : FencedBlock), origin[i]? = some (.block b) →
    left[i]? = some (.block b) ∨ left[i]? = some (.prose repeatMark) ∧ Repeats origin i ∨
      ∃ c, left[i]? = some (.block c) ∧ b.Shortened c

section Kept

variable {text : Text} {left : List Segment}

private theorem shrunkTo_of_shortened
    (hlength : left.length = (Segment.dropRepeated [] (Segment.ofText text)).length)
    (h : ∀ i, Segment.ShortenedAt (Segment.dropRepeated [] (Segment.ofText text)) left i) :
    Segment.ShrunkTo (Segment.ofText text) left := by
  have hplace (i : Nat) (s : Segment) (hs : (Segment.ofText text)[i]? = some s) :
      left[i]? = some s ∨
        left[i]? = some (.prose repeatMark) ∧ Segment.Repeats (Segment.ofText text) i ∧
          (∃ b, s = .block b ∧ b.isCode = true) ∨
        ∃ b c, s = .block b ∧ left[i]? = some (.block c) ∧ b.Shortened c := by
    rcases Segment.dropRepeated_place text i with ⟨hsame, -⟩ | ⟨hmark, hrepeats, b, hb, hcode⟩
    · rw [hs] at hsame
      rcases h i with hleft | ⟨b, c, hb, hc, hbc⟩
      · exact Or.inl (hleft.trans hsame)
      · rw [hsame, Option.some.injEq] at hb
        exact Or.inr (Or.inr ⟨b, c, hb, hc, hbc⟩)
    · rw [hs, Option.some.injEq] at hb
      rcases h i with hleft | ⟨b', c, hb', -, -⟩
      · exact Or.inr (Or.inl ⟨hleft.trans hmark, hrepeats, b, hb, hcode⟩)
      · rw [hmark, Option.some.injEq] at hb'
        cases hb'
  refine ⟨?_, ?_, ?_, ?_, ?_⟩
  · rw [hlength]
    exact (Segment.forall₂_condensed_dropRepeated [] _).length_eq.symm
  · intro i t ht
    rcases hplace i _ ht with hsame | ⟨-, -, b, hb, -⟩ | ⟨b, -, hb, -, -⟩
    · exact hsame
    · cases hb
    · cases hb
  · intro i b hb hguard
    rcases hplace i _ hb with hsame | ⟨-, -, b', hb', hcode⟩ | ⟨b', c, hb', -, hshort⟩
    · exact hsame
    · cases hb'
      rcases hguard with hpatch | hsymbols
      · simp [FencedBlock.isCode, hpatch] at hcode
      · simp [FencedBlock.isCode, hsymbols] at hcode
    · cases hb'
      rcases hguard with hpatch | hsymbols
      · exact absurd (hpatch.symm.trans hshort.unguarded.1) (by simp)
      · exact absurd (hsymbols.symm.trans hshort.unguarded.2) (by simp)
  · intro i b hb hlanguage hrepeats
    rcases hplace i _ hb with hsame | ⟨-, hrepeats', -⟩ | ⟨b', c, hb', -, hshort⟩
    · exact hsame
    · exact absurd hrepeats' hrepeats
    · cases hb'
      exact absurd hlanguage hshort.language_ne
  · intro i b hb
    rcases hplace i _ hb with hsame | ⟨hmark, hrepeats, -⟩ | ⟨b', c, hb', hc, hshort⟩
    · exact Or.inl hsame
    · exact Or.inr (Or.inl ⟨hmark, hrepeats⟩)
    · cases hb'
      exact Or.inr (Or.inr ⟨c, hc, hshort⟩)

private theorem eq_dropRepeated_iff
    (h : ∀ i, Segment.ShortenedAt (Segment.dropRepeated [] (Segment.ofText text)) left i) :
    left = Segment.dropRepeated [] (Segment.ofText text) ↔
      ∀ (i : Nat) (b c : FencedBlock), (Segment.ofText text)[i]? = some (.block b) →
        left[i]? = some (.block c) → c = b := by
  constructor
  · rintro rfl i b c hb hc
    rcases Segment.dropRepeated_place text i with ⟨hsame, -⟩ | ⟨hmark, -⟩
    · rw [hsame, hb, Option.some.injEq, Segment.block.injEq] at hc
      exact hc.symm
    · rw [hmark, Option.some.injEq] at hc
      cases hc
  · intro hkept
    apply List.ext_getElem?
    intro i
    rcases h i with hsame | ⟨b, c, hb, hc, hshort⟩
    · exact hsame
    · rcases Segment.dropRepeated_place text i with ⟨hsame, -⟩ | ⟨hmark, -⟩
      · exact absurd (hkept i b c (hsame ▸ hb) hc) hshort.ne
      · rw [hmark, Option.some.injEq] at hb
        cases hb

end Kept

/-- Shrinking works on the segments of a text in their places. Prose, patches, blocks of symbols and
blocks without a known language that repeat nothing stay as they are. A block gives way to the mark
only if it repeats code that stands before it, and always if the text is too long. Any other change
shortens a block in a known language, and whether there was one is told. -/
theorem shrink_keeps (grammars : Grammars) (longestFirst : Bool) (limit : Nat) (text : Text) :
    let left := Segment.remaining grammars longestFirst limit text
    (shrink grammars longestFirst limit text).1 = Segment.renderAll left ∧
      Segment.ShrunkTo (Segment.ofText text) left ∧
      (limit < text.length → ∀ i, Segment.Repeats (Segment.ofText text) i →
        left[i]? = some (.prose repeatMark)) ∧
      ((shrink grammars longestFirst limit text).2 = false ↔
        ∀ (i : Nat) (b c : FencedBlock), (Segment.ofText text)[i]? = some (.block b) →
          left[i]? = some (.block c) → c = b) := by
  intro left
  refine ⟨fst_shrink grammars longestFirst limit text, ?_⟩
  by_cases hfits : text.length ≤ limit
  · have hleft : left = Segment.ofText text := if_pos hfits
    have hflag : (shrink grammars longestFirst limit text).2 = false := by rw [shrink, if_pos hfits]
    rw [hleft]
    refine ⟨⟨rfl, fun _ _ h => h, fun _ _ h _ => h, fun _ _ h _ _ => h, fun _ _ h => Or.inl h⟩,
      fun hlong => absurd hfits (Nat.not_le.mpr hlong), iff_of_true hflag ?_⟩
    intro i b c hb hc
    rw [hb, Option.some.injEq, Segment.block.injEq] at hc
    exact hc.symm
  · have hleft : left = (Draft.shrunk grammars longestFirst limit text).segments := if_neg hfits
    have hflag : (shrink grammars longestFirst limit text).2 =
        (Draft.shrunk grammars longestFirst limit text).changed := by rw [shrink, if_neg hfits]
    have htracks := Draft.tracks_shrunk grammars longestFirst limit text
    have hcondenses := (Draft.condenses_shrunk grammars longestFirst limit text).condensed
    rw [hleft, hflag, htracks.changed]
    refine ⟨shrunkTo_of_shortened hcondenses.length_eq.symm htracks.shortened, ?_,
      eq_dropRepeated_iff htracks.shortened⟩
    intro _ i hrepeats
    rcases Segment.dropRepeated_place text i with ⟨-, hnew⟩ | ⟨hmark, -⟩
    · exact absurd hrepeats hnew
    · rcases htracks.shortened i with hsame | ⟨b, c, hb, -, -⟩
      · exact hsame.trans hmark
      · rw [hmark, Option.some.injEq] at hb
        cases hb

/-- The indentation of a fence does not outlive its block: no other info, body and closing line
after the old indentation and fence gives what is left. -/
theorem shrink_indented_fence :
    let text := "  ```md notes\n".toList ++ TildeTag.note ++ "```\n".toList
    shrink TildeTag.grammars false 44 text =
        ("```md-signatures (bodies omitted)\n# T\n```\n".toList, true) ∧
      ∀ info body closing : Text, (shrink TildeTag.grammars false 44 text).1 ≠
        "  ```".toList ++ info ++ '\n' :: body ++ closing := by
  intro text
  have hshort : shrink TildeTag.grammars false 44 text =
      ("```md-signatures (bodies omitted)\n# T\n```\n".toList, true) := by decide +kernel
  refine ⟨hshort, ?_⟩
  intro info body closing hsame
  rw [hshort] at hsame
  exact absurd (congrArg List.head? hsame) (by simp)

end CodeAtlas
