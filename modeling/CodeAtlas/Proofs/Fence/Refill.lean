import CodeAtlas.Fence.Shrink
import CodeAtlas.Proofs.Fence.Rewrite
import CodeAtlas.Proofs.Syntax.Tree

/-!
# Refilled blocks

Condensing a block keeps its fences and writes a new info, made of its tag and an ending that marks
the block as no code any more. What keeps such a block from reading back is that its tag starts with
the character of its fence, or that a line of its new body is a fence.
-/

namespace CodeAtlas.FencedBlock

/-- An info that may be written after the fence of a block. -/
structure TakesInfo (b : FencedBlock) (info : Text) : Prop where
  trimmed : Text.trim info = info
  nonempty : info ≠ []
  one_line : '\n' ∉ info
  backtick : '\x60' ∈ info → '\x60' ∈ b.info

/-- What condensing makes of a block: the same fences around something that is no code. -/
inductive Refilled (b : FencedBlock) : FencedBlock → Prop
  | intro {info body : Text} (takes : b.TakesInfo info) (body_lines : Text.EndsLine body)
      (condensed : (b.refill info body).isCode = false) : Refilled b (b.refill info body)

/-- What makes a written block read back: its info does not lengthen its fence, and no line of its
body is a fence. -/
def Plain (b : FencedBlock) : Prop :=
  b.info.head? ≠ b.fence.head? ∧
    ∀ line ∈ Text.linesWithEnds b.body, FenceLine.ofLine? (Text.dropLineFeed line) = none

theorem Refilled.isCode {b c : FencedBlock} (h : b.Refilled c) : c.isCode = false := by
  cases h with
  | intro _ _ condensed => exact condensed

theorem Refilled.trans {a b c : FencedBlock} (hab : a.Refilled b) (hbc : b.Refilled c) :
    a.Refilled c := by
  cases hab with
  | intro takes _ _ =>
      cases hbc with
      | intro takes' body_lines condensed =>
          exact .intro ⟨takes'.trimmed, takes'.nonempty, takes'.one_line,
            fun h => takes.backtick (takes'.backtick h)⟩ body_lines condensed

theorem Refilled.rewritten {b c : FencedBlock} {f : FenceLine} (hb : b.OpenedBy f)
    (h : b.Refilled c) (hc : c.Plain) : Segment.Rewritten (.block b) (.block c) := by
  cases h with
  | intro takes body_lines condensed =>
      have hf := (FenceLine.of_ofLine? hb.opens).1
      have hhead : b.fence.head? = some f.marker := by
        have hcount : f.count ≠ 0 := by have := hf.count; omega
        rw [hb.fence, FenceLine.characters, List.head?_replicate, if_neg hcount]
      refine .refilled hb.fence
        ⟨takes.trimmed, takes.nonempty, takes.one_line, ?_, ?_, body_lines, hc.2⟩
      · rw [← hhead]
        exact hc.1
      · intro hm hmem
        have hinfo := takes.backtick hmem
        rw [hb.info] at hinfo
        exact FenceLine.canOpen_iff.mp hb.canOpen hm (Text.mem_of_mem_trim hinfo)

private theorem mem_stripSuffix? {s t r : Text} {c : Char} (h : Text.stripSuffix? s t = some r)
    (hc : c ∈ r) : c ∈ t := by
  rw [Text.stripSuffix?] at h
  split at h
  · rw [← Option.some.inj h] at hc
    exact List.mem_of_mem_take hc
  · simp at h

private theorem mem_baseTag {b : FencedBlock} {c : Char} (h : c ∈ b.baseTag) : c ∈ b.tag := by
  rw [baseTag] at h
  cases hsig : Text.stripSuffix? signaturesEnding b.tag with
  | some r =>
      rw [hsig] at h
      exact mem_stripSuffix? hsig h
  | none =>
      cases hsym : Text.stripSuffix? symbolsEnding b.tag with
      | some r =>
          rw [hsig, hsym] at h
          exact mem_stripSuffix? hsym h
      | none =>
          rw [hsig, hsym] at h
          exact h

/-- What may follow a part of a tag in an info: the rest of a word, and a hint. -/
structure Follows (ending hint : Text) : Prop where
  nonempty : ending ≠ []
  word : ending.all (!Text.blankChar ·) = true
  apart : hint.head?.all Text.blankChar = true
  trimmed : (ending ++ hint).getLast?.any Text.blankChar = false
  plain : (ending ++ hint).all (fun c => c != '\n' && c != '\x60') = true

theorem Follows.not_blank {ending hint : Text} (h : Follows ending hint) {c : Char}
    (hc : c ∈ ending) : Text.blankChar c = false := by
  simpa using List.all_eq_true.mp h.word c hc

private theorem Follows.not_marker {ending hint : Text} (h : Follows ending hint) {c : Char}
    (hc : c ∈ ending ++ hint) : c ≠ '\n' ∧ c ≠ '\x60' := by
  simpa using List.all_eq_true.mp h.plain c hc

theorem follows_signatures : Follows signaturesEnding (' ' :: signaturesHint) := by
  constructor <;> decide

theorem follows_stripped : Follows signaturesEnding (' ' :: strippedHint) := by
  constructor <;> decide

theorem follows_symbols : Follows symbolsEnding [] := by
  constructor <;> decide

section Infos

variable {b : FencedBlock} {front ending hint : Text} (hfront : ∀ c ∈ front, c ∈ b.tag)
  (h : Follows ending hint)
include hfront h

private theorem takesInfo : b.TakesInfo (front ++ ending ++ hint) := by
  have hblank : ∀ c ∈ front, Text.blankChar c = false := fun c hc =>
    (Text.mem_headWord (hfront c hc)).1
  refine ⟨Text.trim_eq_self ?_ ?_, by simp [h.nonempty], ?_, ?_⟩
  · intro c hc
    have hmem : c ∈ front ++ ending := by
      cases hw : front ++ ending with
      | nil => simp [h.nonempty] at hw
      | cons d ds =>
          rw [hw, List.cons_append, List.head?_cons, Option.some.injEq] at hc
          simp [hc]
    rcases List.mem_append.mp hmem with hc | hc
    · exact hblank c hc
    · exact h.not_blank hc
  · intro c hc
    rw [List.append_assoc, List.getLast?_append_of_ne_nil _ (by simp [h.nonempty])] at hc
    simpa [hc] using h.trimmed
  · intro hmem
    rw [List.append_assoc, List.mem_append] at hmem
    rcases hmem with hmem | hmem
    · exact absurd (hblank _ hmem) (by decide)
    · exact (h.not_marker hmem).1 rfl
  · intro hmem
    rw [List.append_assoc, List.mem_append] at hmem
    rcases hmem with hmem | hmem
    · exact (Text.mem_headWord (hfront _ hmem)).2
    · exact absurd rfl (h.not_marker hmem).2

private theorem tag_refill (body : Text) :
    (b.refill (front ++ ending ++ hint) body).tag = front ++ ending := by
  apply Text.headWord_append (by simp [h.nonempty]) _ hint
    (fun c hc => by simpa [hc] using h.apart)
  intro c hc
  rcases List.mem_append.mp hc with hc | hc
  · exact (Text.mem_headWord (hfront c hc)).1
  · exact h.not_blank hc

/-- The endings of tags mark a block as no code. -/
private theorem refilled_of_follows (hending : ending = signaturesEnding ∨ ending = symbolsEnding)
    {body : Text} (hbody : Text.EndsLine body) :
    b.Refilled (b.refill (front ++ ending ++ hint) body) := by
  refine .intro (takesInfo hfront h) hbody ?_
  have hsuffix : ending.isSuffixOf (b.refill (front ++ ending ++ hint) body).tag = true := by
    rw [tag_refill hfront h, List.isSuffixOf_iff_suffix]
    exact List.suffix_append _ _
  rcases hending with rfl | rfl
  · rw [isCode, isSignatures, hsuffix]
    simp
  · rw [isCode, isSymbols, hsuffix]
    simp

end Infos

section Condensed

variable {grammars : Grammars} {b c : FencedBlock}

private theorem endsLine_endLine (body : Text) : Text.EndsLine (endLine body) := by
  rw [endLine]
  split
  · assumption
  · exact Text.endsLine_append_lineFeed _

theorem toSignatures?_eq_some (h : b.toSignatures? grammars = some c) :
    b.isCode = true ∧ b.language? ≠ none ∧ c.render.length < b.render.length ∧
      ∃ body, c = b.withSignatures signaturesHint (endLine body) := by
  simp only [toSignatures?, Option.bind_eq_bind] at h
  split at h
  case isFalse => exact absurd h (by simp)
  next hcode =>
    simp only [Option.bind_eq_some_iff] at h
    obtain ⟨language, hlanguage, signatures, -, h⟩ := h
    split at h
    · exact absurd h (by simp)
    split at h
    · next hshort =>
        rw [← Option.some.inj h]
        exact ⟨hcode, by simp [hlanguage], hshort, _, rfl⟩
    · exact absurd h (by simp)

theorem withoutComments?_eq_some (h : b.withoutComments? grammars = some c) :
    (b.isSignatures = true ∧ Text.occursIn strippedHint b.info = false) ∧ b.language? ≠ none ∧
      ∃ body, c = b.withSignatures strippedHint (endLine body) := by
  simp only [withoutComments?, Option.bind_eq_bind] at h
  split at h
  case isFalse => exact absurd h (by simp)
  next hopen =>
    simp only [Bool.and_eq_true, Bool.not_eq_true'] at hopen
    simp only [Option.bind_eq_some_iff] at h
    obtain ⟨language, hlanguage, document, -, h⟩ := h
    split at h
    · exact absurd h (by simp)
    · exact ⟨hopen, by simp [hlanguage], document.commentFree, (Option.some.inj h).symm⟩

theorem refilled_of_toSignatures? (h : b.toSignatures? grammars = some c) : b.Refilled c := by
  obtain ⟨-, -, -, body, rfl⟩ := toSignatures?_eq_some h
  exact refilled_of_follows (fun _ => mem_baseTag) follows_signatures (Or.inl rfl)
    (endsLine_endLine _)

theorem refilled_of_withoutComments? (h : b.withoutComments? grammars = some c) : b.Refilled c := by
  obtain ⟨-, -, body, rfl⟩ := withoutComments?_eq_some h
  exact refilled_of_follows (fun _ => mem_baseTag) follows_stripped (Or.inl rfl)
    (endsLine_endLine _)

theorem toSignatures?_of_isCode (h : b.isCode = false) : b.toSignatures? grammars = none := by
  simp [toSignatures?, h]

theorem tag_withSignatures (b : FencedBlock) {hint : Text}
    (h : Follows signaturesEnding (' ' :: hint)) (body : Text) :
    (b.withSignatures hint body).tag = b.baseTag ++ signaturesEnding :=
  tag_refill (fun _ => mem_baseTag) h body

theorem occursIn_strippedHint (b : FencedBlock) (body : Text) :
    Text.occursIn strippedHint (b.withSignatures strippedHint body).info = true := by
  have happend := Text.occursIn_append strippedHint (b.baseTag ++ signaturesEnding ++ [' ']) []
  simpa [withSignatures, refill] using happend

/-- A block loses its comments only once: its info says that they are gone. -/
theorem withoutComments?_of_withoutComments? (h : b.withoutComments? grammars = some c) :
    c.withoutComments? grammars = none := by
  obtain ⟨-, -, body, rfl⟩ := withoutComments?_eq_some h
  simp [withoutComments?, occursIn_strippedHint]

theorem toSymbols?_eq_some (h : b.toSymbols? grammars = some c) :
    ∃ listing, c = b.refill (b.tag ++ symbolsEnding) (listing ++ ['\n']) := by
  simp only [toSymbols?, Option.bind_eq_bind] at h
  split at h
  case isFalse => exact absurd h (by simp)
  simp only [Option.bind_eq_some_iff] at h
  obtain ⟨_, -, symbols, -, h⟩ := h
  split at h
  · exact absurd h (by simp)
  · exact ⟨Symbol.listing symbols, (Option.some.inj h).symm⟩

theorem refilled_of_toSymbols? (h : b.toSymbols? grammars = some c) : b.Refilled c := by
  obtain ⟨listing, rfl⟩ := toSymbols?_eq_some h
  have hrefilled : b.Refilled (b.refill (b.tag ++ symbolsEnding ++ []) (listing ++ ['\n'])) :=
    refilled_of_follows (fun _ => id) follows_symbols (Or.inr rfl) (Text.endsLine_append_lineFeed _)
  rw [List.append_nil] at hrefilled
  exact hrefilled

theorem toSymbols?_of_isCode (h : b.isCode = false) : b.toSymbols? grammars = none := by
  simp [toSymbols?, h]

end Condensed

end CodeAtlas.FencedBlock

/-!
## A tag that lengthens its fence

The first block below is fenced by tildes, and its tag starts with one. When the tag stands right
after the fence, the line reads as a fence of four tildes that nothing closes. The two lines after
it then make an empty block, and what was the body of the second block is a block of its own.
-/

namespace CodeAtlas.TildeTag

def note : Text := "# T\n\ntext text text text text\n".toList

private def heading : Tree :=
  .named "atx_heading" 0 4 ""
    [.named "atx_h1_marker" 0 1 "" [], .named "inline" 2 3 "heading_content" []]

def grammars : Grammars := fun language t =>
  if language = .markdown ∧ t = note then
    some (.named "document" 0 30 "" [.named "section" 0 30 ""
      [heading, .named "paragraph" 5 30 "" [.named "inline" 5 29 "" []]]])
  else if language = .markdown ∧ t = "# T\n".toList then
    some (.named "document" 0 4 "" [.named "section" 0 4 "" [heading]])
  else none

def text : Text :=
  "~~~ ~/t.md notes\n".toList ++ note ++ "~~~\n~~~\n```md notes\n".toList ++ note ++
    "```\n~~~\n".toList

end CodeAtlas.TildeTag
