import CodeAtlas.Text.Basic
import CodeAtlas.Text.Utf8

/-!
# Chunks

An outline cut into chunks of about a good size. A chunk ends where the indentation drops, or else
after an empty line, or else after any line; chunks put together give the outline again.
-/

namespace CodeAtlas.Chunk

/-- The number of bytes of white space in front of a line that is not blank. -/
def indentation? (line : Text) : Option Nat :=
  if Text.isBlank line then none else some (Utf8.size (line.takeWhile Text.blankChar))

/-- Pieces of lines, each ending with a line that is less indented than the line before; `piece` is
what the current piece holds so far, and `last` the indentation of the line before. -/
def splitOnDedent (piece : Text) (last : Option Nat) : List Text → List Text
  | [] => if piece = [] then [] else [piece]
  | line :: rest =>
      match indentation? line with
      | none => splitOnDedent (piece ++ line) last rest
      | some indent =>
          if last.any (indent < ·) then
            (piece ++ line) :: splitOnDedent [] (some indent) rest
          else splitOnDedent (piece ++ line) (some indent) rest

/-- Join neighbours as long as they stay within the good size; `chunk` is what the current chunk
holds so far. -/
def joinSmall (good : Nat) (chunk : Text) : List Text → List Text
  | [] => if chunk = [] then [] else [chunk]
  | piece :: rest =>
      if chunk ≠ [] ∧ good < chunk.length + piece.length then
        chunk :: joinSmall good piece rest
      else joinSmall good (chunk ++ piece) rest

/-- Where a text can be cut: after the first occurrence of `mark` that starts at or after `start`,
but not at the end of the text. -/
def cutAfter? (t mark : Text) (start : Nat) : Option Nat := do
  let (before, _) ← Text.splitOnceText mark (t.drop start)
  let cut := start + before.length + mark.length
  if cut < t.length then some cut else none

/-- Where a text is cut: after an empty line past the good size, or else after a line past it. -/
def cut? (good : Nat) (t : Text) : Option Nat :=
  cutAfter? t ['\n', '\n'] good <|> cutAfter? t ['\n'] good

theorem cutAfter?_bounds {t mark : Text} {start cut : Nat} (h : cutAfter? t mark start = some cut) :
    start + mark.length ≤ cut ∧ cut < t.length := by
  obtain ⟨⟨before, after⟩, -, h⟩ := Option.bind_eq_some_iff.mp h
  obtain ⟨hlt, hcut⟩ := Option.ite_none_right_eq_some.mp h
  rw [Option.some.injEq] at hcut
  omega

/-- A cut leaves something on both sides. -/
theorem cut?_bounds {t : Text} {good cut : Nat} (h : cut? good t = some cut) :
    0 < cut ∧ cut < t.length := by
  rw [cut?, Option.orElse_eq_orElse, Option.orElse_eq_or, Option.or_eq_some_iff] at h
  rcases h with h | ⟨-, h⟩
  · have := cutAfter?_bounds h
    simp only [List.length_cons] at this
    omega
  · have := cutAfter?_bounds h
    simp only [List.length_cons] at this
    omega

/-- Cut a text until what is left has at most `most` characters or cannot be cut. Every cut takes
something away. -/
def splitLong (good most : Nat) (t : Text) : List Text :=
  if most < t.length then
    match _h : cut? good t with
    | some cut => t.take cut :: splitLong good most (t.drop cut)
    | none => [t]
  else if t = [] then [] else [t]
termination_by t.length
decreasing_by
  have := cut?_bounds _h
  rw [List.length_drop]
  omega

def ofText (t : Text) (good most : Nat) : List Text :=
  (joinSmall good [] (splitOnDedent [] none (Text.linesWithEnds t))).flatMap fun chunk =>
    if most < chunk.length then splitLong good most chunk else [chunk]

end CodeAtlas.Chunk
