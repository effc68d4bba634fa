import CodeAtlas.Extract.CommentFree
import CodeAtlas.Extract.Signature
import CodeAtlas.Extract.Symbol
import CodeAtlas.Fence.Segment

/-!
# Shrinking and listing code

A text is brought down to a number of characters by condensing its code. First repeated blocks are
left out; then blocks are replaced by their signatures, and then signatures lose their comments,
block by block until the text fits. Instead, every block of code can be replaced by the list of its
symbols.
-/

namespace CodeAtlas

/-- What stands for a block that came before. -/
def repeatMark : Text := "[...]".toList

/-- What is said after the tag of a block of signatures. -/
def signaturesHint : Text := "(bodies omitted)".toList

/-- What is said after the tag of a block of signatures without comments. -/
def strippedHint : Text := "(bodies and comments omitted)".toList

/-- A text with a line feed at its end, unless it is empty. -/
def endLine (body : Text) : Text :=
  if body = [] ∨ body.getLast? = some '\n' then body else body ++ ['\n']

namespace FencedBlock

/-- The block with signatures for its body and a hint in its info. -/
def withSignatures (b : FencedBlock) (hint body : Text) : FencedBlock :=
  b.refill (b.baseTag ++ signaturesEnding ++ ' ' :: hint) body

/-- A block of code as its signatures, if that makes it shorter. -/
def toSignatures? (grammars : Grammars) (b : FencedBlock) : Option FencedBlock := do
  let language ← if b.isCode then b.language? else none
  let signatures ←
    (Document.read grammars language b.body >>= (·.signatures grammars)).toOption
  if signatures.isEmpty then none
  else
    let body := endLine (Text.joinWith ['\n'] (signatures.map (·.content)))
    let short := b.withSignatures signaturesHint body
    if short.render.length < b.render.length then some short else none

/-- A block of signatures without their comments, if that changes it. -/
def withoutComments? (grammars : Grammars) (b : FencedBlock) : Option FencedBlock := do
  let language ←
    if b.isSignatures && !Text.occursIn strippedHint b.info then b.language? else none
  let document ← (Document.read grammars language b.body).toOption
  let body := endLine document.commentFree
  if body = b.body then none else some (b.withSignatures strippedHint body)

end FencedBlock

namespace Segment

/-- Leave out the blocks of code that repeat one of `seen` or an earlier one. -/
def dropRepeated (seen : List FencedBlock) : List Segment → List Segment
  | [] => []
  | .block b :: rest =>
      if b.isCode then
        if seen.any fun other => other.render == b.render then
          .prose repeatMark :: dropRepeated seen rest
        else .block b :: dropRepeated (b :: seen) rest
      else .block b :: dropRepeated seen rest
  | .prose t :: rest => .prose t :: dropRepeated seen rest

def length (segments : List Segment) : Nat :=
  segments.foldr (fun s n => s.render.length + n) 0

/-- The places of the blocks, in order or the one with the longest body first. -/
def blockOrder (longestFirst : Bool) (segments : List Segment) : List Nat :=
  let bodies := segments.zipIdx.filterMap fun (s, i) =>
    match s with
    | .block b => some (b.body.length, i)
    | .prose _ => none
  (if longestFirst then sortBy (fun a b => b.1 ≤ a.1) bodies else bodies).map (·.2)

end Segment

/-- A text that is being shrunk: its segments, their length, and whether a block was condensed. -/
structure Draft where
  segments : List Segment
  length : Nat
  changed : Bool
  deriving Repr

namespace Draft

/-- Condense the block in one place, unless the draft fits already or the block stays as it is. -/
def condenseAt (limit : Nat) (condense : FencedBlock → Option FencedBlock) (d : Draft) (i : Nat) :
    Draft :=
  if d.length ≤ limit then d
  else match d.segments[i]? with
    | some (.block b) =>
        match condense b with
        | some short =>
            ⟨d.segments.set i (.block short),
              d.length - b.render.length + short.render.length, true⟩
        | none => d
    | _ => d

/-- Condense blocks one after the other until the draft fits. -/
def condenseIn (limit : Nat) (condense : FencedBlock → Option FencedBlock) (places : List Nat)
    (d : Draft) : Draft :=
  places.foldl (condenseAt limit condense) d

/-- The draft of a text before anything is condensed: repeated blocks are left out. -/
def ofText (text : Text) : Draft :=
  let segments := Segment.dropRepeated [] (Segment.ofText text)
  ⟨segments, Segment.length segments, false⟩

/-- Condense the blocks in some places to signatures, and then take the comments out of these. -/
def shorten (grammars : Grammars) (limit : Nat) (places : List Nat) (d : Draft) : Draft :=
  (d.condenseIn limit (·.toSignatures? grammars) places).condenseIn limit
    (·.withoutComments? grammars) places

/-- What shrinking makes of a text that is too long. -/
def shrunk (grammars : Grammars) (longestFirst : Bool) (limit : Nat) (text : Text) : Draft :=
  let draft := ofText text
  draft.shorten grammars limit (Segment.blockOrder longestFirst draft.segments)

end Draft

/-- Shrink the code in a text to at most `limit` characters, as far as that is possible. The second
component tells whether a block was condensed; leaving out repeated blocks does not count. -/
def shrink (grammars : Grammars) (longestFirst : Bool) (limit : Nat) (text : Text) : Text × Bool :=
  if text.length ≤ limit then (text, false)
  else
    let short := Draft.shrunk grammars longestFirst limit text
    (Segment.renderAll short.segments, short.changed)

/-- A block of code as the list of its symbols, if it has any. -/
def FencedBlock.toSymbols? (grammars : Grammars) (b : FencedBlock) : Option FencedBlock := do
  let language ← if b.isCode then b.language? else none
  let symbols ← (Document.read grammars language b.body >>= (·.symbols grammars)).toOption
  if symbols.isEmpty then none
  else some (b.refill (b.tag ++ symbolsEnding) (Symbol.listing symbols ++ ['\n']))

def Segment.symbolize (grammars : Grammars) : Segment → Segment
  | .block b => .block ((b.toSymbols? grammars).getD b)
  | .prose t => .prose t

def symbolize (grammars : Grammars) (text : Text) : Text :=
  Segment.renderAll ((Segment.ofText text).map (Segment.symbolize grammars))

end CodeAtlas
