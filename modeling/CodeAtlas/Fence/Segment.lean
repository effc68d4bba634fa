import CodeAtlas.Language
import CodeAtlas.Text.Basic

/-!
# Fenced blocks and segments

Code in a text stands between fences: lines of at least three backticks or tildes. The line that
opens a block may say more after its fence; the first word there is the tag of the block. A text is
prose and fenced blocks by turns. A fence that nothing closes stays prose.
-/

namespace CodeAtlas

/-- A line that starts with a fence: the character it is made of, their number, and what follows. -/
structure FenceLine where
  marker : Char
  count : Nat
  rest : Text
  deriving DecidableEq, Repr, Inhabited

namespace FenceLine

/-- Read a line without its line feed as a fence; at most three spaces may stand before it. -/
def ofLine? (line : Text) : Option FenceLine :=
  let body := line.dropWhile (· == ' ')
  match body with
  | marker :: _ =>
      let count := (body.takeWhile (· == marker)).length
      if line.length - body.length ≤ 3 ∧ (marker = '\x60' ∨ marker = '~') ∧ 3 ≤ count then
        some ⟨marker, count, body.drop count⟩
      else none
  | [] => none

/-- Whether a fence may open a block: one of backticks has no backtick after it. -/
def canOpen (f : FenceLine) : Bool := !(f.marker == '\x60' && f.rest.contains '\x60')

def characters (f : FenceLine) : Text := List.replicate f.count f.marker

/-- Whether a line closes the block that a fence opens: it is a fence of the same character, at
least as long, with nothing after it. -/
def closedBy (f : FenceLine) (line : Text) : Bool :=
  match ofLine? line with
  | some g => g.marker == f.marker && f.count ≤ g.count && Text.isBlank g.rest
  | none => false

end FenceLine

/-- A block of code in a text. The opening and closing lines stand without their line feeds. -/
structure FencedBlock where
  opening : Text
  fence : Text
  info : Text
  body : Text
  closing : Text
  deriving DecidableEq, Repr, Inhabited

namespace FencedBlock

/-- The end of the tag of a block that holds signatures. -/
def signaturesEnding : Text := "-signatures".toList

/-- The end of the tag of a block that holds symbols. -/
def symbolsEnding : Text := "-symbols".toList

/-- The first word after the opening fence. -/
def tag (b : FencedBlock) : Text := (Text.words b.info).headD []

/-- Whether a block is a patch, which is never changed. -/
def isPatch (b : FencedBlock) : Bool :=
  Text.toLower b.tag == "diff".toList || Text.toLower b.tag == "patch".toList

def isSignatures (b : FencedBlock) : Bool := signaturesEnding.isSuffixOf b.tag

def isSymbols (b : FencedBlock) : Bool := symbolsEnding.isSuffixOf b.tag

def isCode (b : FencedBlock) : Bool := !b.isPatch && !b.isSignatures && !b.isSymbols

/-- The tag of the code that a block was made from. -/
def baseTag (b : FencedBlock) : Text :=
  (Text.stripSuffix? signaturesEnding b.tag <|> Text.stripSuffix? symbolsEnding b.tag).getD b.tag

/-- The language of a block, or of the code it was made from. -/
def language? (b : FencedBlock) : Option Language := Language.ofTag? b.baseTag

/-- The block with another info and body between the same fences. -/
def refill (b : FencedBlock) (info body : Text) : FencedBlock :=
  { b with opening := b.fence ++ info, info := info, body := body, closing := b.fence }

def render (b : FencedBlock) : Text := b.opening ++ '\n' :: b.body ++ b.closing

end FencedBlock


inductive Segment where
  | prose (t : Text)
  | block (b : FencedBlock)
  deriving DecidableEq, Repr, Inhabited

namespace Segment

def render : Segment → Text
  | prose t => t
  | block b => b.render

def renderAll (segments : List Segment) : Text := segments.flatMap render

/-- Where reading stands: in prose, or in a block that a later line closes. -/
inductive Place where
  | inProse (read : Text)
  | inBlock (opening : Text) (fence : FenceLine) (body : Text)

/-- A text as prose, unless it is empty. -/
def ofProse (t : Text) : List Segment := if t = [] then [] else [prose t]

/-- The fence of a line that opens a block closed by one of the lines after it. -/
def opens? (line : Text) (later : List Text) : Option FenceLine := do
  let f ← FenceLine.ofLine? (Text.dropLineFeed line)
  if f.canOpen && later.any (f.closedBy <| Text.dropLineFeed ·) then some f else none

/-- The segments of some lines, each with its line feed, read from a place on. -/
def ofLines (place : Place) : List Text → List Segment
  | [] =>
      match place with
      | .inProse read => ofProse read
      | .inBlock .. => []
  | line :: rest =>
      let plain := Text.dropLineFeed line
      match place with
      | .inProse read =>
          match opens? line rest with
          | some f => ofProse read ++ ofLines (.inBlock plain f []) rest
          | none => ofLines (.inProse (read ++ line)) rest
      | .inBlock opening f body =>
          if f.closedBy plain then
            -- The line feed after the closing line belongs to the prose that follows.
            block ⟨opening, f.characters, Text.trim f.rest, body, plain⟩ ::
              ofLines (.inProse (line.drop plain.length)) rest
          else ofLines (.inBlock opening f (body ++ line)) rest

def ofText (t : Text) : List Segment := ofLines (.inProse []) (Text.linesWithEnds t)

end Segment

end CodeAtlas
