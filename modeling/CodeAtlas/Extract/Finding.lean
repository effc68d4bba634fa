import CodeAtlas.Extract.Document

/-!
# Findings

A finding is a match of the outline query with its captures in source order, with only those
comments that stand directly above the declaration.
-/

namespace CodeAtlas

/-- A listed declaration: its captures in source order, the node that stands for it, and the number
of declarations around it. -/
structure Finding where
  rule : Nat
  captures : List Query.Capture
  anchor : Site
  depth : Nat
  deriving Repr

namespace Finding

def role (c : Query.Capture) : Role := Role.ofCaptureName c.name

private def captureBefore (a b : Query.Capture) : Bool :=
  a.site.startByte < b.site.startByte ||
    (a.site.startByte == b.site.startByte && b.site.endByte ≤ a.site.endByte)

/-- Captures by their start, the longer one first, each of them once. -/
def inOrder (captures : List Query.Capture) : List Query.Capture :=
  dedupRuns Query.Capture.same (sortBy captureBefore captures)

/-- Of comments given from the nearest to the farthest, those that reach down to a row without an
empty row between them. -/
def adjacentDocs (source : Buffer) (row : Nat) : List Query.Capture → List Query.Capture
  | [] => []
  | c :: rest =>
      if source.endRow c.site + 1 < row then []
      else c :: adjacentDocs source (source.startRow c.site) rest

/-- The captures in source order, without the comments that do not belong to the declaration. -/
def attached (source : Buffer) (captures : List Query.Capture) : List Query.Capture :=
  let docs := captures.takeWhile (role · == .doc)
  match captures.dropWhile (role · == .doc) with
  | [] => []
  | main :: rest =>
      (adjacentDocs source (source.startRow main.site) docs.reverse).reverse ++ main :: rest

/-- The node that stands for the declaration: the declaration, or else the parent of the name, or
else the first node that is no comment. -/
def anchorOf? (captures : List Query.Capture) : Option Site :=
  (captures.find? (role · == .declaration)).map (·.site) <|>
    ((captures.find? (role · == .name)).bind (·.site.parent?)) <|>
      (captures.find? (role · != .doc)).map (·.site)

/-- The finding of a match, if its declaration is listed. -/
def ofMatch? (profile : Profile) (source : Buffer) (m : Query.Match) : Option Finding := do
  let captures := attached source (inOrder m.captures)
  let anchor ← anchorOf? captures
  if profile.inScope anchor then
    some ⟨m.rule, captures, anchor, anchor.depthWithin profile.nesting⟩
  else none

def extendWith (acc : Option Span) (s : Span) : Option Span :=
  match acc with
  | some t => some (t.extend s)
  | none => some s

/-- The span of all captures that widen the finding, or else of its anchor. -/
def span (profile : Profile) (source : Buffer) (f : Finding) : Span :=
  let spans := (f.captures.filter fun c => profile.widens c.name (role c)).map
    fun c => source.span c.site
  (spans.foldl extendWith none).getD (source.span f.anchor)

end Finding

def Document.findings (d : Document) : List Finding :=
  d.outlineMatches.filterMap (Finding.ofMatch? d.profile d.source)

end CodeAtlas
