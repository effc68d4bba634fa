import CodeAtlas.Block
import CodeAtlas.Extract.Document
import CodeAtlas.Extract.Finding

/-!
# Signatures and headers of a document

Each declaration gives one signature: of several findings with the same anchor the one that starts
first counts, and of those the one with the longest text. Package and import lines are the headers,
which are given as blocks with some lines around them.
-/

namespace CodeAtlas

/-- A signature with the anchor and the offset by which it competes with others. -/
structure SignatureCandidate where
  signature : Signature
  anchorStart : Nat
  anchorEnd : Nat
  start : Nat

namespace SignatureCandidate

def same (a b : SignatureCandidate) : Bool :=
  a.anchorStart == b.anchorStart && a.anchorEnd == b.anchorEnd

def better (a b : SignatureCandidate) : Bool :=
  a.start < b.start || (a.start == b.start &&
    Utf8.size b.signature.content < Utf8.size a.signature.content)

end SignatureCandidate

/-- The text of a signature: what its captures add one after the other. -/
def Finding.signatureText (profile : Profile) (source : Buffer) (f : Finding) : Text :=
  Text.trimEnd <| (f.captures.filter (role · != .embedded)).flatMap fun c =>
    profile.fragment ⟨source, c.name, c.site, f.depth, profile.indentUnit⟩

def candidate? (profile : Profile) (source : Buffer) (f : Finding) :
    Option SignatureCandidate :=
  let content := f.signatureText profile source
  if Text.isBlank content then none
  else
    let span := f.span profile source
    some ⟨⟨content, .ofSpan span⟩, f.anchor.startByte, f.anchor.endByte, span.startByte⟩

/-- Signatures in source order, each text once. -/
def Signature.distinct (signatures : List Signature) : List Signature :=
  (sortBy Signature.le signatures).eraseDupsBy fun a b => a.content == b.content

namespace Document

/-- The signatures of a document without those of its regions. -/
def ownSignatures (d : Document) : List Signature :=
  (keepBest SignatureCandidate.same SignatureCandidate.better
    (d.findings.filterMap (candidate? d.profile d.source))).map (·.signature)

def signatures (grammars : Grammars) (d : Document) : Except ExtractError (List Signature) := do
  let inner ← d.innerDocuments grammars
  let shifted := inner.flatMap fun (r, document) =>
    (Signature.distinct document.ownSignatures).map fun s =>
      { s with extent := r.shiftExtent s.extent }
  return Signature.distinct (d.ownSignatures ++ shifted)

end Document

end CodeAtlas

namespace CodeAtlas.Document

/-- The spans of the header lines of a document without those of its regions. -/
def ownHeaders (d : Document) : List Span :=
  (Query.run (Query.rules d.language .headers) d.source d.tree).flatMap fun m =>
    (m.captures.filter fun c => d.profile.isHeader c.site).map fun c => d.source.span c.site

def headerSpans (grammars : Grammars) (d : Document) : Except ExtractError (List Span) := do
  let inner ← d.innerDocuments grammars
  return d.ownHeaders ++ inner.flatMap fun (r, document) => document.ownHeaders.map r.shift

/-- The header blocks of a document with `context` lines around them. -/
def headers (grammars : Grammars) (d : Document) (context : Nat) :
    Except ExtractError (List Block) := do
  let spans ← d.headerSpans grammars
  return Block.normalize d.source.bytes context (spans.map fun s => ⟨s, none⟩)

end CodeAtlas.Document
