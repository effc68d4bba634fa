import CodeAtlas.Block
import CodeAtlas.Extract.Symbol
import CodeAtlas.Query.Template
import CodeAtlas.Symbol.Spelling

/-!
# Definitions

Where a name is defined. A name may be qualified by the name of what encloses it, as in
`Parent.child`; where nothing of that name stands in such a parent, the child alone is looked for.
-/

namespace CodeAtlas

structure Hit where
  span : Span
  name : Option Span
  symbol : Text
  deriving DecidableEq, Repr, Inhabited

namespace Hit

def shift (r : Region) (h : Hit) : Hit :=
  { h with span := r.shift h.span, name := h.name.map r.shift }

def block (h : Hit) : Block :=
  match h.name with
  | some name => Block.withName ⟨h.span, none⟩ name
  | none => ⟨h.span, none⟩

end Hit

/-- Whether no row lies between two spans. -/
def Span.directlyAbove (earlier later : Span) : Bool :=
  later.startPoint.row ≤ earlier.endPoint.row + 1

/-- The span of a node together with a block of comments directly above it. -/
def joinAbove (source : Buffer) (waiting : Option Span) (s : Site) : Span :=
  let span := source.span s
  match waiting.filter (·.directlyAbove span) with
  | some block => if s.isComment then block.extend span else span.extend block
  | none => span

/-- Read the captured nodes of a definition in source order: `waiting` is a block of comments that
belongs to a declaration directly below it. Each declaration gives one span. -/
def foldComments (source : Buffer) (waiting : Option Span) : List Site → List Span
  | [] => []
  | s :: rest =>
      if s.isComment then foldComments source (some (joinAbove source waiting s)) rest
      else joinAbove source waiting s :: foldComments source none rest

private def siteBefore (a b : Site) : Bool :=
  a.startByte < b.startByte || (a.startByte == b.startByte && b.endByte ≤ a.endByte)

/-- The nodes that a match declares, in source order and each of them once. -/
def declaredSites (m : Query.Match) : List Site :=
  dedupRuns Site.same <| sortBy siteBefore <|
    (m.captures.filter fun c => Role.ofCaptureName c.name = .declaration).map (·.site)

def hitsOfMatch (source : Buffer) (m : Query.Match) : List Hit :=
  let name := (m.captures.find? fun c => Role.ofCaptureName c.name = .name).map (·.site)
  (foldComments source none (declaredSites m)).map fun span =>
    ⟨span, name.map source.span, (name.map source.text).getD []⟩

private def nameStart (h : Hit) : Nat := (h.name.map (·.startByte)).getD 0

namespace Document

/-- The hits of a definition query, in the order in which their names start. This stands in for the
order in which a search through the tree completes its matches. -/
def queryHits (d : Document) (purpose : Query.Purpose) (render : Text → Text) :
    Except ExtractError (List Hit) :=
  match Query.text? d.language purpose with
  | none => .ok []
  | some template =>
      match Query.read? (render template) with
      | none =>
          .error (.badQuery d.language.name.toList purpose.name.toList "malformed query".toList)
      | some rules =>
          .ok <| sortBy (fun a b => nameStart a ≤ nameStart b) <|
            (Query.run rules d.source d.tree).flatMap (hitsOfMatch d.source)

def symbolHit (d : Document) (s : Symbol) : Hit where
  span := d.source.lines.spanOf (d.source.lines.byteOf s.extent.startPoint)
    (d.source.lines.byteOf s.extent.endPoint)
  name := none
  symbol := s.content

/-- The symbols that can be asked for by a name. -/
def symbolsSpelled (symbols : List Symbol) (name : Text) : List Symbol :=
  symbols.filter (·.spellings.contains name)

/-- The symbols with a name; of a qualified name, those declared inside the parent, or else all
with the name of the child. -/
def symbolsNamed (symbols : List Symbol) (name : Text) : List Symbol :=
  match symbolsSpelled symbols name, Text.splitOnce '.' name with
  | [], some (parent, child) =>
      let parents := symbolsSpelled symbols parent
      let children := symbolsSpelled symbols child
      match children.filter fun c => parents.any fun p => p.declaration.encloses c.declaration with
      | [] => children
      | inside => inside
  | direct, _ => direct

/-- The hits for a name by the definition queries. -/
def hitsByQuery (d : Document) (name : Text) : Except ExtractError (List Hit) :=
  match Text.splitOnce '.' name with
  | some (parent@(_ :: _), child@(_ :: _)) => do
      match ← d.queryHits .parentDefinition (Query.fill · child (some parent)) with
      | [] => d.queryHits .definition (Query.fill · child none)
      | qualified => return qualified
  | _ => d.queryHits .definition (Query.fill · name none)

/-- The hits for a name in a document without those in its regions. -/
def ownHits (grammars : Grammars) (d : Document) (name : Text) :
    Except ExtractError (List Hit) :=
  match d.profile.lookup with
  | .byQuery => d.hitsByQuery name
  | .bySymbols => do return (symbolsNamed (← d.symbols grammars) name).map d.symbolHit
  | .inRegions => .ok []

/-- The hits for a name in the first of some regions that has any. -/
def firstHits (grammars : Grammars) (name : Text) : List Region → Except ExtractError (List Hit)
  | [] => .ok []
  | r :: rest => do
      let inner ← read grammars r.language r.text
      match ← inner.ownHits grammars name with
      | [] => firstHits grammars name rest
      | hits => return hits.map (Hit.shift r)

/-- The hits for a name: those of the document, or else those of the first region with any. -/
def hits (grammars : Grammars) (d : Document) (name : Text) : Except ExtractError (List Hit) := do
  match ← d.ownHits grammars name with
  | [] => firstHits grammars name d.regions
  | own => return own

/-- The blocks that define a name, with `context` lines around them. -/
def definition (grammars : Grammars) (d : Document) (name : Text) (context : Nat) :
    Except ExtractError (List Block) := do
  match ← d.hits grammars name with
  | [] => throw (.symbolNotFound name)
  | hits => return Block.normalize d.source.bytes context (hits.map Hit.block)

/-- All definitions of a document without those of its regions. -/
def ownDefinitions (grammars : Grammars) (d : Document) : Except ExtractError (List Hit) :=
  match d.profile.lookup with
  | .byQuery => d.queryHits .definition Query.dropSlotTests
  | .bySymbols => do return (← d.symbols grammars).map d.symbolHit
  | .inRegions => .ok []

def allHits (grammars : Grammars) (d : Document) : Except ExtractError (List Hit) := do
  let own ← d.ownDefinitions grammars
  let inner ← (← d.innerDocuments grammars).mapM fun (r, document) => do
    return (← document.ownDefinitions grammars).map (Hit.shift r)
  return own ++ inner.flatten

end Document

/-- Keep the hits that are not inside an earlier one with the same name. -/
def outermost (kept : List Hit) : List Hit → List Hit
  | [] => kept.reverse
  | h :: rest =>
      if kept.any fun outer => outer.symbol == h.symbol && outer.span.contains h.span then
        outermost kept rest
      else outermost (h :: kept) rest

/-- All named definitions of a document in source order; one inside another of the same name is
left out. -/
def Document.definitions (grammars : Grammars) (d : Document) :
    Except ExtractError (List Hit) := do
  let named := (← d.allHits grammars).filter (·.symbol ≠ [])
  return outermost [] (sortBy (fun a b => a.span.startsBefore b.span) named)

end CodeAtlas
