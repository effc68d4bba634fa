import CodeAtlas.Extract.Finding
import CodeAtlas.Markdown.Section

/-!
# Symbols of a document

Each name is listed once: of several findings with the same name the one of the first rule counts.
-/

namespace CodeAtlas

/-- A symbol with what it competes by: where its name starts and which rule found it. -/
structure SymbolCandidate where
  symbol : Symbol
  nameStart : Nat
  rule : Nat

namespace SymbolCandidate

def same (a b : SymbolCandidate) : Bool := a.nameStart == b.nameStart

def better (a b : SymbolCandidate) : Bool :=
  a.rule < b.rule ||
    (a.rule == b.rule && a.symbol.extent.startPoint.before b.symbol.extent.startPoint)

end SymbolCandidate

namespace Finding

/-- The name of a finding, the node it is read from and the tag of its capture. -/
def name? (profile : Profile) (source : Buffer) (f : Finding) : Option (Text × Site × String) :=
  match f.captures.find? (role · == .name) with
  | some c => some (Text.trim (source.text c.site), c.site, captureTag c.name)
  | none => do
      let c ← f.captures.find? (role · == .declaration)
      return (← profile.declarationName source c.site, c.site, captureTag c.name)

/-- The declaration of a finding whose name is read from a node. -/
def declaration (f : Finding) (named : Site) : Site :=
  ((f.captures.find? (role · == .declaration)).map (·.site) <|> named.parent?).getD named

/-- The captured parts that a symbol keeps; a method also keeps what it belongs to. -/
def details (profile : Profile) (source : Buffer) (f : Finding) (kind : SymbolKind)
    (declaration : Site) : List Detail :=
  let kept := (f.captures.filter fun c => [.name, .parent, .other].contains (role c)).map
    fun c => Detail.mk c.name (source.text c.site)
  if kind = .method ∧ ¬ kept.any fun d => ".receiver".toList.isSuffixOf d.name.toList then
    ((profile.receiver source declaration).map (Detail.mk "method.receiver")).toList ++ kept
  else kept

def symbol? (profile : Profile) (source : Buffer) (f : Finding) : Option SymbolCandidate := do
  let (content, named, tag) ← f.name? profile source
  if content = [] then none
  else
    let declaration := f.declaration named
    let kind := profile.symbolKind source tag declaration
    some ⟨⟨content, kind, .ofSpan (f.span profile source),
        f.details profile source kind declaration, .ofSpan (source.span declaration)⟩,
      named.startByte, f.rule⟩

end Finding

def Symbol.shift (r : Region) (s : Symbol) : Symbol :=
  { s with extent := r.shiftExtent s.extent, declaration := r.shiftExtent s.declaration }

namespace Document

/-- The symbols of a document without those of its regions, by the places of their names. -/
def ownSymbols (d : Document) : List Symbol :=
  let best := keepBest SymbolCandidate.same SymbolCandidate.better
    (d.findings.filterMap (Finding.symbol? d.profile d.source))
  (sortBy (fun a b => a.nameStart ≤ b.nameStart) best).map (·.symbol)

/-- Symbols in source order; in a document of sections each heading reaches to the end of its
section. -/
def arrange (d : Document) (symbols : List Symbol) : List Symbol :=
  let sorted := sortBy Symbol.le symbols
  if d.language = .markdown then Markdown.sections d.text sorted else sorted

def symbols (grammars : Grammars) (d : Document) : Except ExtractError (List Symbol) := do
  let inner ← d.innerDocuments grammars
  let shifted := inner.flatMap fun (r, document) =>
    (document.arrange document.ownSymbols).map (Symbol.shift r)
  return d.arrange (d.ownSymbols ++ shifted)

end Document

end CodeAtlas
