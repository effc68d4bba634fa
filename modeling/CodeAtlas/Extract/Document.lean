import CodeAtlas.Extract.Languages
import CodeAtlas.Query.Catalog
import CodeAtlas.Query.Match
import CodeAtlas.Symbol.Basic
import CodeAtlas.Text.Basic

/-!
# Documents

A document is a source with its language and its syntax tree. It may hold regions in another
language, which are documents of their own.
-/

namespace CodeAtlas

/-- Why nothing can be extracted from a source. -/
inductive ExtractError where
  /-- The path does not tell the language. -/
  | unsupportedLanguage (path : Text)
  /-- A query is malformed. -/
  | badQuery (language purpose reason : Text)
  /-- The source has no syntax tree. -/
  | noTree (language : Text)
  /-- No definition has the name. -/
  | symbolNotFound (name : Text)
  deriving DecidableEq, Repr, Inhabited

def ExtractError.message : ExtractError → Text
  | unsupportedLanguage path => "cannot infer language: ".toList ++ path
  | badQuery language purpose reason =>
      "failed to compile ".toList ++ purpose ++ " query for ".toList ++ language ++
        ": ".toList ++ reason
  | noTree language => "failed to parse ".toList ++ language ++ " source".toList
  | symbolNotFound name => "symbol not found: ".toList ++ name

def Language.profile : Language → Profile
  | go => .go
  | python => .python
  | typeScript | tsx => .typeScript
  | java => .java
  | kotlin => .kotlin
  | vue => .vue
  | markdown => .markdown

abbrev Grammars := Language → Text → Option Tree

/-- A source with its syntax tree. -/
structure Document where
  language : Language
  text : Text
  source : Buffer
  tree : Tree

namespace Document

def read (grammars : Grammars) (language : Language) (text : Text) :
    Except ExtractError Document :=
  match grammars language text with
  | some tree => .ok ⟨language, text, .ofText text, tree⟩
  | none => .error (.noTree language.name.toList)

def profile (d : Document) : Profile := d.language.profile

def outlineMatches (d : Document) : List Query.Match :=
  Query.run (Query.rules d.language .outline) d.source d.tree

end Document

structure Region where
  language : Language
  span : Span
  text : Text
  deriving Repr

namespace Region

def shiftPoint (r : Region) (p : Point) : Point := r.span.startPoint.shift p

def shiftExtent (r : Region) (e : Extent) : Extent := e.shift r.span.startPoint

/-- A span of the region seen from its host. -/
def shift (r : Region) (s : Span) : Span := s.shift r.span.startByte r.span.startPoint

end Region

namespace Document

/-- The regions of a document whose language is known. -/
def regions (d : Document) : List Region :=
  d.outlineMatches.flatMap fun m => m.captures.filterMap fun c =>
    if Role.ofCaptureName c.name = .embedded then
      (d.profile.embedded d.source c.site).map fun language =>
        ⟨language, d.source.span c.site, d.source.text c.site⟩
    else none

def innerDocuments (grammars : Grammars) (d : Document) :
    Except ExtractError (List (Region × Document)) :=
  d.regions.mapM fun r => do return (r, ← read grammars r.language r.text)

end Document

end CodeAtlas
