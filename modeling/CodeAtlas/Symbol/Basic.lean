import CodeAtlas.Position
import CodeAtlas.Text.Basic

/-!
# Signatures and symbols

A signature is the text of a declaration without its body; a symbol is a name that a source lists,
with what it stands for and where it is declared.
-/

namespace CodeAtlas

inductive SymbolKind where
  | function
  | method
  | typeName
  | variableName
  | hoistedVariable
  | constant
  | interface
  | classType
  | enumeration
  | heading
  | underlinedHeading
  | frontMatter
  | component
  | unknown
  deriving DecidableEq, Repr, Inhabited

namespace SymbolKind

def all : List SymbolKind :=
  [function, method, typeName, variableName, hoistedVariable, constant, interface, classType,
    enumeration, heading, underlinedHeading, frontMatter, component, unknown]

def name : SymbolKind → String
  | function => "function"
  | method => "method"
  | typeName => "type"
  | variableName => "variable"
  | hoistedVariable => "non_lexical_variable"
  | constant => "const_variable"
  | interface => "interface"
  | classType => "class"
  | enumeration => "enum"
  | heading => "heading"
  | underlinedHeading => "setext_heading"
  | frontMatter => "frontmatter"
  | component => "sfc"
  | unknown => ""

def ofName? (name : String) : Option SymbolKind := all.find? (·.name == name)

/-- The kind that the first part of a capture name stands for. -/
def ofTag (tag : String) : SymbolKind :=
  match tag with
  | "function" => function
  | "method" | "constructor" => method
  | "type" => typeName
  | "var" | "variable" | "property" | "field" => variableName
  | "non_lexical_variable" => hoistedVariable
  | "const" | "const_variable" => constant
  | "interface" => interface
  | "class" | "record" | "object" => classType
  | "enum" => enumeration
  | "heading" => heading
  | "setext_heading" => underlinedHeading
  | "frontmatter" => frontMatter
  | "sfc" => component
  | _ => unknown

/-- Whether symbols of the kind open a section of a document. -/
def isHeading (k : SymbolKind) : Bool := k = heading || k = underlinedHeading

end SymbolKind

/-- Two points that enclose a part of a source. -/
structure Extent where
  startPoint : Point
  endPoint : Point
  deriving DecidableEq, Repr, Inhabited

namespace Extent

def ofSpan (s : Span) : Extent := ⟨s.startPoint, s.endPoint⟩

def shift (base : Point) (e : Extent) : Extent := ⟨base.shift e.startPoint, base.shift e.endPoint⟩

def encloses (e other : Extent) : Bool :=
  !other.startPoint.before e.startPoint && !e.endPoint.before other.endPoint

/-- Extents by their start, then by their end. -/
instance : Ord Extent :=
  ⟨fun a b => (compare a.startPoint b.startPoint).then (compare a.endPoint b.endPoint)⟩

end Extent

/-- The text of a declaration without its body. -/
structure Signature where
  content : Text
  extent : Extent
  deriving DecidableEq, Repr, Inhabited

namespace Signature

/-- Signatures by place, then by text. -/
def le (a b : Signature) : Bool :=
  ((compare a.extent b.extent).then (compare a.content b.content)).isLE

/-- The line between signatures. -/
def separator : Text := "\n---\n".toList

/-- Each signature followed by a separator. -/
def listing (signatures : List Signature) : Text :=
  signatures.flatMap fun s => s.content ++ separator

end Signature

/-- A part of a declaration kept with its symbol. -/
structure Detail where
  name : String
  content : Text
  deriving DecidableEq, Repr, Inhabited

structure Symbol where
  content : Text
  kind : SymbolKind
  extent : Extent
  details : List Detail
  declaration : Extent
  deriving DecidableEq, Repr, Inhabited

namespace Symbol

/-- The text of the first detail whose name has a given end. -/
def detail? (s : Symbol) (ending : String) : Option Text :=
  (s.details.find? fun d => ending.toList.isSuffixOf d.name.toList).map (·.content)

/-- Symbols by place, then by name. -/
def le (a b : Symbol) : Bool :=
  ((compare a.extent b.extent).then (compare a.content b.content)).isLE

/-- The names of symbols with commas between them. -/
def listing (symbols : List Symbol) : Text :=
  Text.joinWith ", ".toList (symbols.map (·.content))

end Symbol

end CodeAtlas
