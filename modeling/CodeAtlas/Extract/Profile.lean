import CodeAtlas.Language
import CodeAtlas.Symbol.Basic
import CodeAtlas.Syntax.Buffer
import CodeAtlas.Text.Basic

/-!
# Language profiles

How the declarations of a language are listed: what each captured part adds to a signature, which
parts belong to the extent, which declarations are listed at all, and how symbols are classified.
The last part of a capture name tells what the captured node is to the declaration; the first part
tells what kind of declaration it is.
-/

namespace CodeAtlas

/-- What a captured node is to its declaration. -/
inductive Role where
  /-- The name under which it is listed. -/
  | name
  /-- The declaration itself. -/
  | declaration
  /-- The part that a signature leaves out. -/
  | body
  /-- A comment in front of it. -/
  | doc
  /-- A region in another language. -/
  | embedded
  /-- Something around it that only narrows the match. -/
  | parent
  | other
  deriving DecidableEq, Repr, Inhabited

namespace Role

private def ends (ending name : String) : Bool := ending.toList.isSuffixOf name.toList

def ofCaptureName (capture : String) : Role :=
  if "parent.".toList.isPrefixOf capture.toList then parent
  else if capture = "name" ∨ ends ".name" capture then name
  else if capture = "definition" ∨ ends ".declaration" capture then declaration
  else if ends ".body" capture then body
  else if capture = "doc" ∨ ends ".doc" capture then doc
  else if ends ".embedded" capture then embedded
  else other

/-- Whether captures of the role usually belong to the extent of what is found. -/
def widens : Role → Bool
  | declaration | body | parent | embedded => false
  | name | doc | other => true

end Role

/-- The first part of a capture name, which stands before its first dot. -/
def captureTag (capture : String) : String :=
  match Text.splitOnce '.' capture.toList with
  | some (tag, _) => String.ofList tag
  | none => capture

/-- A captured part of a declaration: `depth` declarations enclose it, and each is shown with one
more indent unit. -/
structure Part where
  source : Buffer
  capture : String
  site : Site
  depth : Nat
  indentUnit : Text

namespace Part

def text (p : Part) : Text := p.source.text p.site

/-- The indent of declarations that are `depth` levels deep. -/
def indentAt (p : Part) (depth : Nat) : Text := (List.replicate depth p.indentUnit).flatten

def indent (p : Part) : Text := p.indentAt p.depth

/-- A text that stands in the column of a node, moved to the indent of the declaration. -/
def reindent (p : Part) (s : Site) (t : Text) : Text :=
  Text.reindent t (p.source.startColumn s) p.indent

def line (p : Part) : Text := p.reindent p.site p.text ++ ['\n']

def fieldText (p : Part) (s : Option Site) (field : String) : Text :=
  match s.bind (·.childByField? field) with
  | some child => p.source.text child
  | none => []

end Part

/-- How definitions of a name are found. -/
inductive Lookup where
  /-- By the definition queries. -/
  | byQuery
  /-- In the list of symbols. -/
  | bySymbols
  /-- Only in embedded regions. -/
  | inRegions
  deriving DecidableEq, Repr, Inhabited

/-- The name of the nearest parent that is of one of some kinds and has a name. -/
def enclosingName? (kinds : List String) (source : Buffer) (s : Site) : Option Text :=
  s.ancestors.findSome? fun a =>
    if kinds.contains a.kind then (a.childByField? "name").map source.text else none

structure Profile where
  /-- What a captured part adds to the signature. -/
  fragment : Part → Text
  /-- Whether a capture belongs to the extent of what is found. -/
  widens : String → Role → Bool := fun _ role => role.widens
  /-- The kinds of declarations that indent what they hold. -/
  nesting : List String := []
  /-- One level of indentation. -/
  indentUnit : Text := ['\t']
  /-- Whether a declaration is listed. -/
  inScope : Site → Bool := fun _ => true
  /-- The kind of a symbol by the tag of its capture and its declaration. -/
  symbolKind : Buffer → String → Site → SymbolKind := fun _ tag _ => .ofTag tag
  /-- The name of a declaration that is found without a name. -/
  declarationName : Buffer → Site → Option Text := fun _ _ => none
  /-- What a method belongs to, if its pattern does not tell. -/
  receiver : Buffer → Site → Option Text := enclosingName? nesting
  /-- The language of an embedded region. -/
  embedded : Buffer → Site → Option Language := fun _ _ => none
  /-- Whether a node found by the headers query is a header line. -/
  isHeader : Site → Bool := fun _ => true
  /-- How definitions of a name are found. -/
  lookup : Lookup := .byQuery

end CodeAtlas
