import CodeAtlas.Error
import CodeAtlas.Extract.CommentFree
import CodeAtlas.Extract.Definition
import CodeAtlas.Extract.Signature
import CodeAtlas.File.System
import CodeAtlas.Language

/-!
# Source files

What can be asked of a text in a known language under a path, and of the file at a path.
-/

namespace CodeAtlas

/-- The language of a file, if its path tells. -/
def Language.infer (p : Path) : Except ExtractError Language :=
  match ofPath? p with
  | some language => .ok language
  | none => .error (.unsupportedLanguage p.text)

/-- A text in a language under a path. -/
structure SourceFile where
  path : Path
  language : Language
  text : Text
  deriving DecidableEq, Repr

namespace SourceFile

private def read (grammars : Grammars) (f : SourceFile) : Except ExtractError Document :=
  Document.read grammars f.language f.text

def signatures (grammars : Grammars) (f : SourceFile) : Except ExtractError (List Signature) := do
  (← f.read grammars).signatures grammars

/-- The symbols in a file; a component takes the stem of the file name. -/
def symbols (grammars : Grammars) (f : SourceFile) : Except ExtractError (List Symbol) := do
  let symbols ← (← f.read grammars).symbols grammars
  return match f.path.stem? with
    | some stem =>
        symbols.map fun s => if s.kind = .component then { s with content := stem } else s
    | none => symbols

def headers (grammars : Grammars) (f : SourceFile) (context : Nat) :
    Except ExtractError (List Block) := do
  (← f.read grammars).headers grammars context

def definition (grammars : Grammars) (f : SourceFile) (name : Text) (context : Nat) :
    Except ExtractError (List Block) := do
  (← f.read grammars).definition grammars name context

def definitions (grammars : Grammars) (f : SourceFile) : Except ExtractError (List Hit) := do
  (← f.read grammars).definitions grammars

def commentFree (grammars : Grammars) (f : SourceFile) : Except ExtractError Text := do
  return (← f.read grammars).commentFree

/-- The texts of some blocks of a file, one below the other. -/
def blockTexts (f : SourceFile) (blocks : List Block) : Text :=
  Text.joinWith ['\n'] (blocks.map (Block.text (Utf8.encode f.text)))

end SourceFile

end CodeAtlas

namespace CodeAtlas.SourceFile

/-- The source at a path; its language has to be known before it is read. -/
def load (fs : FileSystem) (path : Path) : Except Error SourceFile := do
  let language ← (Language.infer path).mapError .extract
  let text ← (fs.readText path).mapError .file
  return ⟨path, language, text⟩

/-- What a source gives, with errors of extraction among all errors. -/
def ask {α : Type} (fs : FileSystem) (path : Path) (question : SourceFile → Except ExtractError α) :
    Except Error (SourceFile × α) := do
  let f ← load fs path
  return (f, ← (question f).mapError .extract)

end CodeAtlas.SourceFile
