import CodeAtlas.Path
import CodeAtlas.Text.Utf8

/-!
# Outline entries

What an outline of a directory says of each file and directory.

A directory is a line with its path and a slash; a file is a line with its name, followed by what is
listed of it. Before a file that is not in the directory shown last, the way down to its directory
is shown, and again after a long stretch without a directory line.
-/

namespace CodeAtlas

inductive OutlineKind where
  | signatures
  | symbols
  deriving DecidableEq, Repr, Inhabited

def OutlineKind.name : OutlineKind → String
  | signatures => "signatures"
  | symbols => "symbols"

def OutlineKind.ofName? : String → Option OutlineKind
  | "signatures" => some signatures
  | "symbols" => some symbols
  | _ => none

inductive EntryKind where
  | file (listed : OutlineKind)
  | directory
  | unhandled
  deriving DecidableEq, Repr, Inhabited

namespace EntryKind

def name : EntryKind → String
  | file .signatures => "fileSignature"
  | file .symbols => "fileSymbol"
  | directory => "dirNoop"
  | unhandled => "fileUnhandled"

def ofName? : String → Option EntryKind
  | "fileSignature" => some (file .signatures)
  | "fileSymbol" => some (file .symbols)
  | "dirNoop" => some directory
  | "fileUnhandled" => some unhandled
  | _ => none

end EntryKind

/-- An entry of an outline, its path relative to the directory. -/
structure OutlineEntry where
  path : Path
  kind : EntryKind
  content : Text
  deriving DecidableEq, Repr

end CodeAtlas

namespace CodeAtlas.OutlineEntry

private def shown (p : Path) : Text := p.text.map fun c => if c = '\\' then '/' else c

def directoryLine (p : Path) : Text := shown p ++ ['/', '\n']

/-- The lines of a directory and of all directories above it, the outermost first; the outlined
directory itself is a dot. -/
def directoryChain (p : Path) : Text :=
  if p.text = [] then "./\n".toList
  else (p.ancestors.filter (·.text ≠ [])).reverse.flatMap directoryLine

/-- The name line of a file and what is listed of it. -/
def fileText (e : OutlineEntry) : Text :=
  let content :=
    if e.content = [] ∨ e.content.getLast? = some '\n' then e.content else e.content ++ ['\n']
  e.path.fileName?.getD (shown e.path) ++ '\n' :: content

def directory (e : OutlineEntry) : Path := e.path.parent?.getD ⟨[]⟩

/-- Render entries after `since` bytes were written below the line of the directory `current`. -/
def renderFrom (reprintAfter : Nat) (current : Path) (since : Nat) : List OutlineEntry → Text
  | [] => []
  | e :: rest =>
      if e.kind = .directory then
        directoryLine e.path ++ renderFrom reprintAfter e.path 0 rest
      else
        let text := e.fileText
        let moved := !e.directory.same current
        let drifted := reprintAfter < since && e.directory.text ≠ []
        if moved || drifted then
          directoryChain e.directory ++ text ++
            renderFrom reprintAfter e.directory (Utf8.size text) rest
        else text ++ renderFrom reprintAfter current (since + Utf8.size text) rest

def render (reprintAfter : Nat) (entries : List OutlineEntry) : Text :=
  renderFrom reprintAfter ⟨[]⟩ 0 entries

end CodeAtlas.OutlineEntry
