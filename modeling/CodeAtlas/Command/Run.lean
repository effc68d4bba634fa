import CodeAtlas.Block
import CodeAtlas.Cache
import CodeAtlas.Command.Request
import CodeAtlas.Config
import CodeAtlas.Error
import CodeAtlas.Extract.Definition
import CodeAtlas.Extract.SourceFile
import CodeAtlas.Fence.Shrink
import CodeAtlas.Json.Basic
import CodeAtlas.Outline.Chunk
import CodeAtlas.Outline.Entry
import CodeAtlas.Outline.Generate
import CodeAtlas.Symbol.Basic
import CodeAtlas.Symbol.Spelling

/-!
# Running commands

A run reads a file system and gives what is printed, how it ends, and the file system afterwards.
-/

namespace CodeAtlas

private def Point.toJson (p : Point) : Json.Value :=
  .ofFields [("row", .ofNat p.row), ("column", .ofNat p.column)]

private def Extent.fields (e : Extent) : List (String × Json.Value) :=
  [("start_point", e.startPoint.toJson), ("end_point", e.endPoint.toJson)]

private def Detail.toJson (d : Detail) : Json.Value :=
  .ofFields [("name", .ofString d.name), ("content", .string d.content)]

def Symbol.toJson (s : Symbol) : Json.Value :=
  .ofFields ([("content", .string s.content), ("symbol_type", .ofString s.kind.name)] ++
    s.extent.fields ++
    [("source_captures", .array (s.details.map Detail.toJson)),
      ("declaration", .ofFields s.declaration.fields)])

private def Span.toJson (s : Span) : Json.Value :=
  .ofFields ([("start_byte", .ofNat s.startByte), ("end_byte", .ofNat s.endByte)] ++
    (Extent.ofSpan s).fields)

def Hit.toJson (source : Bytes) (h : Hit) : Json.Value :=
  .ofFields [("symbol_name", .string h.symbol), ("text", .string (h.block.text source)),
    ("range", h.block.span.toJson)]

def OutlineEntry.toJson (e : OutlineEntry) : Json.Value :=
  .ofFields [("path", .string e.path.text), ("outline_type", .ofString e.kind.name),
    ("content", .string e.content)]

/-- What a run prints and how it ends. -/
structure Outcome where
  output : Text
  failure : Option Report
  files : FileSystem

/-- How a whole command line is answered. -/
structure Response where
  code : Nat
  output : Text
  /-- What is reported of an error. -/
  report : Option Text
  files : FileSystem

namespace Command

private def printLine (t : Text) : Text := t ++ ['\n']

private def printJson (v : Json.Value) : Text := printLine (Json.render v)

private def askFile {α : Type} (fs : FileSystem) (file : Path)
    (question : SourceFile → Except ExtractError α) : Except Report (SourceFile × α) :=
  (SourceFile.ask fs file question).mapError Report.ofError

private def readText (fs : FileSystem) (file : Path) : Except Report Text :=
  (fs.readText file).mapError fun e => ⟨"Failed to read ".toList ++ file.text, some e.message⟩

private def definitionText (source : Bytes) (h : Hit) : Text :=
  printLine ("== ".toList ++ h.symbol ++ " ==".toList) ++ h.block.text source

private def print (grammars : Grammars) (fs : FileSystem) (config : Config) :
    Command → Except Report Text
  | signatures file => do
      let (_, found) ← askFile fs file (·.signatures grammars)
      return Signature.listing found
  | symbols file asJson withSpellings => do
      let (_, found) ← askFile fs file (·.symbols grammars)
      let found := if withSpellings then Symbol.expand found else found
      return if asJson then printJson (.array (found.map Symbol.toJson))
        else printLine (Symbol.listing found)
  | headers file context => do
      let lines := context.getD config.definitions.headerContextLines
      let (f, blocks) ← askFile fs file (·.headers grammars lines)
      return f.blockTexts blocks
  | definition file name context => do
      let lines := context.getD config.definitions.contextLines
      let (f, blocks) ← askFile fs file (·.definition grammars name lines)
      return f.blockTexts blocks
  | definitions file asJson => do
      let (f, hits) ← askFile fs file (·.definitions grammars)
      let source := Utf8.encode f.text
      return if asJson then printJson (.array (hits.map (Hit.toJson source)))
        else hits.flatMap (definitionText source)
  | chunk file good most => do
      let t ← readText fs file
      let chunks := Chunk.ofText t (good.getD config.chunking.goodSize)
        (most.getD config.chunking.maxSize)
      return printJson (.array (chunks.map .string))
  | shrink file limit inOrder => do
      let t ← readText fs file
      return (CodeAtlas.shrink grammars (config.shrink.longestFirst && !inOrder)
        (limit.getD config.shrink.maxLength) t).1
  | symbolize file => return CodeAtlas.symbolize grammars (← readText fs file)
  | outline .. => return []

private def outlineWith (grammars : Grammars) (env : Environment) (fs : FileSystem)
    (config : OutlineConfig) (directory : Path) (shown : List Path) (cache : Option Path) :
    Except Report (Cache × List OutlineEntry) := do
  let start ← match cache with
    | some file => (Cache.load fs file).mapError fun e => ⟨e.message, none⟩
    | none => .ok Cache.empty
  let walker ← (Walker.ofPatterns config.excludePatterns config.respectGitignore
    (env.userRules fs)).mapError fun e => ⟨e.message, none⟩
  (outlineDirectory grammars fs walker config
    { base := directory, shown := if shown = [] then none else some shown } start).mapError
    fun e => .ofError (.outline e)

private def runOutline (grammars : Grammars) (env : Environment) (fs : FileSystem)
    (config : OutlineConfig) (directory : Path) (shown : List Path) (asText : Bool)
    (cache : Option Path) : Outcome :=
  match outlineWith grammars env fs config directory shown cache with
  | .error r => ⟨[], some r, fs⟩
  | .ok (after, entries) =>
      let output :=
        if asText then OutlineEntry.render config.ancestorReprintChars entries
        else printJson (.array (entries.map OutlineEntry.toJson))
      match cache with
      | none => ⟨output, none, fs⟩
      | some file =>
          match after.save fs file with
          | (fs, .ok _) => ⟨output, none, fs⟩
          | (fs, .error e) => ⟨output, some ⟨e.message, none⟩, fs⟩

def run (grammars : Grammars) (env : Environment) (fs : FileSystem) (config : Config)
    (c : Command) : Outcome :=
  match c with
  | outline directory shown asText cache =>
      runOutline grammars env fs config.outline directory shown asText cache
  | c =>
      match print grammars fs config c with
      | .ok output => ⟨output, none, fs⟩
      | .error r => ⟨[], some r, fs⟩

end Command

namespace Request

private def usage : Text :=
  "Usage: code-context [OPTIONS] <COMMAND>\n".toList

/-- Answer a request: the code is 0 for success, 1 for an error and 2 for misuse. -/
def answer (grammars : Grammars) (env : Environment) (fs : FileSystem) : Request → Response
  | misuse => ⟨2, [], none, fs⟩
  | help => ⟨0, usage, none, fs⟩
  | version => ⟨0, "code-context 0.1.0\n".toList, none, fs⟩
  | run file command =>
      match Config.inForce fs env file with
      | .error e => ⟨1, [], some (Report.ofError (.config e)).text, fs⟩
      | .ok config =>
          let outcome := command.run grammars env fs config
          match outcome.failure with
          | none => ⟨0, outcome.output, none, outcome.files⟩
          | some r => ⟨1, outcome.output, some r.text, outcome.files⟩

end Request

end CodeAtlas
