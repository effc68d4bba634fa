import CodeAtlas.Environment
import CodeAtlas.File.System
import CodeAtlas.Glob.Reader
import CodeAtlas.Text.Basic
import CodeAtlas.Toml.Basic
import CodeAtlas.Toml.Reader

/-!
# Configuration

The settings of the program, in four sections, with their defaults. In a valid configuration sizes
are positive, globs are well formed, and a good chunk is no longer than the longest one. The first
setting that is wrong is the one reported.

In TOML each section is a table, in a fixed order. Settings that are missing take their defaults and
names that are not known are passed over. A section may also be an array that holds its settings in
order. A configuration comes from a file or from the defaults, and the environment overrides some
settings.
-/

namespace CodeAtlas

structure OutlineConfig where
  /-- The most characters that are listed of one file. -/
  maxCharsPerFile : Nat := 30000
  /-- Directory lines are written again after this many characters. -/
  ancestorReprintChars : Nat := 5000
  /-- Globs of what is left out. -/
  excludePatterns : List Text :=
    ["**/node_modules/**".toList, "**/.git/**".toList, "**/target/**".toList, "**/vendor/**".toList]
  /-- Whether ignore files apply. -/
  respectGitignore : Bool := true
  /-- Whether a listing that is too long loses its comments before it is cut. -/
  stripCommentsBeforeTruncation : Bool := true
  deriving DecidableEq, Repr, Inhabited

structure ChunkingConfig where
  goodSize : Nat := 2000
  maxSize : Nat := 4000
  deriving DecidableEq, Repr, Inhabited

structure ShrinkConfig where
  maxLength : Nat := 60000
  longestFirst : Bool := true
  deriving DecidableEq, Repr, Inhabited

structure DefinitionConfig where
  contextLines : Nat := 0
  headerContextLines : Nat := 0
  deriving DecidableEq, Repr, Inhabited

structure Config where
  outline : OutlineConfig := {}
  chunking : ChunkingConfig := {}
  shrink : ShrinkConfig := {}
  definitions : DefinitionConfig := {}
  deriving DecidableEq, Repr, Inhabited

/-- Why a configuration cannot be used. -/
inductive ConfigError where
  | loadFailed (reason : Text)
  | parseFailed (reason : Text)
  | invalidValue (key reason : Text)
  | saveFailed (reason : Text)
  | fileNotFound (path : Text)
  deriving DecidableEq, Repr, Inhabited

def ConfigError.message : ConfigError → Text
  | loadFailed reason => "Failed to load configuration file: ".toList ++ reason
  | parseFailed reason => "Failed to parse configuration: ".toList ++ reason
  | invalidValue key reason =>
      "Invalid configuration value for '".toList ++ key ++ "': ".toList ++ reason
  | saveFailed reason => "Failed to save configuration: ".toList ++ reason
  | fileNotFound path => "Configuration file not found: ".toList ++ path

namespace Config

private def invalid (key : String) (reason : Text) : ConfigError := .invalidValue key.toList reason

private def positive (key : String) (n : Nat) : Except ConfigError Unit :=
  if n = 0 then .error (invalid key "must be greater than 0".toList) else .ok ()

private def wellFormed (pattern : Text) : Except ConfigError Unit :=
  match Glob.read pattern with
  | .ok _ => .ok ()
  | .error e =>
      .error (invalid "outline.exclude_patterns"
        ("invalid glob '".toList ++ pattern ++ "': ".toList ++ e.message pattern))

private def ordered (good most : Nat) : Except ConfigError Unit :=
  if most < good then
    .error (invalid "chunking.good_size"
      ("must not exceed chunking.max_size (".toList ++ Text.ofNat good ++ " > ".toList ++
        Text.ofNat most ++ ")".toList))
  else .ok ()

def validate (c : Config) : Except ConfigError Unit := do
  positive "outline.max_chars_per_file" c.outline.maxCharsPerFile
  positive "outline.ancestor_reprint_chars" c.outline.ancestorReprintChars
  c.outline.excludePatterns.forM wellFormed
  positive "chunking.good_size" c.chunking.goodSize
  positive "chunking.max_size" c.chunking.maxSize
  ordered c.chunking.goodSize c.chunking.maxSize
  positive "shrink.max_length" c.shrink.maxLength

end Config

namespace Toml.Value

/-- The settings with some names that a section holds. A moment holds none of them. -/
private def settings? (names : List String) : Value → Option (List (Option Value))
  | table _ entries => some (names.map fun n => entries.lookup n.toList)
  | inline entries => some (names.map fun n => entries.lookup n.toList)
  | array items => some (names.mapIdx fun i _ => items[i]?)
  | tables items => some (names.mapIdx fun i _ => items[i]?.map inline)
  | moment => some (names.map fun _ => none)
  | _ => none

private def toNat? : Value → Option Nat
  | integer n => if 0 ≤ n then some n.toNat else none
  | _ => none

private def toBool? : Value → Option Bool
  | boolean b => some b
  | _ => none

private def toText? : Value → Option Text
  | string t => some t
  | _ => none

private def toTexts? : Value → Option (List Text)
  | array items => items.mapM toText?
  | _ => none

private def setting? {α : Type} (decode : Value → Option α) (default : α)
    (settings : List (Option Value)) (i : Nat) : Option α :=
  match settings.getD i none with
  | some v => decode v
  | none => some default

end Toml.Value

namespace Config

open Toml.Value in
private def outline? (v : Toml.Value) : Option OutlineConfig := do
  let s ← v.settings? ["max_chars_per_file", "ancestor_reprint_chars", "exclude_patterns",
    "respect_gitignore", "strip_comments_before_truncation"]
  let d : OutlineConfig := {}
  return ⟨← setting? toNat? d.maxCharsPerFile s 0, ← setting? toNat? d.ancestorReprintChars s 1,
    ← setting? toTexts? d.excludePatterns s 2, ← setting? toBool? d.respectGitignore s 3,
    ← setting? toBool? d.stripCommentsBeforeTruncation s 4⟩

open Toml.Value in
private def chunking? (v : Toml.Value) : Option ChunkingConfig := do
  let s ← v.settings? ["good_size", "max_size"]
  let d : ChunkingConfig := {}
  return ⟨← setting? toNat? d.goodSize s 0, ← setting? toNat? d.maxSize s 1⟩

open Toml.Value in
private def shrink? (v : Toml.Value) : Option ShrinkConfig := do
  let s ← v.settings? ["max_length", "longest_first"]
  let d : ShrinkConfig := {}
  return ⟨← setting? toNat? d.maxLength s 0, ← setting? toBool? d.longestFirst s 1⟩

open Toml.Value in
private def definitions? (v : Toml.Value) : Option DefinitionConfig := do
  let s ← v.settings? ["context_lines", "header_context_lines"]
  let d : DefinitionConfig := {}
  return ⟨← setting? toNat? d.contextLines s 0, ← setting? toNat? d.headerContextLines s 1⟩

open Toml.Value in
def ofToml? (t : Text) : Option Config := do
  let s ← (Toml.Value.inline (← Toml.read? t)).settings?
    ["outline", "chunking", "shrink", "definitions"]
  return ⟨← setting? outline? {} s 0, ← setting? chunking? {} s 1, ← setting? shrink? {} s 2,
    ← setting? definitions? {} s 3⟩

/-- Integers end at the largest signed word. -/
private def number? (n : Nat) : Option Text :=
  if n < Nat.pow 2 63 then some (Text.ofNat n) else none

private def flag (b : Bool) : Text := (if b then "true" else "false").toList

/-- An array with two or more items has one on each line. -/
private def texts (items : List Text) : Text :=
  match items.map Toml.quote with
  | [] => "[]".toList
  | [item] => '[' :: item ++ [']']
  | items =>
      "[\n".toList ++ items.flatMap (fun item => "    ".toList ++ item ++ ",\n".toList) ++ [']']

private def tableText? (name : String) (settings : List (String × Option Text)) : Option Text := do
  let lines ← settings.mapM fun (key, value) =>
    value.map fun v => key.toList ++ " = ".toList ++ v ++ ['\n']
  return '[' :: name.toList ++ "]\n".toList ++ lines.flatten

/-- The document that writes a configuration; numbers beyond the largest signed word cannot be
written. -/
def toToml? (c : Config) : Option Text := do
  let sections ← [
    tableText? "outline" [
      ("max_chars_per_file", number? c.outline.maxCharsPerFile),
      ("ancestor_reprint_chars", number? c.outline.ancestorReprintChars),
      ("exclude_patterns", some (texts c.outline.excludePatterns)),
      ("respect_gitignore", some (flag c.outline.respectGitignore)),
      ("strip_comments_before_truncation", some (flag c.outline.stripCommentsBeforeTruncation))],
    tableText? "chunking" [
      ("good_size", number? c.chunking.goodSize), ("max_size", number? c.chunking.maxSize)],
    tableText? "shrink" [
      ("max_length", number? c.shrink.maxLength),
      ("longest_first", some (flag c.shrink.longestFirst))],
    tableText? "definitions" [
      ("context_lines", number? c.definitions.contextLines),
      ("header_context_lines", number? c.definitions.headerContextLines)]].mapM id
  return Text.joinWith ['\n'] sections

def load (fs : FileSystem) (file : Path) : Except ConfigError Config := do
  if !fs.contains file then throw (.fileNotFound file.text)
  let t ← (fs.readText file).mapError fun e =>
    .loadFailed ("Failed to read config file: ".toList ++ e.message)
  match ofToml? t with
  | some c =>
      c.validate
      return c
  | none => throw (.parseFailed "Invalid TOML".toList)

/-- The configuration of the user, or the default one where there is no file. -/
def loadOrDefault (fs : FileSystem) (env : Environment) : Except ConfigError Config :=
  if fs.contains env.configPath then load fs env.configPath else .ok {}

def override (c : Config) (env : Environment) : Config where
  outline :=
    { c.outline with
      maxCharsPerFile :=
        (env.number? "CODE_CONTEXT_MAX_CHARS_PER_FILE").getD c.outline.maxCharsPerFile }
  chunking :=
    { goodSize := (env.number? "CODE_CONTEXT_GOOD_SIZE").getD c.chunking.goodSize
      maxSize := (env.number? "CODE_CONTEXT_MAX_SIZE").getD c.chunking.maxSize }
  shrink :=
    { c.shrink with
      maxLength := (env.number? "CODE_CONTEXT_SHRINK_MAX_LENGTH").getD c.shrink.maxLength }
  definitions :=
    { c.definitions with
      contextLines := (env.number? "CODE_CONTEXT_CONTEXT_LINES").getD c.definitions.contextLines }

/-- The configuration in force: from the given file, or the user's, or the default one, with the
environment's overrides, and checked. -/
def inForce (fs : FileSystem) (env : Environment) (file : Option Path) :
    Except ConfigError Config := do
  let c ← match file with
    | some file => load fs file
    | none => loadOrDefault fs env
  let c := c.override env
  c.validate
  return c

private def inContext {α : Type} (context : String) (made : Except FileError α) :
    Except ConfigError α :=
  made.mapError fun e => .saveFailed (context.toList ++ ": ".toList ++ e.message)

/-- Store a configuration in a file, and make its directory if need be; the files afterwards, and
whether it went well. A directory that was made stays also where the file cannot be written. -/
def save (c : Config) (fs : FileSystem) (file : Path) : FileSystem × Except ConfigError Unit :=
  match inContext "Failed to create config directory" (fs.makeParent file), c.toToml? with
  | .error e, _ => (fs, .error e)
  | .ok fs, none =>
      (fs, .error
        (.saveFailed "Failed to serialize config: out-of-range value for u64 type".toList))
  | .ok fs, some t =>
      match inContext "Failed to write config file" (fs.write file (Utf8.encode t)) with
      | .error e => (fs, .error e)
      | .ok fs => (fs, .ok ())

end Config

end CodeAtlas
