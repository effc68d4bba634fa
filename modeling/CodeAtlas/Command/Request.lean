import CodeAtlas.Command.Arguments
import CodeAtlas.Outline.Ignore

/-!
# Requests

What a command line asks for, and which paths its run may look at, so that a file system can be
gathered before it.
-/

namespace CodeAtlas

/-- A command with its settings; settings that are not given come from the configuration. -/
inductive Command where
  | signatures (file : Path)
  | symbols (file : Path) (asJson withSpellings : Bool)
  | headers (file : Path) (context : Option Nat)
  | definition (file : Path) (name : Text) (context : Option Nat)
  | definitions (file : Path) (asJson : Bool)
  | outline (directory : Path) (shown : List Path) (asText : Bool) (cache : Option Path)
  | chunk (file : Path) (good most : Option Nat)
  | shrink (file : Path) (limit : Option Nat) (inOrder : Bool)
  | symbolize (file : Path)
  deriving DecidableEq, Repr, Inhabited

inductive Request where
  /-- The words make no sense. -/
  | misuse
  | help
  | version
  /-- Run a command, with the configuration in a given file. -/
  | run (config : Option Path) (command : Command)
  deriving DecidableEq, Repr, Inhabited

namespace Request

open Command

private def everywhere : List OptionSpec :=
  [{ name := "config", takesValue := true }, { name := "verbose", short := some 'v' },
    { name := "help", short := some 'h' }]

private def first : List OptionSpec := { name := "version", short := some 'V' } :: everywhere

/-- An empty word is no path. -/
private def path? (t : Text) : Option Path := if t = [] then none else some ⟨t⟩

/-- The value of an option that need not be given, if it is well formed. -/
private def value? {α : Type} (decode : Text → Option α) (g : Given) (name : String) :
    Option (Option α) :=
  match g.values name with
  | [] => some none
  | t :: _ => (decode t).map some

private def valued (name : String) : OptionSpec := { name, takesValue := true }

private def context : OptionSpec := { name := "context", short := some 'c', takesValue := true }

private structure Entry where
  name : String
  options : List OptionSpec
  read : Given → Option Command

private def onFile (g : Given) : Option Path :=
  match g.words with
  | [word] => path? word
  | _ => none

private def entries : List Entry := [
  ⟨"signatures", [], fun g => return .signatures (← onFile g)⟩,
  ⟨"symbols", [{ name := "json" }, { name := "alternatives" }], fun g =>
    return .symbols (← onFile g) (g.has "json") (g.has "alternatives")⟩,
  ⟨"headers", [context], fun g =>
    return .headers (← onFile g) (← value? Text.toWord? g "context")⟩,
  ⟨"definition", [context], fun g => do
    let [file, name] := g.words | none
    return .definition (← path? file) name (← value? Text.toWord? g "context")⟩,
  ⟨"definitions", [{ name := "json" }], fun g => return .definitions (← onFile g) (g.has "json")⟩,
  ⟨"outline",
    [{ name := "show", takesValue := true, repeats := true }, { name := "render" }, valued "cache"],
    fun g =>
      return .outline (← onFile g) (← (g.values "show").mapM path?) (g.has "render")
        (← value? path? g "cache")⟩,
  ⟨"chunk", [valued "good", valued "max"], fun g =>
    return .chunk (← onFile g) (← value? Text.toWord? g "good") (← value? Text.toWord? g "max")⟩,
  ⟨"shrink", [valued "max-length", { name := "least-relevant-first" }], fun g =>
    return .shrink (← onFile g) (← value? Text.toWord? g "max-length")
      (g.has "least-relevant-first")⟩,
  ⟨"symbolize", [], fun g => return .symbolize (← onFile g)⟩]

private def configName : String := "CODE_CONTEXT_CONFIG"

/-- The configuration file: given after the command, else before it, else by the environment. The
environment is asked on each side where the option is not given. -/
private def configFile? (env : Environment) (before after : Given) : Option (Option Path) := do
  let sides := [after, before].map fun g =>
    match value? path? g "config" with
    | some none => (value? path? ⟨(env.get? configName).toList.map ("config", ·), []⟩ "config").map
        fun p => (p, false)
    | some p => some (p, true)
    | none => none
  let sides ← sides.mapM id
  return ((sides.find? (·.2)).or sides.head?).bind (·.1)

private def immediately (name : String) : Request := if name = "version" then .version else .help

def read (env : Environment) (words : List Text) : Request :=
  match scan first true none Given.none words with
  | .misuse => .misuse
  | .done _ => .misuse
  | .asked name _ => immediately name
  | .stopped before word rest =>
      if word = "help".toList then .help
      else
        match entries.find? (·.name.toList == word) with
        | none => .misuse
        | some entry =>
            match scan (entry.options ++ everywhere) false none Given.none rest with
            | .asked name _ => immediately name
            | .done after =>
                match configFile? env before after, entry.read after with
                | some config, some command => .run config command
                | _, _ => .misuse
            | _ => .misuse

end Request

/-- The paths that a command reads or writes. -/
def Command.places : Command → List Path
  | .signatures file => [file]
  | .symbols file _ _ => [file]
  | .headers file _ => [file]
  | .definition file _ _ => [file]
  | .definitions file _ => [file]
  | .outline directory _ _ cache => directory :: cache.toList
  | .chunk file _ _ => [file]
  | .shrink file _ _ => [file]
  | .symbolize file => [file]

/-- The ignore files in the directories that hold an absolute path. -/
private def ignorePlaces (p : Path) : List Path :=
  p.ancestors.flatMap fun directory =>
    [".ignore", ".gitignore", ".git/info/exclude"].map fun name => directory.join (.ofString name)

/-- The paths that a request may read or write, with the working directory in front of relative
ones. -/
def Request.places (env : Environment) (workingDirectory : Path) : Request → List Path
  | .run config command =>
      let direct := (config.getD env.configPath :: command.places).map workingDirectory.join
      direct ++ match command with
        | .outline directory .. =>
            ignorePlaces (workingDirectory.join directory) ++
              env.versionSettings.map workingDirectory.join
        | _ => []
  | _ => []

def Request.target? : Request → Option Path
  | .run _ (.outline _ _ _ cache) => cache
  | _ => none

/-- The names that lead to an absolute path from the root, with `..` taken at its word. -/
def Path.names (p : Path) : List Text :=
  p.components.foldl (fun names step =>
    match step with
    | .name n => names ++ [n]
    | .up => names.dropLast
    | _ => names) []

end CodeAtlas
