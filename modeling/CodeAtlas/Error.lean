import CodeAtlas.Cache
import CodeAtlas.Config
import CodeAtlas.Extract.Document
import CodeAtlas.File.System
import CodeAtlas.Outline.Walk
import CodeAtlas.Text.Basic

/-!
# Errors

An error of any part, and how it is reported: by its message, and below it what caused it.
-/

namespace CodeAtlas

/-- What went wrong, by the part of the program in which it did. -/
inductive Error where
  | extract (e : ExtractError)
  | outline (e : OutlineError)
  | config (e : ConfigError)
  | cache (e : CacheError)
  | file (e : FileError)
  | other (message : Text)
  deriving DecidableEq, Repr, Inhabited

namespace Error

/-- An error from a chain of messages, the outermost first. -/
def ofChain (messages : List Text) : Error := other (Text.joinWith ": ".toList messages)

def message : Error → Text
  | extract e => "Extraction error: ".toList ++ e.message
  | outline e => "Outline error: ".toList ++ e.message
  | config e => "Configuration error: ".toList ++ e.message
  | cache e => "Cache error: ".toList ++ e.message
  | file e => "IO error: ".toList ++ e.message
  | other message => message

/-- The wording of what lies behind an error. -/
def cause? : Error → Option Text
  | extract e => some e.message
  | outline e => some e.message
  | config e => some e.message
  | cache e => some e.message
  | file e => some e.message
  | other _ => none

def isUnsupportedLanguage : Error → Bool
  | extract (.unsupportedLanguage _) => true
  | _ => false

/-- Whether a name was asked for that nothing has. -/
def isSymbolNotFound : Error → Bool
  | extract (.symbolNotFound _) => true
  | _ => false

/-- Whether the request is at fault and not the system. -/
def isUserError : Error → Bool
  | extract (.symbolNotFound _) => true
  | extract (.unsupportedLanguage _) => true
  | config (.invalidValue ..) => true
  | outline (.directoryNotFound _) => true
  | outline (.notADirectory _) => true
  | _ => false

end Error

structure Report where
  message : Text
  cause : Option Text
  deriving DecidableEq, Repr, Inhabited

namespace Report

def ofError (e : Error) : Report := ⟨e.message, e.cause?⟩

/-- The text of a report; every line of the cause is indented. -/
def text (r : Report) : Text :=
  "Error: ".toList ++ r.message ++
    (match r.cause with
    | some cause =>
        "\n\nCaused by:".toList ++ (Text.rows cause).flatMap fun row => "\n    ".toList ++ row
    | none => []) ++ ['\n']

end Report

end CodeAtlas
