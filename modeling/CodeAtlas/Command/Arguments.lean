import CodeAtlas.Text.Basic

/-!
# Arguments

The words of a command line: options with or without a value, and plain words. `--name value`,
`--name=value`, `-n value`, `-nvalue` and `-n=value` give an option its value, short flags may
stand together, and after `--` every word is plain.
-/

namespace CodeAtlas.Command

structure OptionSpec where
  name : String
  short : Option Char := none
  takesValue : Bool := false
  /-- Whether it may be given more than once. -/
  repeats : Bool := false
  deriving DecidableEq, Repr

/-- What has been given: options with their values, and plain words, in order. -/
structure Given where
  options : List (String × Text)
  words : List Text
  deriving DecidableEq, Repr, Inhabited

namespace Given

def none : Given := ⟨[], []⟩

def values (g : Given) (name : String) : List Text :=
  (g.options.filter (·.1 == name)).map (·.2)

def has (g : Given) (name : String) : Bool := g.options.any (·.1 == name)

private def add? (g : Given) (spec : OptionSpec) (value : Text) : Option Given :=
  if !spec.repeats && g.has spec.name then Option.none
  else some ⟨g.options ++ [(spec.name, value)], g.words⟩

end Given

/-- How a scan of words ends. -/
inductive Scan where
  | misuse
  /-- At the end of the words. -/
  | done (g : Given)
  /-- At a plain word, where the scan was to stop, with the words after it. -/
  | stopped (g : Given) (word : Text) (rest : List Text)
  /-- At a flag that is answered at once. -/
  | asked (name : String) (g : Given)

/-- How taking one word ends. -/
private inductive Taken where
  | misuse
  | given (g : Given)
  /-- The next word is the value of an option. -/
  | waits (spec : OptionSpec) (g : Given)
  | asked (name : String)

/-- The words that are answered at once. -/
def immediate : List String := ["help", "version"]

private def takeFlag (g : Given) (spec : OptionSpec) : Taken :=
  if immediate.contains spec.name then .asked spec.name
  else
    match g.add? spec [] with
    | some g => .given g
    | Option.none => .misuse

private def takeValue (g : Given) (spec : OptionSpec) (value : Text) : Taken :=
  match g.add? spec value with
  | some g => .given g
  | Option.none => .misuse

private def takeLong (specs : List OptionSpec) (g : Given) (body : Text) : Taken :=
  let name := body.takeWhile (· != '=')
  let attached := (Text.splitOnce '=' body).map (·.2)
  match specs.find? (·.name.toList == name), attached with
  | some spec, some value => if spec.takesValue then takeValue g spec value else .misuse
  | some spec, Option.none => if spec.takesValue then .waits spec g else takeFlag g spec
  | Option.none, _ => .misuse

private def takeShort (specs : List OptionSpec) (g : Given) : Text → Taken
  | [] => .given g
  | c :: cs =>
      match specs.find? (·.short == some c) with
      | some spec =>
          if spec.takesValue then
            if cs = [] then .waits spec g
            else takeValue g spec ((Text.stripPrefix? ['='] cs).getD cs)
          else
            match takeFlag g spec with
            | .given g => takeShort specs g cs
            | other => other
      | Option.none => .misuse

private def isDashed (word : Text) : Bool := word.head? = some '-' && word ≠ ['-']

/-- Take words after `--`. -/
private def scanPlain (stops : Bool) (g : Given) : List Text → Scan
  | [] => .done g
  | word :: rest =>
      if stops then .misuse else scanPlain stops ⟨g.options, g.words ++ [word]⟩ rest

/-- Take words while an option may wait for its value; with `stops` the scan ends at the first
plain word. -/
def scan (specs : List OptionSpec) (stops : Bool) (waiting : Option OptionSpec) (g : Given) :
    List Text → Scan
  | [] => if waiting.isSome then .misuse else .done g
  | word :: rest =>
      if isDashed word then
        if waiting.isSome then .misuse
        else if word = "--".toList then scanPlain stops g rest
        else
          let taken := match word with
            | '-' :: '-' :: body => takeLong specs g body
            | _ => takeShort specs g (word.drop 1)
          match taken with
          | .misuse => .misuse
          | .given g => scan specs stops Option.none g rest
          | .waits spec g => scan specs stops (some spec) g rest
          | .asked name => .asked name g
      else
        match waiting with
        | some spec =>
            match g.add? spec word with
            | some g => scan specs stops Option.none g rest
            | Option.none => .misuse
        | Option.none =>
            if stops then .stopped g word rest
            else scan specs stops Option.none ⟨g.options, g.words ++ [word]⟩ rest

end CodeAtlas.Command
