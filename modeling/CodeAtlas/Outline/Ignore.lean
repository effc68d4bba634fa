import CodeAtlas.Environment
import CodeAtlas.File.System
import CodeAtlas.Glob.Reader
import CodeAtlas.Text.Basic

/-!
# Ignore files

A directory may hold files that say which entries below it are passed over. The last line of a file
that speaks of an entry decides; the nearest directory goes before those that hold it, and one sort
of ignore file goes before the next. The user may have one more file for all directories, which goes
last. It is found by the settings of the version control, and its patterns count from the working
directory.
-/

namespace CodeAtlas

structure IgnoreRule where
  glob : Glob
  /-- Whether what it matches is kept instead of ignored. -/
  keeps : Bool
  directoriesOnly : Bool
  deriving Repr

namespace IgnoreRule

private def dropLast? (c : Char) (t : Text) : Option Text := Text.stripSuffix? [c] t

/-- The body of a line, whether it keeps what it matches, and whether it is bound to the directory
of its file. -/
private def body (line : Text) : Text × Bool × Bool :=
  match line with
  | '\\' :: '!' :: _ => (line.drop 1, false, false)
  | '\\' :: '#' :: _ => (line.drop 1, false, false)
  | _ =>
      let keeps := line.head? = some '!'
      let rest := if keeps then line.drop 1 else line
      let isBound := rest.head? = some '/'
      (if isBound then rest.drop 1 else rest, keeps, isBound)

/-- A pattern without a separator matches in every directory below. -/
private def anywhere (isBound : Bool) (pattern : Text) : Text :=
  if isBound || pattern.contains '/' || "**/".toList.isPrefixOf pattern || pattern = "**".toList
  then pattern
  else "**/".toList ++ pattern

/-- A pattern for everything below a directory does not match the directory. -/
private def below (pattern : Text) : Text :=
  if "/**".toList.isSuffixOf pattern then pattern ++ "/*".toList else pattern

/-- The rule of a line; comments, blank lines and malformed patterns make none. -/
def ofLine? (line : Text) : Option IgnoreRule := do
  if line.head? = some '#' then none
  let line := if "\\ ".toList.isSuffixOf line then line else Text.trimEnd line
  if line = [] then none
  let (pattern, keeps, isBound) := body line
  let directories := dropLast? '/' pattern
  let pattern := match directories with
    | some p => (dropLast? '\\' p).getD p
    | none => pattern
  match Glob.readIgnore (below (anywhere isBound pattern)) with
  | .ok glob => some ⟨glob, keeps, directories.isSome⟩
  | .error _ => none

end IgnoreRule

/-- The rules of an ignore file in the order of its lines. -/
abbrev IgnoreFile := List IgnoreRule

namespace IgnoreFile

private def byteLines (bs : Bytes) : List Bytes := bs.splitOn 10

private def dropReturn (line : Bytes) : Bytes :=
  if line.getLast? = some 13 then line.dropLast else line

private def textLines : List Bytes → List Text
  | [] => []
  | line :: rest =>
      match Utf8.decode? (dropReturn line) with
      | some t => t :: textLines rest
      | none => []

private def dropMark : List Text → List Text
  | [] => []
  | line :: rest => line.dropWhile (·.toNat = 0xFEFF) :: rest

/-- The rules of a file's content; a line that is no UTF-8 ends it. -/
def ofBytes (content : Bytes) : IgnoreFile :=
  (dropMark (textLines (byteLines content))).filterMap IgnoreRule.ofLine?

/-- Whether the last rule that matches an entry keeps it (`some false`) or ignores it (`some true`);
the path is relative to the directory of the file. -/
def ignores? (rules : IgnoreFile) (path : Text) (isDirectory : Bool) : Option Bool :=
  (rules.reverse.find? fun r => (isDirectory || !r.directoriesOnly) && r.glob.isMatch path).map
    (!·.keeps)

end IgnoreFile

namespace Environment

private def isSpace (c : Char) : Bool := c == ' ' || ('\t' ≤ c && c ≤ '\r')

private def endsLine (t : Text) : Bool :=
  (t.takeWhile isSpace).contains '\n' || (t.dropWhile isSpace).isEmpty

private def endsValue (t : Text) : Bool :=
  endsLine t || match t.dropWhile isSpace with
    | '"' :: rest => endsLine rest
    | _ => false

/-- The shortest word after which the line ends, a closing quote left aside. -/
private def value? (t : Text) : Option Text :=
  let t := t.dropWhile isSpace
  ((List.range' 1 (t.takeWhile (!isSpace ·)).length).find? fun n => endsValue (t.drop n)).map
    (t.take ·)

private def setting? (t : Text) : Option Text :=
  let key := "excludesfile".toList
  let t := t.dropWhile isSpace
  if (t.take key.length).map Char.toLower = key then
    match (t.drop key.length).dropWhile isSpace with
    | '=' :: rest =>
        match rest.dropWhile isSpace with
        | '"' :: quoted => (value? quoted).or (value? ('"' :: quoted))
        | plain => value? plain
    | _ => none
  else none

/-- The first value that settings of the version control have for the user's ignore file; `~` stands
for the home directory. -/
private def ignoreSetting? (env : Environment) (settings : Text) : Option Path :=
  let lines := Text.linesWithEnds settings
  let value := (List.range lines.length).findSome? fun n => setting? (lines.drop n).flatten
  value.map fun t => ⟨((env.get? "HOME").map (Text.replaceAll ['~'] · t)).getD t⟩

private def versionDirectory? (env : Environment) : Option Path :=
  match (env.get? "XDG_CONFIG_HOME").filter (· ≠ []) with
  | some t => some (Path.join ⟨t⟩ (.ofString "git"))
  | none => (env.get? "HOME").map fun home => Path.join ⟨home⟩ (.ofString ".config/git")

/-- The settings of the version control, those that go first in front. -/
def versionSettings (env : Environment) : List Path :=
  ((env.get? "HOME").map fun home => Path.join ⟨home⟩ (.ofString ".gitconfig")).toList ++
    (env.versionDirectory?.map (·.join (.ofString "config"))).toList

/-- Where the user's ignore file is looked for. -/
def userIgnorePath? (env : Environment) (fs : FileSystem) : Option Path :=
  (env.versionSettings.findSome? fun p =>
    (fs.readBytes p).toOption.bind fun content => env.ignoreSetting? (Utf8.decodeLossy content)).or
    (env.versionDirectory?.map (·.join (.ofString "ignore")))

def userRules (env : Environment) (fs : FileSystem) : IgnoreFile :=
  match (env.userIgnorePath? fs).map fs.readBytes with
  | some (.ok content) => .ofBytes content
  | _ => []

end Environment

/-- The ignore files of one directory, and the names that lead to it. -/
structure IgnoreLevel where
  names : List Text
  /-- The files of this directory, those that go first in front. -/
  files : List IgnoreFile

namespace IgnoreLevel

/-- Where a directory may hold ignore files, those that go first in front. -/
def places : List (List Text) :=
  [[".ignore".toList], [".gitignore".toList], [".git".toList, "info".toList, "exclude".toList]]

def ofDirectory (names : List Text) (directory : FileTree) : IgnoreLevel :=
  ⟨names, places.map fun place =>
    match directory.descend? place with
    | some (.file content) => IgnoreFile.ofBytes content
    | _ => []⟩

/-- The user's rules, which count from the working directory. -/
def ofUser (workingDirectory : List Text) (rules : IgnoreFile) : IgnoreLevel :=
  ⟨workingDirectory, places.map (fun _ => []) ++ [rules]⟩

/-- The path of an entry as it is seen from a directory: from the root where the entry is not below
the directory. -/
def pathOf (level : IgnoreLevel) (names : List Text) : Text :=
  if level.names.isPrefixOf names then Text.joinWith ['/'] (names.drop level.names.length)
  else '/' :: Text.joinWith ['/'] names

/-- What the ignore file of one sort in a directory says about an entry. -/
def ignoresIn? (sort : Nat) (names : List Text) (isDirectory : Bool) (level : IgnoreLevel) :
    Option Bool :=
  (level.files.getD sort []).ignores? (level.pathOf names) isDirectory

/-- Whether some levels, the nearest first, ignore an entry. -/
def ignore (levels : List IgnoreLevel) (names : List Text) (isDirectory : Bool) : Bool :=
  let verdicts := (List.range (places.length + 1)).map fun sort =>
    levels.findSome? (ignoresIn? sort names isDirectory)
  (verdicts.findSome? id).getD false

end IgnoreLevel

end CodeAtlas
