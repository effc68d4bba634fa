import CodeAtlas.Command.Request
import CodeAtlas.Command.Run
import CodeAtlas.Syntax.Stored

/-!
# Command line

Gathers the files and variables that a request needs, answers it, and prints and stores what came
of it. Syntax trees are read from the file that `CODE_CONTEXT_TREES` names.
-/

namespace CodeAtlas.Main

private def variableNames : List String :=
  ["HOME", "XDG_CACHE_HOME", "XDG_CONFIG_HOME", "CODE_CONTEXT_CONFIG",
    "CODE_CONTEXT_MAX_CHARS_PER_FILE", "CODE_CONTEXT_GOOD_SIZE", "CODE_CONTEXT_MAX_SIZE",
    "CODE_CONTEXT_SHRINK_MAX_LENGTH", "CODE_CONTEXT_CONTEXT_LINES"]

private def environment : IO Environment := do
  let values ← variableNames.filterMapM fun name => do
    return (← IO.getEnv name).map fun value => (name.toList, value.toList)
  return ⟨values⟩

private def bytesOf (content : ByteArray) : Bytes := content.toList

private def fileError : IO.Error → FileError
  | .permissionDenied .. => .permissionDenied
  | e => .other e.toString.toList

/-- What stands at a path, if anything does; directories that cannot be listed are noted. -/
private partial def gather (p : Path) :
    StateT (List (List Text × FileError)) IO (Option FileTree) := do
  let place := (← IO.currentDir) / String.ofList p.text
  if ← place.isDir then
    match ← place.readDir.toBaseIO with
    | .ok entries =>
        let found ← entries.toList.filterMapM fun e => do
          let name := e.fileName.toList
          return (← gather (p.join ⟨name⟩)).map fun t => (name, t)
        return some (found.foldl (fun t (name, c) => t.setChild name c) FileTree.empty)
    | .error e =>
        modify ((p.names, fileError e) :: ·)
        return some FileTree.empty
  else if ← place.pathExists then
    return some (.file (bytesOf (← IO.FS.readBinFile place)))
  else return none

private def addDirectory (fs : FileSystem) (p : Path) : IO FileSystem := do
  if (fs.root.descend? p.names).isNone && (← ((← IO.currentDir) / String.ofList p.text).isDir) then
    return { fs with root := fs.root.setAt FileTree.empty p.names }
  else return fs

private def addPlace (fs : FileSystem) (p : Path) : IO FileSystem := do
  let fs ← (p.ancestors.drop 1).reverse.foldlM addDirectory fs
  match ← (gather p).run fs.unlisted with
  | (some t, unlisted) => return { fs with root := fs.root.setAt t p.names, unlisted }
  | (none, _) => return fs

private def grammars : IO Grammars := do
  match ← IO.getEnv "CODE_CONTEXT_TREES" with
  | none => return fun _ _ => none
  | some file =>
      let some g := Grammars.ofText? (← IO.FS.readFile file).toList
        | throw (IO.userError s!"{file} holds no syntax trees")
      return g

private def store (request : Request) (files : FileSystem) : IO Unit := do
  let some target := request.target? | return
  let .ok content := files.readBytes target | return
  let place := (← IO.currentDir) / String.ofList target.text
  if let some parent := place.parent then IO.FS.createDirAll parent
  IO.FS.writeBinFile place ⟨content.toArray⟩

def answer (words : List String) : IO UInt32 := do
  let env ← environment
  let workingDirectory : Path := .ofString (← IO.currentDir).toString
  let request := Request.read env (words.map String.toList)
  let fs ← (request.places env workingDirectory).foldlM addPlace
    ⟨FileTree.empty, workingDirectory.names, []⟩
  let fs ← ((env.userIgnorePath? fs).map workingDirectory.join).toList.foldlM addPlace fs
  let fs ← addDirectory fs workingDirectory
  let response := request.answer (← grammars) env fs
  IO.print (String.ofList response.output)
  if let some report := response.report then IO.eprint (String.ofList report)
  if response.code = 0 then store request response.files
  return response.code.toUInt32

end CodeAtlas.Main

def main (words : List String) : IO UInt32 := CodeAtlas.Main.answer words
