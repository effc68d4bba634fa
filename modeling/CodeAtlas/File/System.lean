import CodeAtlas.Path
import CodeAtlas.Text.Basic
import CodeAtlas.Text.Utf8

/-!
# File systems

Files and directories held in memory, with a working directory. The entries of a directory are
ordered by name. Paths are followed step by step: every step but the last has to lead to a
directory, `..` goes back to the directory that holds the place reached so far, and a separator at
the end asks for a directory. A directory that cannot be listed can still be passed through. There
are no symbolic links.
-/

namespace CodeAtlas

/-- A file with its bytes, or a directory with its named entries. -/
inductive FileTree where
  | file (content : Bytes)
  | directory (entries : List (Text × FileTree))
  deriving Repr, Inhabited

namespace FileTree

def empty : FileTree := directory []

/-- The entries of a directory; a file has none. -/
def entries : FileTree → List (Text × FileTree)
  | file _ => []
  | directory entries => entries

def isDirectory : FileTree → Bool
  | file _ => false
  | directory _ => true

/-- Entries ordered by name, with one put in place of what had its name. -/
def insertEntry (name : Text) (t : FileTree) :
    List (Text × FileTree) → List (Text × FileTree)
  | [] => [(name, t)]
  | (other, u) :: rest =>
      if other = name then (name, t) :: rest
      else if compare name other = .lt then (name, t) :: (other, u) :: rest
      else (other, u) :: insertEntry name t rest

def child? (t : FileTree) (name : Text) : Option FileTree := t.entries.lookup name

def setChild (t : FileTree) (name : Text) (c : FileTree) : FileTree :=
  directory (insertEntry name c t.entries)

/-- What stands below a directory at the end of a chain of names. -/
def descend? (t : FileTree) : List Text → Option FileTree
  | [] => some t
  | name :: names => do
      let c ← t.child? name
      c.descend? names

/-- Put a tree at the end of a chain of names; directories on the way are made. -/
def setAt (t : FileTree) (new : FileTree) : List Text → FileTree
  | [] => new
  | name :: names => t.setChild name (((t.child? name).getD empty).setAt new names)

/-- Remove what stands at the end of a chain of names. -/
def eraseAt (t : FileTree) : List Text → FileTree
  | [] => t
  | [name] => directory (t.entries.filter (·.1 ≠ name))
  | name :: names =>
      match t.child? name with
      | some c => t.setChild name (c.eraseAt names)
      | none => t

end FileTree


/-- Why a file or directory cannot be used. -/
inductive FileError where
  | notFound
  | alreadyExists
  | notDirectory
  | isDirectory
  | permissionDenied
  /-- A name of more than 255 bytes. -/
  | nameTooLong
  /-- A path with a zero character in it. -/
  | zeroInPath
  /-- The content is no UTF-8. -/
  | notText
  /-- Any other cause, in its own words. -/
  | other (message : Text)
  deriving DecidableEq, Repr, Inhabited

def FileError.message : FileError → Text
  | notFound => "No such file or directory (os error 2)".toList
  | alreadyExists => "File exists (os error 17)".toList
  | notDirectory => "Not a directory (os error 20)".toList
  | isDirectory => "Is a directory (os error 21)".toList
  | permissionDenied => "Permission denied (os error 13)".toList
  | nameTooLong => "File name too long (os error 36)".toList
  | zeroInPath => "file name contained an unexpected NUL byte".toList
  | notText => "stream did not contain valid UTF-8".toList
  | other message => message

/-- A file tree, and the names that lead to the working directory. -/
structure FileSystem where
  root : FileTree
  workingDirectory : List Text
  /-- The directories that cannot be listed, by the names that lead to them, and why. -/
  unlisted : List (List Text × FileError)
  deriving Repr, Inhabited

namespace FileSystem

/-- Why the directory at the end of a chain of names cannot be listed. -/
def listingError? (fs : FileSystem) (names : List Text) : Option FileError :=
  fs.unlisted.lookup names

def isUnlisted (fs : FileSystem) (names : List Text) : Bool := (fs.listingError? names).isSome

/-- A place in a file tree: the names that lead to it, the last one first, and what stands on the
way, the root last. -/
structure Place where
  names : List Text
  trees : List FileTree

def Place.tree (p : Place) : FileTree := p.trees.headD FileTree.empty

def Place.enter (p : Place) (step : Text) : Except FileError Place :=
  if !p.tree.isDirectory then .error .notDirectory
  else if step = ['.'] then .ok p
  else if step = ['.', '.'] then
    .ok ⟨p.names.drop 1, if p.names = [] then p.trees else p.trees.drop 1⟩
  else if 255 < Utf8.size step then .error .nameTooLong
  else
    match p.tree.child? step with
    | some t => .ok ⟨step :: p.names, t :: p.trees⟩
    | none => .error .notFound

def rootPlace (fs : FileSystem) : Place := ⟨[], [fs.root]⟩

/-- The steps between the separators of a path. -/
def steps (p : Path) : List Text := (p.text.splitOn '/').filter (· ≠ [])

/-- Whether a path ends in a separator. -/
def asksForDirectory (p : Path) : Bool := p.text.getLast? = some '/'

/-- Where the steps of a path start: at the root or in the working directory. -/
def startPlace (fs : FileSystem) (p : Path) : Except FileError Place :=
  if p.text = [] then .error .notFound
  else if p.text.contains (Char.ofNat 0) then .error .zeroInPath
  else if p.isAbsolute then .ok fs.rootPlace
  else fs.workingDirectory.foldlM Place.enter fs.rootPlace

def place (fs : FileSystem) (p : Path) : Except FileError Place := do
  let start ← fs.startPlace p
  let found ← (steps p).foldlM Place.enter start
  if asksForDirectory p && !found.tree.isDirectory then throw .notDirectory
  return found

def find (fs : FileSystem) (p : Path) : Except FileError FileTree := return (← fs.place p).tree

def contains (fs : FileSystem) (p : Path) : Bool := (fs.find p).isOk

def isDirectory (fs : FileSystem) (p : Path) : Bool :=
  match fs.find p with
  | .ok t => t.isDirectory
  | .error _ => false

/-- The names that lead from the root to what a path leads to. -/
def route (fs : FileSystem) (p : Path) : Except FileError (List Text) :=
  return (← fs.place p).names.reverse

/-- The path from the root, without `.` and `..`, to what a path leads to. -/
def canonical (fs : FileSystem) (p : Path) : Except FileError Path :=
  return ⟨'/' :: Text.joinWith ['/'] (← fs.route p)⟩

def readBytes (fs : FileSystem) (p : Path) : Except FileError Bytes := do
  match ← fs.find p with
  | .file content => return content
  | .directory _ => throw .isDirectory

def readText (fs : FileSystem) (p : Path) : Except FileError Text := do
  match Utf8.decode? (← fs.readBytes p) with
  | some t => return t
  | none => throw FileError.notText

/-- The directory in which the last step of a path is taken, and that step. -/
def lastStep (fs : FileSystem) (p : Path) : Except FileError (Place × Option Text) := do
  let start ← fs.startPlace p
  let holder ← (steps p).dropLast.foldlM Place.enter start
  if !holder.tree.isDirectory then throw .notDirectory
  return (holder, (steps p).getLast?)

/-- Whether a step leads to an entry of a directory. -/
def isNewName (step : Text) : Bool := step ≠ ['.'] && step ≠ ['.', '.']

/-- Put a tree under a name into the directory at a place. -/
def put (fs : FileSystem) (holder : Place) (name : Text) (t : FileTree) : FileSystem :=
  { fs with root := fs.root.setAt t (name :: holder.names).reverse }

/-- Write a file; its directory has to be there. -/
def write (fs : FileSystem) (p : Path) (content : Bytes) : Except FileError FileSystem := do
  let (holder, last) ← fs.lastStep p
  let some name := last.filter isNewName | throw .isDirectory
  match holder.enter name with
  | .ok found =>
      if found.tree.isDirectory then throw .isDirectory
      else if asksForDirectory p then throw .notDirectory
      else return fs.put holder name (.file content)
  | .error .notFound =>
      if asksForDirectory p then throw .isDirectory
      else return fs.put holder name (.file content)
  | .error e => throw e

/-- Make one directory in a directory that is there. -/
def makeDirectory (fs : FileSystem) (p : Path) : Except FileError FileSystem := do
  let (holder, last) ← fs.lastStep p
  let some name := last.filter isNewName | throw .alreadyExists
  match holder.enter name with
  | .ok _ => throw .alreadyExists
  | .error .notFound => return fs.put holder name FileTree.empty
  | .error e => throw e

/-- What was made, or the files as they are where a directory is there already. -/
def orExisting (fs : FileSystem) (p : Path) (made : Except FileError FileSystem) :
    Except FileError FileSystem :=
  match made with
  | .ok fs => .ok fs
  | .error e => if fs.isDirectory p then .ok fs else .error e

/-- Make a directory; where the directory that is to hold it is not there, make that one first. -/
def makeChain (fs : FileSystem) : List Path → Except FileError FileSystem
  | [] => .error .notFound
  | p :: outer =>
      if p.components = [] then .ok fs
      else
        match fs.makeDirectory p with
        | .error .notFound => do
            let fs ← fs.makeChain outer
            fs.orExisting p (fs.makeDirectory p)
        | made => fs.orExisting p made

/-- Make a directory and every directory on the way to it. -/
def makeDirectories (fs : FileSystem) (p : Path) : Except FileError FileSystem :=
  fs.makeChain p.ancestors

/-- Make the directory that is to hold a path. -/
def makeParent (fs : FileSystem) (p : Path) : Except FileError FileSystem :=
  match p.parent? with
  | some parent => fs.makeDirectories parent
  | none => .ok fs

/-- Remove a file, or a directory with all it holds. -/
def remove (fs : FileSystem) (p : Path) : Except FileError FileSystem := do
  let found ← fs.place p
  return { fs with root := fs.root.eraseAt found.names.reverse }

end FileSystem

end CodeAtlas
