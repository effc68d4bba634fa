import CodeAtlas.File.System
import CodeAtlas.Json.Basic
import CodeAtlas.Json.Reader
import CodeAtlas.Order
import CodeAtlas.Outline.Entry
import CodeAtlas.Text.Basic

/-!
# Outline cache

Listings of files, each with the checksum of the content it was made from. A listing is given out
only under that checksum. Paths with the same components share their listings. A cache is stored as
a JSON array of its listings, ordered by path and then by kind.
-/

namespace CodeAtlas

/-- A listing of a file. -/
structure CacheEntry where
  path : Path
  kind : OutlineKind
  checksum : Text
  content : Text
  deriving DecidableEq, Repr

def CacheEntry.isFor (e : CacheEntry) (path : Path) (kind : OutlineKind) : Bool :=
  e.path.same path && e.kind == kind

/-- Listings, at most one of a kind for a path. -/
structure Cache where
  entries : List CacheEntry
  deriving DecidableEq, Repr, Inhabited

namespace Cache

def empty : Cache := ⟨[]⟩

def size (c : Cache) : Nat := c.entries.length

/-- The listing of a path that was made from content with the checksum. -/
def get? (c : Cache) (path : Path) (kind : OutlineKind) (checksum : Text) : Option Text :=
  match c.entries.find? (·.isFor path kind) with
  | some e => if e.checksum = checksum then some e.content else none
  | none => none

/-- Put a listing in place of the first one of its kind for its path, or at the end. -/
def replace (path : Path) (kind : OutlineKind) (checksum content : Text) :
    List CacheEntry → List CacheEntry
  | [] => [⟨path, kind, checksum, content⟩]
  | e :: rest =>
      if e.isFor path kind then ⟨e.path, kind, checksum, content⟩ :: rest
      else e :: replace path kind checksum content rest

/-- Put a listing in place of the one of its kind for its path; the path stays spelled as it was
first. -/
def insert (c : Cache) (path : Path) (kind : OutlineKind) (checksum content : Text) : Cache :=
  ⟨replace path kind checksum content c.entries⟩

def invalidate (c : Cache) (path : Path) : Cache := ⟨c.entries.filter (!·.path.same path)⟩

end Cache

/-- Why a cache cannot be loaded or saved. -/
inductive CacheError where
  | loadFailed (path reason : Text)
  | saveFailed (path reason : Text)
  deriving DecidableEq, Repr, Inhabited

def CacheError.message : CacheError → Text
  | loadFailed path reason => "Failed to load cache from '".toList ++ path ++ "': ".toList ++ reason
  | saveFailed path reason => "Failed to save cache to '".toList ++ path ++ "': ".toList ++ reason


namespace CacheEntry

/-- The order in which listings are stored. -/
def le (a b : CacheEntry) : Bool :=
  match a.path.compareSteps b.path with
  | .lt => true
  | .gt => false
  | .eq => a.kind == .signatures || b.kind == .symbols

def toJson (e : CacheEntry) : Json.Value :=
  .ofFields [("path", .string e.path.text), ("kind", .ofString e.kind.name),
    ("checksum", .string e.checksum), ("content", .string e.content)]

private def only? (v : Json.Value) (name : String) : Option Json.Value :=
  match v.fields name with
  | [field] => some field
  | _ => none

private def text? : Json.Value → Option Text
  | .string t => some t
  | _ => none

/-- A kind is written as its name, or as an object with that name and nothing under it. -/
private def kind? : Json.Value → Option OutlineKind
  | .string t => OutlineKind.ofName? (String.ofList t)
  | .object [(name, .null)] => OutlineKind.ofName? (String.ofList name)
  | _ => none

/-- The listing that an object holds; each of its four fields has to be there once. -/
def ofJson? (v : Json.Value) : Option CacheEntry := do
  let path ← text? (← only? v "path")
  let kind ← kind? (← only? v "kind")
  let checksum ← text? (← only? v "checksum")
  let content ← text? (← only? v "content")
  return ⟨⟨path⟩, kind, checksum, content⟩

end CacheEntry

namespace Cache

/-- The text in which a cache is stored. -/
def toText (c : Cache) : Text :=
  Json.render (.array ((sortBy CacheEntry.le c.entries).map CacheEntry.toJson))

/-- The cache that a text stores; of two listings of a kind for a path the later one counts. -/
def ofText? (t : Text) : Option Cache :=
  match Json.read? t with
  | some (.array items) => do
      let entries ← items.mapM CacheEntry.ofJson?
      return entries.foldl (fun c e => c.insert e.path e.kind e.checksum e.content) empty
  | _ => none

/-- Say in which step of storing or loading a file could not be used. -/
def wrap {α : Type} (context : String) (made : Except FileError α) : Except Text α :=
  made.mapError fun e => context.toList ++ ": ".toList ++ e.message

/-- Read a stored cache; where no file is there the cache is empty. -/
def load (fs : FileSystem) (file : Path) : Except CacheError Cache :=
  if !fs.contains file then .ok empty
  else
    Except.mapError (CacheError.loadFailed file.text) do
      let t ← wrap "Failed to read cache file" (fs.readText file)
      match ofText? t with
      | some c => .ok c
      | none => .error "Failed to parse cache file".toList

/-- Store a cache in a file, and make its directory if need be; the files afterwards, and whether
it went well. A directory that was made stays also where the file cannot be written. -/
def save (c : Cache) (fs : FileSystem) (file : Path) : FileSystem × Except CacheError Unit :=
  let failed (reason : Text) : Except CacheError Unit := .error (.saveFailed file.text reason)
  match wrap "Failed to create cache directory" (fs.makeParent file) with
  | .error reason => (fs, failed reason)
  | .ok fs =>
      match wrap "Failed to write cache file" (fs.write file (Utf8.encode c.toText)) with
      | .error reason => (fs, failed reason)
      | .ok fs => (fs, .ok ())

end Cache

end CodeAtlas
