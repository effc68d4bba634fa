import CodeAtlas.Cache
import CodeAtlas.Checksum
import CodeAtlas.Config
import CodeAtlas.Extract.SourceFile
import CodeAtlas.Outline.Walk
import CodeAtlas.Symbol.Basic
import CodeAtlas.Text.Basic

/-!
# Outlines of directories

One entry for each file and directory of a walk. What is listed of a file comes from the cache
while the checksum of its content holds, and is cut to a budget of characters.
-/

namespace CodeAtlas.Text

/-- The first `budget` characters of a text, with a note on how many were cut off. -/
def truncate (t : Text) (budget : Nat) : Text :=
  if t.length ≤ budget then t
  else
    t.take budget ++ "\n...[truncated ".toList ++ ofNat (t.length - budget) ++
      " characters]".toList

end CodeAtlas.Text

namespace CodeAtlas

structure OutlineRequest where
  base : Path
  /-- Files under these paths are listed by signatures and all others by symbols; without them
  every file is listed by signatures. -/
  shown : Option (List Path) := none
  /-- Budgets of single files, under their paths from `base` or their full paths. -/
  budgets : List (Path × Nat) := []

namespace OutlineRequest

/-- Whether a path lies under one of the shown paths; a relative one counts from `base`. -/
private def isUnder (full relative shown : Path) : Bool :=
  if shown.isAbsolute then full.startsWith shown else relative.startsWith shown

def kindOf (r : OutlineRequest) (full relative : Path) : OutlineKind :=
  match r.shown with
  | some paths => if paths.any (isUnder full relative) then .signatures else .symbols
  | none => .signatures

private def budgetAt? (r : OutlineRequest) (p : Path) : Option Nat :=
  (r.budgets.reverse.find? (·.1.same p)).map (·.2)

/-- The most characters listed of a file. -/
def budgetOf (r : OutlineRequest) (most : Nat) (full relative : Path) : Nat :=
  match (r.budgetAt? relative).or (r.budgetAt? full) with
  | some n => min n most
  | none => most

end OutlineRequest

/-- Fit a listing into a budget: first its comments go, if they should, and then its end. -/
def fitToBudget (grammars : Grammars) (language : Language) (stripsComments : Bool) (budget : Nat)
    (content : Text) : Text :=
  if content.length ≤ budget then content
  else
    let content :=
      if stripsComments then
        match Document.read grammars language content with
        | .ok d => d.commentFree
        | .error _ => content
      else content
    Text.truncate content budget

def SourceFile.listing (grammars : Grammars) (f : SourceFile) :
    OutlineKind → Except ExtractError Text
  | .signatures => return Signature.listing (← f.signatures grammars)
  | .symbols => return Symbol.listing (← f.symbols grammars)

/-- What is listed of a file, from the cache if it knows the content, and the cache afterwards. -/
def cachedListing (grammars : Grammars) (fs : FileSystem) (cache : Cache) (path : Path)
    (language : Language) (kind : OutlineKind) : Cache × Option Text :=
  match fs.readBytes path with
  | .error _ => (cache, none)
  | .ok bytes =>
      let checksum := Checksum.ofBytes bytes
      let key := match fs.canonical path with
        | .ok p => p
        | .error _ => path
      match cache.get? key kind checksum with
      | some hit => (cache, some hit)
      | none =>
          match Utf8.decode? bytes with
          | none => (cache, none)
          | some text =>
              match SourceFile.listing grammars ⟨path, language, text⟩ kind with
              | .error _ => (cache, none)
              | .ok content => (cache.insert key kind checksum content, some content)

/-- The entry of a file or directory, and the cache afterwards. -/
def outlineEntry (grammars : Grammars) (fs : FileSystem) (config : OutlineConfig)
    (r : OutlineRequest) (cache : Cache) (entry : WalkEntry) : Cache × OutlineEntry :=
  let relative := (Path.relativeTo? r.base entry.path).getD entry.path
  if entry.isDirectory then (cache, ⟨relative, .directory, []⟩)
  else
    match Language.ofPath? entry.path with
    | none => (cache, ⟨relative, .unhandled, []⟩)
    | some language =>
        let kind := r.kindOf entry.path relative
        match cachedListing grammars fs cache entry.path language kind with
        | (cache, none) => (cache, ⟨relative, .unhandled, []⟩)
        | (cache, some content) =>
            let budget := r.budgetOf config.maxCharsPerFile entry.path relative
            (cache, ⟨relative, .file kind,
              fitToBudget grammars language config.stripCommentsBeforeTruncation budget content⟩)

/-- The entries of an outline in the order of a walk, and the cache afterwards. -/
def outlineEntries (grammars : Grammars) (fs : FileSystem) (config : OutlineConfig)
    (r : OutlineRequest) (cache : Cache) : List WalkEntry → Cache × List OutlineEntry
  | [] => (cache, [])
  | entry :: rest =>
      let (cache, first) := outlineEntry grammars fs config r cache entry
      let (cache, others) := outlineEntries grammars fs config r cache rest
      (cache, first :: others)

def outlineDirectory (grammars : Grammars) (fs : FileSystem) (walker : Walker)
    (config : OutlineConfig) (r : OutlineRequest) (cache : Cache) :
    Except OutlineError (Cache × List OutlineEntry) :=
  return outlineEntries grammars fs config r cache (← walker.walk fs r.base)

end CodeAtlas
