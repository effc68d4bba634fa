import CodeAtlas.File.System
import CodeAtlas.Outline.Ignore
import CodeAtlas.Text.Basic

/-!
# Walks

What a directory holds, level by level: entries in the order of their names, a directory before
what it holds. Ignored directories are not entered. An entry is left out when a glob matches it or
a directory on the way to it. A directory that cannot be listed is listed once more in place of what
it holds, as a file and whatever the globs say; if it is the one that is walked, the walk fails.

Symbolic links are left out here, and with them entries that lead back to a directory above them. So
are entries of which it cannot be told what they are, and listings that break off.
-/

namespace CodeAtlas

/-- Why a directory cannot be outlined. -/
inductive OutlineError where
  | directoryNotFound (path : Text)
  | notADirectory (path : Text)
  | walkFailed (reason : Text)
  | invalidPattern (pattern reason : Text)
  deriving DecidableEq, Repr, Inhabited

def OutlineError.message : OutlineError → Text
  | directoryNotFound path => "Directory not found: ".toList ++ path
  | notADirectory path => "Path is not a directory: ".toList ++ path
  | walkFailed reason => "Failed to walk directory: ".toList ++ reason
  | invalidPattern pattern reason =>
      "Invalid exclude pattern '".toList ++ pattern ++ "': ".toList ++ reason

structure WalkEntry where
  path : Path
  isDirectory : Bool
  deriving DecidableEq, Repr

structure Walker where
  exclude : List Glob
  usesIgnoreFiles : Bool
  /-- The rules that the user has for all directories. -/
  userRules : IgnoreFile
  deriving Repr, Inhabited

namespace Walker

def ofPatterns (patterns : List Text) (usesIgnoreFiles : Bool) (userRules : IgnoreFile) :
    Except OutlineError Walker := do
  let globs ← patterns.mapM fun p =>
    (Glob.read p).mapError fun e => .invalidPattern p (e.message p)
  return ⟨globs, usesIgnoreFiles, userRules⟩

/-- Whether a glob matches the path through some names. -/
def isMatched (w : Walker) (names : List Text) : Bool :=
  w.exclude.any (·.isMatch (Text.joinWith ['/'] names))

/-- Whether a glob matches an entry, given by the names that lead to it; a directory counts as
matched where something in it would be. -/
def matchesEntry (w : Walker) (names : List Text) (isDirectory : Bool) : Bool :=
  w.isMatched names || (isDirectory && w.isMatched (names ++ [['_']]))

/-- Whether an entry is left out: it, or a directory on the way to it, is matched. -/
def excludes (w : Walker) (names : List Text) (isDirectory : Bool) : Bool :=
  w.matchesEntry names isDirectory ||
    ((List.range names.length).drop 1).any fun n => w.matchesEntry (names.take n) true

/-- An entry by the names that lead to it from the directory that is walked. -/
structure Visit where
  names : List Text
  isDirectory : Bool
  /-- Whether the visit stands for what a directory holds that cannot be listed. -/
  failed : Bool
  deriving DecidableEq, Repr

def Visit.entry (base : Path) (v : Visit) : WalkEntry :=
  ⟨v.names.foldl (fun p name => p.join ⟨name⟩) base, v.isDirectory⟩

/-- The name of the directory that is never listed. -/
def repositoryName : Text := ".git".toList

mutual

/-- The entries below a tree that stands at some names; `route` leads to the directory that is
walked, `fails` tells which directories cannot be listed, and `levels` are the ignore files met on
the way, the nearest first. -/
def visitBelow (w : Walker) (fails : List Text → Bool) (route : List Text)
    (levels : List IgnoreLevel) (names : List Text) : FileTree → List Visit
  | .file _ => []
  | .directory entries =>
      if fails (route ++ names) then [⟨names, false, true⟩]
      else visitAll w fails route levels names entries

/-- Some entries of a directory and what stands below them. -/
def visitAll (w : Walker) (fails : List Text → Bool) (route : List Text)
    (levels : List IgnoreLevel) (names : List Text) : List (Text × FileTree) → List Visit
  | [] => []
  | (name, t) :: rest =>
      let inner := names ++ [name]
      (if name = repositoryName ||
          (w.usesIgnoreFiles && IgnoreLevel.ignore levels (route ++ inner) t.isDirectory) then []
        else
          ⟨inner, t.isDirectory, false⟩ ::
            visitBelow w fails route (IgnoreLevel.ofDirectory (route ++ inner) t :: levels)
              inner t) ++
        visitAll w fails route levels names rest

end

/-- The ignore files of a directory and of all directories that hold it, the nearest first. -/
def levelsAt (root : FileTree) (route : List Text) : List IgnoreLevel :=
  (List.range (route.length + 1)).reverse.filterMap fun n =>
    (root.descend? (route.take n)).map (IgnoreLevel.ofDirectory (route.take n))

/-- The wording of a directory that cannot be listed. -/
def listingFailure (p : Path) (e : FileError) : Text :=
  p.text ++ ": IO error for operation on ".toList ++ p.text ++ ": ".toList ++ e.message

/-- Whether a visit is listed: the globs are not asked about failures. -/
def lists (w : Walker) (v : Visit) : Bool := v.failed || !w.excludes v.names v.isDirectory

def walk (w : Walker) (fs : FileSystem) (base : Path) : Except OutlineError (List WalkEntry) :=
  match fs.find base, fs.route base with
  | .ok t, .ok route =>
      if !t.isDirectory then .error (.notADirectory base.text)
      else
        match fs.listingError? route with
        | some e => .error (.walkFailed (listingFailure base e))
        | none =>
            let levels := levelsAt fs.root route ++ [.ofUser fs.workingDirectory w.userRules]
            let visits := visitBelow w fs.isUnlisted route levels [] t
            .ok ((visits.filter w.lists).map (Visit.entry base))
  | _, _ => .error (.directoryNotFound base.text)

end Walker

end CodeAtlas
