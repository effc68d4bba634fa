import CodeAtlas.Text.Utf8

/-!
# Globs

A glob describes paths. It is matched against the octets of a path as a whole: each token takes
some octets off the front and leaves a rest, and the glob matches when the last token leaves
nothing.
-/

namespace CodeAtlas

inductive GlobToken where
  /-- The character itself. -/
  | literal (c : Char)
  /-- Any one octet. -/
  | any
  /-- Any octets. -/
  | star
  /-- `**/` in front: nothing, or directories with the separator after them. -/
  | leadingDirectories
  /-- `/**` at the end: everything below a directory. -/
  | everythingBelow
  /-- `/**/` in between: a separator, or directories with separators around them. -/
  | innerDirectories
  /-- One octet in some ranges of characters, or in none of them. -/
  | oneOf (negated : Bool) (ranges : List (Char × Char))
  /-- One of some alternatives. -/
  | choice (branches : List (List GlobToken))
  deriving Repr, Inhabited

/-- A glob: its tokens, and whether `?` and `*` stop at separators. -/
structure Glob where
  tokens : List GlobToken
  stopsAtSeparator : Bool
  deriving Repr, Inhabited

namespace GlobToken

def separator : UInt8 := 47

/-- The rests after taking any number of octets that a test admits. -/
def tailsWhile (p : UInt8 → Bool) : Bytes → List Bytes
  | [] => [[]]
  | b :: bs => (b :: bs) :: if p b then tailsWhile p bs else []

/-- The rests right after each separator. -/
def afterSeparators : Bytes → List Bytes
  | [] => []
  | b :: bs => if b = separator then bs :: afterSeparators bs else afterSeparators bs

/-- What follows some octets, if they stand in front. -/
def stripBytes? : Bytes → Bytes → Option Bytes
  | [], bs => some bs
  | a :: as, b :: bs => if a = b then stripBytes? as bs else none
  | _ :: _, [] => none

def within (low high : UInt8) (b : UInt8) : Bool := low ≤ b && b ≤ high

def inRange (b : UInt8) (range : Char × Char) : Bool :=
  let low := Utf8.encode [range.1]
  if range.1 = range.2 then low.contains b
  else
    let high := Utf8.encode [range.2]
    low.dropLast.contains b || within (low.getLastD 0) (high.headD 0) b || (high.drop 1).contains b

/-- Rests of one subject are told apart by their lengths. -/
def distinct : List Bytes → List Bytes
  | [] => []
  | r :: rs => r :: (distinct rs).filter (·.length ≠ r.length)

mutual

/-- Whether a token asks for nothing at all. -/
def isVoid : GlobToken → Bool
  | choice branches => areVoidBranches branches
  | _ => false

def areVoid : List GlobToken → Bool
  | [] => true
  | t :: ts => t.isVoid && areVoid ts

def areVoidBranches : List (List GlobToken) → Bool
  | [] => true
  | b :: bs => areVoid b && areVoidBranches bs

end

mutual

/-- What a token may leave of a subject. -/
def rests (stops : Bool) : GlobToken → Bytes → List Bytes
  | literal c, bs => (stripBytes? (Utf8.encode [c]) bs).toList
  | any, bs =>
      match bs with
      | [] => []
      | b :: bs => if stops && b == separator then [] else [bs]
  | star, bs => tailsWhile (fun b => !(stops && b == separator)) bs
  | leadingDirectories, bs => bs :: afterSeparators bs
  | everythingBelow, bs =>
      match bs with
      | [] => []
      | b :: bs => if b = separator then tailsWhile (fun _ => true) bs else []
  | innerDirectories, bs =>
      match bs with
      | [] => []
      | b :: bs => if b = separator then bs :: afterSeparators bs else []
  | oneOf negated ranges, bs =>
      match bs with
      | [] => []
      | b :: bs => if ranges.any (inRange b) != negated then [bs] else []
  | choice branches, bs =>
      if areVoidBranches branches then [bs] else restsOfBranches stops branches bs

/-- What a sequence of tokens may leave of some subjects. -/
def restsOfAll (stops : Bool) : List GlobToken → List Bytes → List Bytes
  | [], subjects => subjects
  | t :: ts, subjects => restsOfAll stops ts (distinct (subjects.flatMap (rests stops t)))

/-- What one of some alternatives may leave; an alternative that asks for nothing is no choice. -/
def restsOfBranches (stops : Bool) : List (List GlobToken) → Bytes → List Bytes
  | [], _ => []
  | b :: branches, bs =>
      (if areVoid b then [] else restsOfAll stops b [bs]) ++ restsOfBranches stops branches bs

end

end GlobToken

namespace Glob

/-- Whether a glob matches a path; `**` alone matches every path. -/
def isMatch (g : Glob) (path : Text) : Bool :=
  match g.tokens with
  | [.leadingDirectories] => true
  | tokens =>
      (GlobToken.restsOfAll g.stopsAtSeparator tokens [Utf8.encode path]).any List.isEmpty

end Glob

end CodeAtlas
