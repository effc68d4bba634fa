import CodeAtlas.Glob.Basic
import CodeAtlas.Text.Basic

/-!
# Reading globs

A glob is read one character at a time. What `*` means depends on the characters around it and on
what its branch holds already; a class is looked over to its end before it is taken.
-/

namespace CodeAtlas

inductive GlobError where
  | unclosedClass
  | invalidRange (low high : Char)
  | danglingEscape
  | unopenedGroup
  | unclosedGroup
  deriving DecidableEq, Repr, Inhabited

private def GlobError.reason : GlobError → Text
  | unclosedClass => "unclosed character class; missing ']'".toList
  | invalidRange low high =>
      "invalid range; '".toList ++ [low] ++ "' > '".toList ++ [high] ++ "'".toList
  | danglingEscape => "dangling '\\'".toList
  | unopenedGroup =>
      "unopened alternate group; missing '\x7b' (maybe escape '\x7d' with '[\x7d]'?)".toList
  | unclosedGroup =>
      "unclosed alternate group; missing '\x7d' (maybe escape '\x7b' with '[\x7b]'?)".toList

def GlobError.message (e : GlobError) (glob : Text) : Text :=
  "error parsing glob '".toList ++ glob ++ "': ".toList ++ e.reason

end CodeAtlas

namespace CodeAtlas.Glob

/-- A group that is still open: the tokens in front of it and its finished alternatives, both back
to front. -/
private structure OpenGroup where
  outer : List GlobToken
  branches : List (List GlobToken)

/-- What has been read: the open groups, the innermost first, and the tokens of the current branch
back to front. Once `[` has been taken for itself, every later one is too. -/
private structure Reading where
  groups : List OpenGroup
  current : List GlobToken
  plainBrackets : Bool

private def Reading.add (r : Reading) (t : GlobToken) : Reading :=
  ⟨r.groups, t :: r.current, r.plainBrackets⟩

/-- What is known inside a class: its ranges, the latest first, whether nothing was read yet, and
whether a range waits for its end. -/
private structure ClassReading where
  ranges : List (Char × Char)
  isFirst : Bool
  isRange : Bool

private def ClassReading.extend (r : ClassReading) (c : Char) : Except GlobError ClassReading :=
  match r.ranges with
  | (low, _) :: rest =>
      if c < low then .error (.invalidRange low c) else .ok ⟨(low, c) :: rest, false, false⟩
  | [] => .ok ⟨[(c, c)], false, false⟩

private def ClassReading.step (r : ClassReading) (c : Char) : Except GlobError ClassReading :=
  if r.isRange then r.extend c
  else if c = '-' && !r.isFirst then .ok ⟨r.ranges, false, true⟩
  else .ok ⟨(c, c) :: r.ranges, false, false⟩

/-- The ranges of a class and the number of characters up to its end, if it has one. -/
private def classFrom (r : ClassReading) (read : Nat) :
    Text → Except GlobError (Option (List (Char × Char) × Nat))
  | [] => .ok none
  | c :: cs =>
      if c = ']' && !r.isFirst then
        .ok (some (((if r.isRange then [('-', '-')] else []) ++ r.ranges).reverse, read + 1))
      else do classFrom (← r.step c) (read + 1) cs

/-- The class after an opening bracket and how many characters it takes. -/
private def classAfter (cs : Text) : Except GlobError (Option (GlobToken × Nat)) := do
  let negated := cs.head? = some '!' || cs.head? = some '^'
  let skipped := if negated then 1 else 0
  let found ← classFrom ⟨[], true, false⟩ skipped (cs.drop skipped)
  return found.map fun (ranges, read) => (.oneOf negated ranges, read)

/-- What `**` means between the previous character and the rest, and how many characters it takes
beyond the two stars. -/
private def doubleStar (r : Reading) (previous : Option Char) (rest : Text) : Reading × Nat :=
  let plain := ((r.add .star).add .star, 0)
  let inGroup := !r.groups.isEmpty
  if r.current.isEmpty then
    match rest with
    | [] => (r.add .leadingDirectories, 0)
    | '/' :: _ => (r.add .leadingDirectories, 1)
    | _ => plain
  else if previous != some '/' &&
      !(inGroup && (previous == some ',' || previous == some '\x7b')) then
    plain
  else
    let replace (t : GlobToken) : Reading :=
      match r.current with
      | .leadingDirectories :: _ => r
      | .everythingBelow :: _ => r
      | _ :: before => ⟨r.groups, t :: before, r.plainBrackets⟩
      | [] => r
    match rest with
    | [] => (replace .everythingBelow, 0)
    | '/' :: _ => (replace .innerDirectories, 1)
    | c :: _ =>
        if inGroup && (c == ',' || c == '\x7d') then (replace .everythingBelow, 0) else plain

private def nextBranch (r : Reading) : Reading :=
  match r.groups with
  | [] => r.add (.literal ',')
  | g :: outer => ⟨⟨g.outer, r.current.reverse :: g.branches⟩ :: outer, [], r.plainBrackets⟩

private def closeGroup (r : Reading) : Except GlobError Reading :=
  match r.groups with
  | [] => .error .unopenedGroup
  | g :: outer =>
      .ok ⟨outer, .choice (r.current.reverse :: g.branches).reverse :: g.outer, r.plainBrackets⟩

private def bracket (allowUnclosed : Bool) (r : Reading) (rest : Text) :
    Except GlobError (Reading × Nat) := do
  if r.plainBrackets then return (r.add (.literal '['), 0)
  match ← classAfter rest with
  | some (t, read) => return (r.add t, read)
  | none =>
      if allowUnclosed then return (⟨r.groups, .literal '[' :: r.current, true⟩, 0)
      else throw .unclosedClass

/-- Take one character, seen between the previous one and the rest, and say how many characters of
the rest are taken with it. -/
private def step (allowUnclosed : Bool) (r : Reading) (previous : Option Char) (c : Char)
    (rest : Text) : Except GlobError (Reading × Nat) :=
  match c, rest with
  | '?', _ => .ok (r.add .any, 0)
  | '*', '*' :: rest =>
      let (r, read) := doubleStar r previous rest
      .ok (r, read + 1)
  | '*', _ => .ok (r.add .star, 0)
  | '[', rest => bracket allowUnclosed r rest
  | '\x7b', _ => .ok (⟨⟨r.current, []⟩ :: r.groups, [], r.plainBrackets⟩, 0)
  | '\x7d', _ => do return (← closeGroup r, 0)
  | ',', _ => .ok (nextBranch r, 0)
  | '\\', d :: _ => .ok (r.add (.literal d), 1)
  | '\\', [] => .error .danglingEscape
  | c, _ => .ok (r.add (.literal c), 0)

/-- Read on after skipping characters that are taken already. -/
private def readFrom (allowUnclosed : Bool) (r : Reading) (skip : Nat) (previous : Option Char) :
    Text → Except GlobError (List GlobToken)
  | [] => if r.groups.isEmpty then .ok r.current.reverse else .error .unclosedGroup
  | c :: rest =>
      match skip with
      | skip + 1 => readFrom allowUnclosed r skip (some c) rest
      | 0 => do
          let (r, skip) ← step allowUnclosed r previous c rest
          readFrom allowUnclosed r skip (some c) rest

/-- The glob that a text writes, for paths to leave out: `*` and `?` take separators too. -/
def read (t : Text) : Except GlobError Glob := do
  return ⟨← readFrom false ⟨[], [], false⟩ 0 none t, false⟩

/-- The glob that a line of an ignore file writes: `*` and `?` stop at separators, and a bracket
that is not closed stands for itself. -/
def readIgnore (t : Text) : Except GlobError Glob := do
  return ⟨← readFrom true ⟨[], [], false⟩ 0 none t, true⟩

end CodeAtlas.Glob
