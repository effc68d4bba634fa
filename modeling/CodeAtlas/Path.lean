import CodeAtlas.Text.Basic

/-!
# Paths

A path is kept as it was written. Two spellings name the same place when their components agree:
repeated separators, a separator at the end and `.` anywhere but in front make no component.
-/

namespace CodeAtlas

structure Path where
  text : Text
  deriving DecidableEq, Repr, Inhabited

namespace Path

inductive Component where
  | root
  | here
  | up
  | name (n : Text)
  deriving DecidableEq, Repr

namespace Component

private def rank : Component → Nat
  | root => 0
  | here => 1
  | up => 2
  | name _ => 3

/-- The root comes first, then `.`, then `..`, then names in their own order. -/
instance : Ord Component where
  compare
    | name a, name b => compare a b
    | a, b => compare a.rank b.rank

end Component

def ofString (s : String) : Path := ⟨s.toList⟩

/-- Whether a piece between separators is a step of its own. -/
def isStep (piece : Text) : Bool := piece ≠ [] && piece ≠ ['.']

/-- What stands in front of the pieces: the root, a leading `.`, or nothing. -/
def anchor? (p : Path) : Option Component :=
  match p.text with
  | '/' :: _ => some .root
  | ['.'] | '.' :: '/' :: _ => some .here
  | _ => none

/-- The pieces between separators after the anchor. -/
def pieces (p : Path) : List Text :=
  let body := if p.anchor?.isSome then p.text.drop 1 else p.text
  if body = [] then [] else body.splitOn '/'

/-- The path with the given anchor and pieces. -/
def ofPieces (anchor : Option Component) (pieces : List Text) : Path :=
  let front := match anchor with
    | some .root => ['/']
    | some .here => ['.']
    | _ => []
  ⟨front ++ Text.joinWith ['/'] pieces⟩

def toStep (piece : Text) : Component := if piece = ['.', '.'] then .up else .name piece

def components (p : Path) : List Component :=
  p.anchor?.toList ++ (p.pieces.filter isStep).map toStep

def same (p q : Path) : Bool := p.components == q.components

/-- Paths in the order of their components. -/
def compareSteps (p q : Path) : Ordering := compare p.components q.components

def isAbsolute (p : Path) : Bool := p.anchor? == some .root

private def dropFillers (pieces : List Text) : List Text := pieces.dropWhile (!isStep ·)

def parent? (p : Path) : Option Path :=
  match dropFillers p.pieces.reverse with
  | _ :: rest => some (ofPieces p.anchor? (dropFillers rest).reverse)
  | [] => if p.anchor? = some .here then some ⟨[]⟩ else none

private def ancestorsWithin : Nat → Path → List Path
  | 0, p => [p]
  | fuel + 1, p =>
      p :: match p.parent? with
        | some q => ancestorsWithin fuel q
        | none => []

/-- The path itself, its parent, the parent of that, and so on. -/
def ancestors (p : Path) : List Path := ancestorsWithin p.text.length p

/-- The last step of a path, if it is a name. -/
def fileName? (p : Path) : Option Text :=
  match p.components.getLast? with
  | some (.name n) => some n
  | _ => none

/-- The parts of a file name before and after its last dot; a dot in front divides nothing. -/
private def splitExtension (name : Text) : Text × Option Text :=
  let after := name.reverse.takeWhile (· != '.')
  match name.reverse.drop after.length with
  | [] | [_] => (name, none)
  | _ :: before => (before.reverse, some after.reverse)

/-- The file name without its extension. -/
def stem? (p : Path) : Option Text := p.fileName?.map fun n => (splitExtension n).1

def extension? (p : Path) : Option Text := p.fileName?.bind fun n => (splitExtension n).2

/-- The second path seen from the first one. -/
def join (p q : Path) : Path :=
  if q.isAbsolute then q
  else if p.text = [] || p.text.getLast? = some '/' then ⟨p.text ++ q.text⟩
  else ⟨p.text ++ '/' :: q.text⟩

/-- Whether the steps of `base` begin the path. -/
def startsWith (p base : Path) : Bool := base.components.isPrefixOf p.components

private def dropSteps : Nat → List Text → List Text
  | _, [] => []
  | 0, pieces => dropFillers pieces
  | n + 1, piece :: pieces => if isStep piece then dropSteps n pieces else dropSteps (n + 1) pieces

/-- The rest of a path after the steps of `base`. -/
def relativeTo? (base p : Path) : Option Path :=
  if p.startsWith base then
    let trimEnd (l : List Text) := (dropFillers l.reverse).reverse
    match base.components.length with
    | 0 => some (ofPieces p.anchor? (trimEnd p.pieces))
    | n + 1 =>
        let steps := if p.anchor?.isSome then n else n + 1
        some (ofPieces none (trimEnd (dropSteps steps p.pieces)))
  else none

end Path

end CodeAtlas
