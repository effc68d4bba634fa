import CodeAtlas.Position
import CodeAtlas.Text.Basic

/-!
# Syntax trees

A syntax tree as a grammar yields it: every node has a kind, a range of bytes and its children, and
may fill a field of its parent. A site is a node together with its place in the tree, so that its
parent and its earlier siblings can be reached.
-/

namespace CodeAtlas

/-- What a node says of itself: its kind, whether the grammar names it, whether it stands for text
the grammar could not read, the field it fills in its parent, and the bytes it covers. -/
structure Label where
  kind : String
  named : Bool
  isError : Bool
  field : String
  startByte : Nat
  endByte : Nat
  deriving DecidableEq, Repr, Inhabited

/-- A node and its children in source order. -/
inductive Tree where
  | node (label : Label) (children : List Tree)
  deriving Repr, Inhabited

namespace Tree

def label : Tree → Label
  | node l _ => l

def children : Tree → List Tree
  | node _ cs => cs

end Tree

/-- A parent on the way up from a node, and the siblings before the node, the nearest first. -/
structure Crumb where
  parent : Tree
  earlier : List Tree
  deriving Repr, Inhabited

/-- A node in its place: the way up starts at its parent. -/
structure Site where
  tree : Tree
  above : List Crumb
  deriving Repr, Inhabited

namespace Site

def ofTree (t : Tree) : Site := ⟨t, []⟩

def label (s : Site) : Label := s.tree.label

def kind (s : Site) : String := s.label.kind

def startByte (s : Site) : Nat := s.label.startByte

def endByte (s : Site) : Nat := s.label.endByte

/-- The way from the root: the number of earlier siblings at each step, the last step first. It
tells the nodes of one tree apart. -/
def path (s : Site) : List Nat := s.above.map (·.earlier.length)

/-- Whether two sites of one tree hold the same node. -/
def same (s t : Site) : Bool := s.path == t.path

/-- Some children of a node in their places, after the siblings before them, the nearest first. -/
def childrenAfter (parent : Tree) (above : List Crumb) (earlier : List Tree) :
    List Tree → List Site
  | [] => []
  | c :: cs => ⟨c, ⟨parent, earlier⟩ :: above⟩ :: childrenAfter parent above (c :: earlier) cs

def children (s : Site) : List Site := childrenAfter s.tree s.above [] s.tree.children

def parent? (s : Site) : Option Site :=
  match s.above with
  | [] => none
  | c :: above => some ⟨c.parent, above⟩

private def ancestorsOf : List Crumb → List Site
  | [] => []
  | c :: above => ⟨c.parent, above⟩ :: ancestorsOf above

/-- The parents of a node, the nearest first. -/
def ancestors (s : Site) : List Site := ancestorsOf s.above

/-- The siblings before a node in their places, the nearest first. -/
def siblingsIn (parent : Tree) (above : List Crumb) : List Tree → List Site
  | [] => []
  | t :: earlier => ⟨t, ⟨parent, earlier⟩ :: above⟩ :: siblingsIn parent above earlier

/-- The siblings before a node, the nearest first. -/
def earlierSiblings (s : Site) : List Site :=
  match s.above with
  | [] => []
  | c :: above => siblingsIn c.parent above c.earlier

/-- The first child that fills a field. -/
def childByField? (s : Site) (field : String) : Option Site :=
  s.children.find? (·.label.field == field)

/-- The first child of one of some kinds. -/
def childOfKind? (s : Site) (kinds : List String) : Option Site :=
  s.children.find? (kinds.contains ·.kind)

def childrenOfKind (s : Site) (kind : String) : List Site := s.children.filter (·.kind == kind)

/-- The first child that the grammar names. -/
def firstNamedChild? (s : Site) : Option Site := s.children.find? (·.label.named)

/-- Whether a parent of the node, however far up, is of one of some kinds. -/
def isWithin (s : Site) (kinds : List String) : Bool := s.ancestors.any (kinds.contains ·.kind)

/-- The number of parents of some kinds. -/
def depthWithin (s : Site) (kinds : List String) : Nat :=
  s.ancestors.countP (kinds.contains ·.kind)

def isComment (s : Site) : Bool := Text.occursIn "comment".toList s.kind.toList

end Site

mutual

/-- The node and all nodes below it, parents before children. -/
def Tree.sitesFrom (above : List Crumb) : Tree → List Site
  | .node l cs => ⟨.node l cs, above⟩ :: Tree.sitesAmong above (.node l cs) [] cs

/-- The nodes of some children and below them. -/
def Tree.sitesAmong (above : List Crumb) (parent : Tree) (earlier : List Tree) :
    List Tree → List Site
  | [] => []
  | c :: cs =>
      Tree.sitesFrom (⟨parent, earlier⟩ :: above) c ++
        Tree.sitesAmong above parent (c :: earlier) cs

end

/-- All nodes of a tree in their places, parents before children. -/
def Tree.sites (t : Tree) : List Site := t.sitesFrom []

end CodeAtlas
