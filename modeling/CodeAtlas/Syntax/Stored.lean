import CodeAtlas.Extract.Document
import CodeAtlas.Json.Reader
import CodeAtlas.Text.Number

/-!
# Stored syntax trees

Syntax trees of some sources, as a parser has written them down in JSON: for each source its
language, its text, and the nodes of its tree with every node before its children. A node is an
array of its kind, its flags, its two offsets, its field and the number of its children.
-/

namespace CodeAtlas

/-- A node without its children, and how many it has. -/
private structure FlatNode where
  label : Label
  childCount : Nat

private def number? : Json.Value → Option Nat
  | .number digits => Text.toWord? digits
  | _ => none

private def text? : Json.Value → Option Text
  | .string t => some t
  | _ => none

/-- The lowest flag says that a node is named, the fourth that it is an error. -/
private def flatNode? : Json.Value → Option FlatNode
  | .array [kind, flags, start, stop, field, count] => do
      let flags ← number? flags
      return ⟨⟨String.ofList (← text? kind), flags % 2 == 1, flags / 8 % 2 == 1,
        String.ofList (← text? field), ← number? start, ← number? stop⟩, ← number? count⟩
  | _ => none

/-- Put a node in front of the trees that follow it; the first of them are its children. -/
private def adopt (n : FlatNode) (later : List Tree) : List Tree :=
  .node n.label (later.take n.childCount) :: later.drop n.childCount

/-- The trees of nodes that are written each before its children. -/
private def Tree.ofNodes (nodes : List FlatNode) : List Tree := nodes.foldr adopt []

private structure StoredTree where
  language : Language
  source : Text
  tree : Tree

private def field? (v : Json.Value) (name : String) : Option Json.Value := (v.fields name).head?

private def storedTree? (v : Json.Value) : Option StoredTree := do
  let language ← Language.ofName? (String.ofList (← text? (← field? v "language")))
  let source ← text? (← field? v "source")
  let .array nodes ← field? v "nodes" | none
  let tree ← (Tree.ofNodes (← nodes.mapM flatNode?)).head?
  return ⟨language, source, tree⟩

/-- The grammars that know the trees of the sources in a text, and no others. -/
def Grammars.ofText? (t : Text) : Option Grammars := do
  let .array items ← Json.read? t | none
  let stored ← items.mapM storedTree?
  return fun language source =>
    (stored.find? fun s => s.language = language && s.source = source).map (·.tree)

end CodeAtlas
