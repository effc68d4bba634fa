import CodeAtlas.Order
import CodeAtlas.Query.Pattern
import CodeAtlas.Syntax.Buffer

/-!
# Matching

All ways in which the rules of a query fit a syntax tree. Children match in order with others
between them, and every choice of children is a match of its own; of the matches of one rule only
those stay whose captures are not part of those of another match.
-/

namespace CodeAtlas.Query

structure Capture where
  name : String
  site : Site
  deriving Repr, Inhabited

/-- Whether two captures remember the same node under the same name. -/
def Capture.same (a b : Capture) : Bool := a.name == b.name && a.site.same b.site

/-- The captures of one fit of a rule, and the number of the rule. -/
structure Match where
  rule : Nat
  captures : List Capture
  deriving Repr, Inhabited

/-- Whether a node is of a kind, or of any kind but no error. -/
def fitsKind (kind : Option String) (s : Site) : Bool :=
  s.label.named &&
    match kind with
    | some k => s.kind == k
    | none => !s.label.isError

mutual

/-- The captures of every fit of a pattern at a node. -/
def Pattern.matchAt : Pattern → Site → List (List Capture)
  | .node kind children, s =>
      if fitsKind kind s then Pattern.matchChildren children s.children else []
  | .anyOf branches, s => Pattern.matchAny branches s
  | .field f p, s => if s.label.field == f then p.matchAt s else []
  | .capture p name, s => (p.matchAt s).map (⟨name, s⟩ :: ·)
  | .optional p, s => p.matchAt s

/-- The captures of every fit of one of the patterns at a node. -/
def Pattern.matchAny : List Pattern → Site → List (List Capture)
  | [], _ => []
  | p :: ps, s => p.matchAt s ++ Pattern.matchAny ps s

/-- The captures of every fit of the patterns, in order, among some siblings. -/
def Pattern.matchChildren : List Pattern → List Site → List (List Capture)
  | [], _ => [[]]
  | p :: ps, sites =>
      ((picks sites).flatMap fun (s, later) =>
        (p.matchAt s).flatMap fun first => (Pattern.matchChildren ps later).map (first ++ ·)) ++
      if p.isOptional then Pattern.matchChildren ps sites else []

end

/-- The siblings that stand directly before a node and fit a pattern, in source order; unnamed
nodes right before the node are passed over. -/
def Lead.run (lead : Lead) (s : Site) : List Site :=
  ((s.earlierSiblings.dropWhile (!·.label.named)).takeWhile
    fun t => !(lead.pattern.matchAt t).isEmpty).reverse

/-- The captures of every fit of a rule at a node, tests aside. -/
def Rule.matchAt (r : Rule) (s : Site) : List (List Capture) :=
  let front := match r.lead with
    | some lead => (lead.run s).map (Capture.mk lead.capture)
    | none => []
  (r.pattern.matchAt s).map (front ++ ·)

/-- Whether every capture of one fit is one of another. -/
def within (a b : List Capture) : Bool := a.all fun c => b.any c.same

/-- The fits without those that have the same captures as an earlier one. -/
def dropRepeated : List (List Capture) → List (List Capture)
  | [] => []
  | m :: ms =>
      m :: (dropRepeated ms).filter fun other => !(within m other && within other m)

/-- The fits that are no proper part of another one, each of them once. -/
def maximal (fits : List (List Capture)) : List (List Capture) :=
  dropRepeated (fits.filter fun m => !fits.any fun other => within m other && !within other m)

/-- Whether every node captured under the name of a test has the text of the test. -/
def TextTest.holds (source : Buffer) (test : TextTest) (captures : List Capture) : Bool :=
  captures.all fun c => c.name != test.capture ||
    source.bytes.slice c.site.startByte c.site.endByte == Utf8.encode test.text

/-- The fits of a rule anywhere in a tree. -/
def Rule.run (r : Rule) (source : Buffer) (t : Tree) : List (List Capture) :=
  (maximal (t.sites.flatMap r.matchAt)).filter fun captures =>
    r.tests.all (·.holds source captures)

def run (rules : List Rule) (source : Buffer) (t : Tree) : List Match :=
  rules.zipIdx.flatMap fun (r, i) => (r.run source t).map (Match.mk i)

end CodeAtlas.Query
