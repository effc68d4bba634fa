import CodeAtlas.Text.Basic

/-!
# Patterns

What a query looks for in a syntax tree. A pattern describes one node and some of its children; a
rule adds the comments that stand before the node and tests on the captured text.
-/

namespace CodeAtlas.Query

inductive Pattern where
  /-- A named node of a kind, or of any kind, with children that match in order. -/
  | node (kind : Option String) (children : List Pattern)
  /-- A node that one of the patterns describes. -/
  | anyOf (branches : List Pattern)
  /-- A node that fills a field of its parent. -/
  | field (name : String) (pattern : Pattern)
  /-- A node remembered under a name. -/
  | capture (pattern : Pattern) (name : String)
  /-- A child that may be missing. -/
  | optional (pattern : Pattern)
  deriving Repr, Inhabited

mutual

def Pattern.decEq : (p q : Pattern) → Decidable (p = q)
  | .node k ps, .node k' qs =>
      have := Pattern.decEqAll ps qs
      decidable_of_iff (k = k' ∧ ps = qs) (by simp)
  | .anyOf ps, .anyOf qs =>
      have := Pattern.decEqAll ps qs
      decidable_of_iff (ps = qs) (by simp)
  | .field f p, .field g q =>
      have := Pattern.decEq p q
      decidable_of_iff (f = g ∧ p = q) (by simp)
  | .capture p c, .capture q d =>
      have := Pattern.decEq p q
      decidable_of_iff (p = q ∧ c = d) (by simp)
  | .optional p, .optional q =>
      have := Pattern.decEq p q
      decidable_of_iff (p = q) (by simp)
  | .node .., .anyOf .. | .node .., .field .. | .node .., .capture .. | .node .., .optional ..
  | .anyOf .., .node .. | .anyOf .., .field .. | .anyOf .., .capture .. | .anyOf .., .optional ..
  | .field .., .node .. | .field .., .anyOf .. | .field .., .capture .. | .field .., .optional ..
  | .capture .., .node .. | .capture .., .anyOf .. | .capture .., .field ..
  | .capture .., .optional .. | .optional .., .node .. | .optional .., .anyOf ..
  | .optional .., .field .. | .optional .., .capture .. => .isFalse nofun

def Pattern.decEqAll : (ps qs : List Pattern) → Decidable (ps = qs)
  | [], [] => .isTrue rfl
  | [], _ :: _ | _ :: _, [] => .isFalse nofun
  | p :: ps, q :: qs =>
      have := Pattern.decEq p q
      have := Pattern.decEqAll ps qs
      decidable_of_iff (p = q ∧ ps = qs) (by simp)

end

instance : DecidableEq Pattern := Pattern.decEq

/-- Whether a child with this pattern may be missing. -/
def Pattern.isOptional : Pattern → Bool
  | .node _ _ => false
  | .anyOf _ => false
  | .field _ p => p.isOptional
  | .capture p _ => p.isOptional
  | .optional _ => true

/-- Siblings in front of a node that are captured with it. -/
structure Lead where
  pattern : Pattern
  capture : String
  deriving DecidableEq, Repr, Inhabited

/-- The demand that every node captured under a name has a given text. -/
structure TextTest where
  capture : String
  text : Text
  deriving DecidableEq, Repr, Inhabited

/-- A pattern with the siblings it takes along and the tests on its captures. -/
structure Rule where
  lead : Option Lead
  pattern : Pattern
  tests : List TextTest
  deriving DecidableEq, Repr, Inhabited

end CodeAtlas.Query
