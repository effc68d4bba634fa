/-!
# Order

A stable sort by insertion, the removal of repeated neighbours, and the choice of the best element
for each key. An element is inserted before the first element it may precede, so elements the order
does not tell apart keep their places.
-/

namespace CodeAtlas

def insertBy {α : Type} (le : α → α → Bool) (a : α) : List α → List α
  | [] => [a]
  | b :: bs => if le a b then a :: b :: bs else b :: insertBy le a bs

/-- The elements of a list in the order `le`, ties in their given order. -/
def sortBy {α : Type} (le : α → α → Bool) : List α → List α
  | [] => []
  | a :: as => insertBy le a (sortBy le as)

/-- The elements that `same` does not identify with the one before them, `last` being the first one.
-/
def dropRepeats {α : Type} (same : α → α → Bool) (last : α) : List α → List α
  | [] => []
  | a :: as => if same last a then dropRepeats same last as else a :: dropRepeats same a as

/-- The first element of every run of neighbours that `same` identifies. -/
def dedupRuns {α : Type} (same : α → α → Bool) : List α → List α
  | [] => []
  | a :: as => a :: dropRepeats same a as

/-- Put an element in place of one with the same key, if it is better, or else at the end. -/
def putBest {α : Type} (same better : α → α → Bool) (a : α) : List α → List α
  | [] => [a]
  | b :: bs =>
      if same a b then (if better a b then a else b) :: bs else b :: putBest same better a bs

/-- For each key the best element, in the order in which the keys first come up. Two elements have
one key if `same` identifies them, and a later one counts if it is `better` than the one so far. -/
def keepBest {α : Type} (same better : α → α → Bool) (as : List α) : List α :=
  as.foldl (fun kept a => putBest same better a kept) []

/-- Each element of a list together with the elements after it. -/
def picks {α : Type} : List α → List (α × List α)
  | [] => []
  | a :: as => (a, as) :: picks as

end CodeAtlas
