import ParseForest.Ordered

/-!
# Breadth-first search

The search expands values level by level: a level holds the values that one step leads to from the
level before and that were not seen earlier. Within a level values are expanded in increasing order,
and each value is expanded once.
-/

namespace ParseForest

universe u

variable {α : Type u} [Ord α] [BEq α]

/-- What a search has found: the values seen, in increasing order, and the values expanded, in the
order of their expansion. -/
structure Search (α : Type u) where
  seen : List α
  expanded : List α
deriving DecidableEq, Repr

namespace Search

/-- What a level is expanded into: the values of the next level so far, and all values seen. -/
structure Frontier (α : Type u) where
  next : List α
  seen : List α

/-- Puts a value that a step leads to into the next level, unless it was seen before. -/
def Frontier.meet (f : Frontier α) (a : α) : Frontier α :=
  if f.seen.contains a then f else ⟨Ordered.insert a f.next, Ordered.insert a f.seen⟩

/-- Meets what the values of a level lead to, one value after the other. -/
def expand (step : α → List α) (level : List α) (f : Frontier α) : Frontier α :=
  level.foldl (fun f a => (step a).foldl Frontier.meet f) f

/-- Expands a level and the levels after it, at most `bound` levels in all. -/
def levels (step : α → List α) : (bound : Nat) → (level seen : List α) → Search α
  | 0, _, seen => ⟨seen, []⟩
  | _ + 1, [], seen => ⟨seen, []⟩
  | bound + 1, a :: level, seen =>
    let f := expand step (a :: level) ⟨[], seen⟩
    let rest := levels step bound f.next f.seen
    ⟨rest.seen, a :: level ++ rest.expanded⟩

end Search

/-- The values that steps lead to from the initial ones. The bound has to exceed the number of
levels, for instance by being the number of all values that can be reached and one more. -/
def breadthFirst (bound : Nat) (initial : List α) (step : α → List α) : Search α :=
  Search.levels step bound (Ordered.ofList initial) (Ordered.ofList initial)

end ParseForest
