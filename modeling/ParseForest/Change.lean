/-!
# Passes until nothing changes

A pass over some items reports whether it changed anything, and passes are repeated until one
reports no change.
-/

namespace ParseForest

universe u v

/-- Whether something was changed. -/
inductive Change where
  | changed
  | unchanged
deriving DecidableEq, Repr

namespace Change

/-- A change if the condition holds. -/
def ofBool : Bool → Change
  | true => changed
  | false => unchanged

/-- A change if either part changed something. -/
def join : Change → Change → Change
  | unchanged, unchanged => unchanged
  | _, _ => changed

/-- Visits every item once and joins their reports. -/
def sweep {α : Type u} {σ : Type v} (visit : σ → α → σ × Change) : σ → List α → σ × Change
  | s, [] => (s, unchanged)
  | s, a :: items =>
    let first := visit s a
    let rest := sweep visit first.1 items
    (rest.1, first.2.join rest.2)

/-- The state and the report after each pass, up to the first pass that changes nothing and at most
`bound` passes. -/
def passes {σ : Type v} (pass : σ → σ × Change) : (bound : Nat) → σ → List (σ × Change)
  | 0, _ => []
  | bound + 1, s =>
    match pass s with
    | (s', unchanged) => [(s', unchanged)]
    | (s', changed) => (s', changed) :: passes pass bound s'

/-- The state after the last pass. -/
def settle {σ : Type v} (pass : σ → σ × Change) (bound : Nat) (s : σ) : σ :=
  ((passes pass bound s).getLast?.map (·.1)).getD s

end Change

end ParseForest
