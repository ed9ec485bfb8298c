/-!
# Faults

Charts, walks and builders can be driven by hand: entries pushed in any order, walks begun anywhere,
reports fed out of order. Their expectations may then fail, and a fault says which one did.
-/

namespace ParseForest

/-- An expectation that failed. -/
inductive Fault where
  /-- There is no such entry, vertex, column, token or antecedent. -/
  | outOfBounds
  /-- A position before the first column. -/
  | columnUnderflow
  /-- A position after the last one that there can be. -/
  | positionOverflow
  /-- There is no production of that number. -/
  | noSuchProduction (number : Nat)
  /-- An entry that starts after the column it is put into. -/
  | originAfterColumn (origin column : Nat)
  /-- A walk needs an entry that the chart does not hold. -/
  | missingEntry (label : String) (origin column : Nat)
  /-- The start of a nonterminal is met outside of any node. -/
  | neverEntered
  /-- A node is closed before any of its items was met. -/
  | nodeWithoutProduction
  /-- Nothing was closed when the tree is asked for. -/
  | treeWithoutRoot
  /-- A backtrack to an entry that was never visited. -/
  | neverVisited
  /-- An item is met outside of any node. -/
  | itemOutsideNode
  /-- An item is met inside a leaf. -/
  | itemOutsideNonterminal
  /-- An alternative is begun outside of any node. -/
  | alternativeWithoutNode
  /-- An alternative is begun inside something else than a nonterminal. -/
  | alternativeOutsideNonterminal
  /-- Nothing was visited when the forest is asked for. -/
  | forestWithoutRoot
deriving DecidableEq, Repr

/-- The fault in words, if it has any: being out of bounds needs none. -/
def Fault.message? : Fault → Option String
  | outOfBounds => none
  | columnUnderflow => some "attempt to subtract with overflow"
  | positionOverflow => some "attempt to add with overflow"
  | noSuchProduction number =>
    some ("ProdId ProdId(" ++ toString number ++ ") out of range")
  | originAfterColumn origin column =>
    some ("entry origin " ++ toString origin ++ " lies after its column " ++ toString column)
  | missingEntry label origin column =>
    some ("walk reached " ++ label ++ " from " ++ toString origin ++ " in column "
      ++ toString column ++ ", but the chart has no such entry")
  | neverEntered => some "start of a nonterminal that was never entered"
  | nodeWithoutProduction => some "a completed node has a production"
  | treeWithoutRoot => some "a walk always closes the accepting entry"
  | neverVisited => some "backtrack to an entry that was never visited"
  | itemOutsideNode => some "an item is always inside a node"
  | itemOutsideNonterminal => some "items are built inside nonterminals"
  | alternativeWithoutNode => some "alternatives belong to a node"
  | alternativeOutsideNonterminal => some "alternative outside of a nonterminal"
  | forestWithoutRoot => some "a walk always visits the accepting entry"

end ParseForest
