import ParseForest.Recognition.Basic

/-!
# Local ambiguity

A chart shows two kinds of ambiguity: two productions of one nonterminal that are complete over the
same part of the input, and an item that was reached through several completed nonterminals.
-/

namespace ParseForest.Parsing

variable (P : Parsing)

/-- Whether an entry is an item with something before its dot and more than one antecedent. -/
def isSplit (e : Entry) : Bool :=
  match e.vertex with
  | .item _ (_ + 1) => e.isBranching
  | _ => false

/-- The head and the origin of a complete item. -/
def completion? (e : Entry) : Option (NonTerminal × Nat) :=
  if P.grammar.isComplete e.vertex then
    (P.grammar.headOf? e.vertex).map fun n => (n, e.origin)
  else
    none

def column (i : Nat) : List Entry :=
  (P.chart.ids i).filterMap fun id => P.chart.entries[id]?

def hasRepetition {α : Type} [BEq α] : List α → Bool
  | [] => false
  | a :: l => l.contains a || hasRepetition l

/-- Whether some part of the input has more than one derivation. -/
def isAmbiguous : Bool :=
  (List.range P.chart.columns.size).any fun i =>
    (P.column i).any isSplit || hasRepetition ((P.column i).filterMap P.completion?)

end ParseForest.Parsing
