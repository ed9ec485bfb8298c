import ParseForest.Grammar.Basic
import ParseForest.Change

/-!
# Nullable nonterminals

A nonterminal is nullable if it derives the empty input. The nullable set grows in passes over the
productions until a pass adds nothing; what a pass adds counts for the productions after it.
-/

namespace ParseForest

/-- Whether all symbols of a body are nonterminals of a set. -/
def Production.isNullableIn (nullable : List NonTerminal) (prod : Production) : Bool :=
  prod.body.all fun
    | .terminal _ => false
    | .nonterminal n => nullable.contains n

/-- Adds the head of a production to the nullable set, if its body allows it. -/
def Production.spreadNullable (nullable : List NonTerminal) (prod : Production) :
    List NonTerminal × Change :=
  if nullable.contains prod.head || !prod.isNullableIn nullable then
    (nullable, .unchanged)
  else
    (Ordered.insert prod.head nullable, .changed)

/-- The nullable set of a list of productions. Each pass but the last adds a head, so there are
never more passes than productions and one more. -/
def nullableSet (prods : List Production) : List NonTerminal :=
  Change.settle (fun s => Change.sweep Production.spreadNullable s prods) (prods.length + 1) []

namespace Grammar

variable (G : Grammar)

/-- The nullable nonterminals of a grammar, in increasing order. -/
def nullable : List NonTerminal :=
  nullableSet G.prods

/-- Whether a symbol derives the empty input; terminals never do. -/
def isNullable : Symbol → Bool
  | .terminal _ => false
  | .nonterminal n => G.nullable.contains n

end Grammar

end ParseForest
