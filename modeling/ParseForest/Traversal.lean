import ParseForest.Token

/-!
# Traversals

A depth-first traversal of a tree or a forest is the list of what it meets, in order: nonterminals
and alternatives being entered and left, leaves, and nonterminals that are met again below
themselves.
-/

namespace ParseForest

/-- What a traversal meets. Nonterminals and alternatives are met before and after their children; a
cycle is a nonterminal that is already entered and not yet left. -/
inductive Callback where
  | enter (symbol : NonTerminal) (lo hi : Nat)
  | exit (symbol : NonTerminal) (lo hi : Nat)
  | enterAlternative (symbol : NonTerminal) (prod lo hi : Nat)
  | exitAlternative (symbol : NonTerminal) (prod lo hi : Nat)
  | token (index : Nat) (token : Token)
  | epsilon (position : Nat)
  | cycle (symbol : NonTerminal) (lo hi : Nat)
deriving DecidableEq, Repr

end ParseForest
