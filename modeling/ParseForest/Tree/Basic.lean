import ParseForest.Traversal
import ParseForest.Grammar.Printing

/-!
# Parse trees

A tree is one derivation of a part of an input. Its inner nodes name the production they were made
by, and its leaves are tokens of the input or stand for nothing at a position.
-/

namespace ParseForest

/-- One derivation, with the empty derivation as a leaf. -/
inductive Tree where
  | token (index : Nat) (token : Token)
  | epsilon (position : Nat)
  | node (symbol : NonTerminal) (prod lo hi : Nat) (children : List Tree)
deriving Repr

namespace Tree

def lo : Tree → Nat
  | token index _ => index
  | epsilon position => position
  | node _ _ lo _ _ => lo

def hi : Tree → Nat
  | token index _ => index + 1
  | epsilon position => position
  | node _ _ _ hi _ => hi

/-! ### Size -/

mutual

/-- The number of nodes on a longest path from the root to a leaf. -/
def depth : Tree → Nat
  | token _ _ => 1
  | epsilon _ => 1
  | node _ _ _ _ children => 1 + maxDepth children

def maxDepth : List Tree → Nat
  | [] => 0
  | t :: ts => max t.depth (maxDepth ts)

end

/-! ### Traversal -/

mutual

/-- The nodes of a tree with their depths, each before its children; the root is at depth `d`. -/
def preorder (d : Nat) : Tree → List (Nat × Tree)
  | token index t => [(d, token index t)]
  | epsilon position => [(d, epsilon position)]
  | node symbol prod lo hi children =>
    (d, node symbol prod lo hi children) :: preorderList (d + 1) children

/-- The nodes of some trees with their depths, one tree after the other. -/
def preorderList (d : Nat) : List Tree → List (Nat × Tree)
  | [] => []
  | t :: ts => t.preorder d ++ preorderList d ts

end

mutual

/-- What a traversal of the tree meets. -/
def traverse : Tree → List Callback
  | token index t => [.token index t]
  | epsilon position => [.epsilon position]
  | node symbol _ lo hi children =>
    .enter symbol lo hi :: (traverseList children ++ [.exit symbol lo hi])

/-- What a traversal of some trees meets, one tree after the other. -/
def traverseList : List Tree → List Callback
  | [] => []
  | t :: ts => t.traverse ++ traverseList ts

end

/-! ### Text -/

mutual

/-- The tree as a document: a node is its symbol and its children between parentheses. -/
def doc : Tree → Doc
  | token _ t => .text t.lexeme
  | epsilon _ => .text emptySign
  | node symbol _ _ _ children =>
    .group (.text "(" ++ .text symbol.name
      ++ .nest 2 (.line ++ .intersperse .line (docs children)) ++ .text ")")

def docs : List Tree → List Doc
  | [] => []
  | t :: ts => t.doc :: docs ts

end

end Tree

end ParseForest
