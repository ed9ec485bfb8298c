import ParseForest.Traversal
import ParseForest.Digraph
import ParseForest.Grammar.Printing

/-!
# Parse forests

A forest holds all derivations of an input in a graph. There is one node for each nonterminal and
range, so what is derived in many places is stored once. A node with more than one derivation is
ambiguous, and its children are then alternatives, each with the children of one derivation.
-/

namespace ParseForest

/-- A node of a forest; children are numbers of nodes. Those of an ambiguous nonterminal are
alternatives, one for each of its derivations. -/
inductive ForestNode where
  | token (index : Nat) (token : Token)
  | epsilon (position : Nat)
  | nonterminal (symbol : NonTerminal) (lo hi : Nat) (ambiguous : Bool) (children : List Nat)
  | alternative (symbol : NonTerminal) (prod lo hi : Nat) (children : List Nat)
deriving DecidableEq, Repr

namespace ForestNode

def lo : ForestNode → Nat
  | token index _ => index
  | epsilon position => position
  | nonterminal _ lo _ _ _ => lo
  | alternative _ _ lo _ _ => lo

def hi : ForestNode → Nat
  | token index _ => index + 1
  | epsilon position => position
  | nonterminal _ _ hi _ _ => hi
  | alternative _ _ _ hi _ => hi

def children : ForestNode → List Nat
  | token _ _ => []
  | epsilon _ => []
  | nonterminal _ _ _ _ children => children
  | alternative _ _ _ _ children => children

def isAmbiguous : ForestNode → Bool
  | nonterminal _ _ _ ambiguous _ => ambiguous
  | _ => false

def isAlternative : ForestNode → Bool
  | alternative _ _ _ _ _ => true
  | _ => false

/-- Whether the node is that of a nonterminal over a range. -/
def isAt (n : NonTerminal) (lo hi : Nat) : ForestNode → Bool
  | nonterminal symbol lo' hi' _ _ => symbol == n && lo' == lo && hi' == hi
  | _ => false

/-- The name of the node in a drawing. -/
def label : ForestNode → String
  | token _ t => t.lexeme
  | epsilon _ => emptySign
  | nonterminal symbol lo hi _ _ =>
    symbol.name ++ " [" ++ toString lo ++ ", " ++ toString hi ++ ")"
  | alternative symbol prod _ _ _ => symbol.name ++ " #" ++ toString prod

end ForestNode

/-- All derivations of an input. The root is the number of the node of the whole input. -/
structure Forest where
  nodes : Array ForestNode
  root : Nat
deriving DecidableEq, Repr

namespace Forest

variable (F : Forest)

def isAmbiguous : Bool :=
  F.nodes.any ForestNode.isAlternative

/-- The number of the node of a nonterminal over a range. -/
def find? (n : NonTerminal) (lo hi : Nat) : Option Nat :=
  F.nodes.findIdx? (·.isAt n lo hi)

/-! ### Traversal -/

/-- What a traversal from a node meets while the nodes `entered` are entered and not yet left.
A path without a repeated nonterminal has at most `bound` nodes. -/
def traverseFrom : (bound : Nat) → (entered : List Nat) → (id : Nat) → List Callback
  | 0, _, _ => []
  | bound + 1, entered, id =>
    match F.nodes[id]? with
    | none => []
    | some (.token index t) => [.token index t]
    | some (.epsilon position) => [.epsilon position]
    | some (.nonterminal symbol lo hi _ children) =>
      if id ∈ entered then
        [.cycle symbol lo hi]
      else
        .enter symbol lo hi ::
          (children.flatMap (traverseFrom bound (id :: entered)) ++ [.exit symbol lo hi])
    | some (.alternative symbol prod lo hi children) =>
      .enterAlternative symbol prod lo hi ::
        (children.flatMap (traverseFrom bound entered) ++ [.exitAlternative symbol prod lo hi])

/-- What a traversal from the root meets: a shared node once for each parent, and a nonterminal that
is met again below itself as a cycle. -/
def traverse : List Callback :=
  F.traverseFrom (2 * F.nodes.size + 2) [] F.root

/-- Makes visits one after another. Each finds the marks that the one before it has left. -/
def visitAll (visit : List Nat → Nat → List Callback × List Nat) :
    List Nat → List Nat → List Callback × List Nat
  | marked, [] => ([], marked)
  | marked, child :: children =>
    let first := visit marked child
    let rest := visitAll visit first.2 children
    (first.1 ++ rest.1, rest.2)

/-- A traversal from a node that keeps a set of marked nodes. A nonterminal is marked before its
children are visited and unmarked after them, and one that is marked is not gone into. Yields what is
met and the marks that are left. -/
def visitFrom : (bound : Nat) → (marked : List Nat) → (id : Nat) → List Callback × List Nat
  | 0, marked, _ => ([], marked)
  | bound + 1, marked, id =>
    match F.nodes[id]? with
    | none => ([], marked)
    | some (.token index t) => ([.token index t], marked)
    | some (.epsilon position) => ([.epsilon position], marked)
    | some (.nonterminal symbol lo hi _ children) =>
      if id ∈ marked then
        ([.cycle symbol lo hi], marked)
      else
        let below := visitAll (visitFrom bound) (Ordered.insert id marked) children
        (.enter symbol lo hi :: (below.1 ++ [.exit symbol lo hi]), below.2.erase id)
    | some (.alternative symbol prod lo hi children) =>
      let below := visitAll (visitFrom bound) marked children
      (.enterAlternative symbol prod lo hi :: (below.1 ++ [.exitAlternative symbol prod lo hi]),
        below.2)

/-- A traversal from the root, with no node marked at first. -/
def visit : List Callback × List Nat :=
  F.visitFrom (2 * F.nodes.size + 2) [] F.root

/-! ### Drawing -/

def nodeName (id : Nat) : String :=
  "n" ++ toString id

def drawing : Digraph where
  name := "forest"
  nodes := F.nodes.toList.zipIdx.map fun n => (nodeName n.2, n.1.label)
  arrows := F.nodes.toList.zipIdx.flatMap fun n =>
    n.1.children.map fun child => (nodeName n.2, nodeName child, "")

end Forest

end ParseForest
