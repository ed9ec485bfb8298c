import ParseForest.Grammar.Basic

/-!
# The flow graph of a grammar

The graph has a start and a finish vertex for each nonterminal, and an item vertex for each place of
a dot in each production. An edge is one step of a leftmost derivation: entering a production,
reading a terminal, calling a nonterminal, or leaving a complete production. A return edge bridges a
call: it is taken when the called nonterminal has reached its finish.

Vertices are numbered: first start and finish of each head in the order of the heads, then the items
of each production in the order of the productions and of the dots.
-/

namespace ParseForest

/-- A vertex of a flow graph: before the productions of a nonterminal, behind them, or inside a
production after its first `dot` symbols. -/
inductive Vertex where
  | start (n : NonTerminal)
  | finish (n : NonTerminal)
  | item (prod dot : Nat)
deriving DecidableEq, Repr

/-- An edge of a flow graph, seen from its source. A call goes to the start of the nonterminal after
the dot, and a resume moves the dot over a nonterminal that has been completed. -/
inductive Edge where
  | epsilon (target : Vertex)
  | call (target : Vertex)
  | resume (target : Vertex)
  | scan (t : Terminal) (target : Vertex)
deriving DecidableEq, Repr

namespace Edge

def target : Edge → Vertex
  | epsilon v => v
  | call v => v
  | resume v => v
  | scan _ v => v

end Edge

namespace Vertex

/-- The production that an item belongs to. -/
def prod? : Vertex → Option Nat
  | item p _ => some p
  | _ => none

/-- The item with the dot one symbol further left. -/
def prevItem? : Vertex → Option Vertex
  | item p (dot + 1) => some (item p dot)
  | _ => none

end Vertex

namespace Grammar

variable (G : Grammar)

/-! ### Around the dot -/

/-- The nonterminal that a vertex belongs to. -/
def headOf? : Vertex → Option NonTerminal
  | .start n => some n
  | .finish n => some n
  | .item p _ => G.prods[p]?.map (·.head)

def next? : Vertex → Option Symbol
  | .item p dot => G.symbolAt? p dot
  | _ => none

def prev? : Vertex → Option Symbol
  | .item p (dot + 1) => G.symbolAt? p dot
  | _ => none

/-- Whether an item has all symbols of its production before the dot. -/
def isComplete : Vertex → Bool
  | .item p dot => G.prods[p]?.any fun prod => prod.body.length == dot
  | _ => false

/-- Whether an item is the only item of an empty production. -/
def isEmptyItem : Vertex → Bool
  | .item p _ => G.prods[p]?.any (·.body.isEmpty)
  | _ => false

/-! ### Vertices -/

def itemsOf (p : Nat) (prod : Production) : List Vertex :=
  (List.range (prod.body.length + 1)).map (.item p)

/-- All vertices by number. -/
def vertices : List Vertex :=
  (G.heads.flatMap fun n => [.start n, .finish n])
    ++ G.prods.zipIdx.flatMap fun p => itemsOf p.2 p.1

/-- The number of a vertex. -/
def vertexId? (v : Vertex) : Option Nat :=
  G.vertices.findIdx? (· == v)

/-! ### Edges -/

/-- The edges that leave a vertex: from a start to the first item of each production in their order,
from an item over or into the symbol after the dot, from a complete item to the finish of its
head. -/
def edges : Vertex → List Edge
  | .start n => (G.prodsOf n).map fun p => .epsilon (.item p 0)
  | .finish _ => []
  | .item p dot =>
    match G.prods[p]? with
    | none => []
    | some prod =>
      match prod.body[dot]? with
      | some (.terminal t) => [.scan t (.item p (dot + 1))]
      | some (.nonterminal n) => [.call (.start n), .resume (.item p (dot + 1))]
      | none => if prod.body.length = dot then [.epsilon (.finish prod.head)] else []

def callTarget? (v : Vertex) : Option Vertex :=
  (G.edges v).findSome? fun
    | .call w => some w
    | _ => none

def resumeTarget? (v : Vertex) : Option Vertex :=
  (G.edges v).findSome? fun
    | .resume w => some w
    | _ => none

def scanTarget? (v : Vertex) (t : Terminal) : Option Vertex :=
  (G.edges v).findSome? fun
    | .scan t' w => if t' = t then some w else none
    | _ => none

/-- The targets of the edges that read nothing and call nothing. -/
def epsilonTargets (v : Vertex) : List Vertex :=
  (G.edges v).filterMap fun
    | .epsilon w => some w
    | _ => none

end Grammar

end ParseForest
