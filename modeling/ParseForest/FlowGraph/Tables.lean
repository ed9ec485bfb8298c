import ParseForest.FlowGraph.Basic
import ParseForest.Fault

/-!
# The tables of a flow graph

A flow graph is laid down in tables once, before any input is read. The vertices are entered first,
each under the next number, and every number is kept in an index. Then the arcs of all productions
are collected, their ends looked up in the indices, and after that they are handed out to the
vertices that they leave. Looking up an end that no index has is a fault.
-/

namespace ParseForest

/-- A dot in a production of `len` symbols. -/
structure DottedItem where
  prod : Nat
  dot : Nat
  len : Nat
deriving DecidableEq, Repr

namespace DottedItem

variable (i : DottedItem)

/-- Whether no symbol is before the dot. -/
def isInitial : Bool := i.dot == 0

/-- Whether all symbols are before the dot. -/
def isComplete : Bool := i.dot == i.len

/-- Whether there are no symbols at all. -/
def isEmptyProduction : Bool := i.len == 0

end DottedItem

/-- A vertex as it is entered into the tables. -/
inductive Node where
  | start (n : NonTerminal)
  | finish (n : NonTerminal)
  | item (i : DottedItem)
deriving DecidableEq, Repr

namespace Node

def vertex : Node → Vertex
  | start n => .start n
  | finish n => .finish n
  | item i => .item i.prod i.dot

def item? : Node → Option DottedItem
  | item i => some i
  | _ => none

end Node

/-- An edge as it is entered into the tables, with the number of its target. -/
inductive Arc where
  | epsilon (target : Nat)
  | call (target : Nat)
  | resume (target : Nat)
  | scan (t : Terminal) (target : Nat)
deriving DecidableEq, Repr

/-- The vertices by number, the arcs that leave them, and the numbers of starts, of finishes, and of
items by production and dot. -/
structure FlowGraph where
  grammar : Grammar
  nodes : Array Node
  arcs : Array (List Arc)
  starts : List (NonTerminal × Nat)
  finishes : List (NonTerminal × Nat)
  items : List ((Nat × Nat) × Nat)

namespace FlowGraph

def empty (G : Grammar) : FlowGraph :=
  ⟨G, #[], #[], [], [], []⟩

variable (g : FlowGraph)

/-! ### Entering vertices -/

/-- Enters a vertex under the next number. -/
def addNode (x : Node) : FlowGraph × Nat :=
  ({ g with nodes := g.nodes.push x, arcs := g.arcs.push [] }, g.nodes.size)

def addHead (n : NonTerminal) : FlowGraph :=
  let (g, start) := g.addNode (.start n)
  let (g, finish) := g.addNode (.finish n)
  { g with starts := (n, start) :: g.starts, finishes := (n, finish) :: g.finishes }

def addItem (p len dot : Nat) : FlowGraph :=
  let (g, id) := g.addNode (.item ⟨p, dot, len⟩)
  { g with items := ((p, dot), id) :: g.items }

/-- Enters the items of a production of the number `p`. -/
def addItems (p : Nat) (prod : Production) : FlowGraph :=
  let len := prod.body.length
  (List.range (len + 1)).foldl (fun g dot => g.addItem p len dot) g

def addVertices : FlowGraph :=
  let g := g.grammar.heads.foldl addHead g
  g.grammar.prods.zipIdx.foldl (fun g q => g.addItems q.2 q.1) g

/-! ### Numbers of vertices -/

def start? (n : NonTerminal) : Option Nat :=
  g.starts.lookup n

def finish? (n : NonTerminal) : Option Nat :=
  g.finishes.lookup n

def item? (p dot : Nat) : Option Nat :=
  g.items.lookup (p, dot)

/-- The number of a vertex, in the index for vertices of its kind. -/
def number? : Vertex → Option Nat
  | .start n => g.start? n
  | .finish n => g.finish? n
  | .item p dot => g.item? p dot

/-- The number of a vertex that is expected to have one. -/
def number (v : Vertex) : Except Fault Nat :=
  match g.number? v with
  | some id => .ok id
  | none => .error .outOfBounds

/-- The number of the start of the start symbol. -/
def initial : Except Fault Nat :=
  g.number (.start g.grammar.start)

/-- The number of the finish of the start symbol. -/
def accepting : Except Fault Nat :=
  g.number (.finish g.grammar.start)

/-! ### Entering arcs -/

/-- The arcs from the item before a symbol of the production of the number `p`, with the numbers of
their sources. -/
def symbolArcs (p dot : Nat) (s : Symbol) : Except Fault (List (Nat × Arc)) := do
  let source ← g.number (.item p dot)
  let next ← g.number (.item p (dot + 1))
  match s with
  | .terminal t => return [(source, .scan t next)]
  | .nonterminal n =>
    let start ← g.number (.start n)
    return [(source, .call start), (source, .resume next)]

/-- The arcs into, through and out of the production of the number `p`, with the numbers of their
sources. -/
def prodArcs (p : Nat) (prod : Production) : Except Fault (List (Nat × Arc)) := do
  let start ← g.number (.start prod.head)
  let first ← g.number (.item p 0)
  let inner ← prod.body.zipIdx.mapM fun s => g.symbolArcs p s.2 s.1
  let last ← g.number (.item p prod.body.length)
  let finish ← g.number (.finish prod.head)
  return (start, .epsilon first) :: inner.flatten ++ [(last, .epsilon finish)]

/-- The arcs of all productions, with the numbers of their sources. -/
def newArcs : Except Fault (List (Nat × Arc)) := do
  let arcs ← g.grammar.prods.zipIdx.mapM fun q => g.prodArcs q.2 q.1
  return arcs.flatten

/-- Puts an arc behind those that leave its source already. -/
def addArc (q : Nat × Arc) : Except Fault FlowGraph :=
  if q.1 < g.arcs.size then
    .ok { g with arcs := g.arcs.modify q.1 (· ++ [q.2]) }
  else
    .error .outOfBounds

def addArcs : Except Fault FlowGraph := do
  let arcs ← g.newArcs
  arcs.foldlM addArc g

/-- The tables of the flow graph of a grammar. -/
def build (G : Grammar) : Except Fault FlowGraph :=
  (empty G).addVertices.addArcs

/-! ### Around the dot -/

def node (id : Nat) : Except Fault Node :=
  match g.nodes[id]? with
  | some x => .ok x
  | none => .error .outOfBounds

/-- The production that a vertex belongs to. -/
def prod? (id : Nat) : Except Fault (Option Production) := do
  match (← g.node id).item? with
  | some i => return some (← g.grammar.prod i.prod)
  | none => return none

/-- The nonterminal that a vertex belongs to. -/
def headOf (id : Nat) : Except Fault NonTerminal := do
  match ← g.node id with
  | .start n => return n
  | .finish n => return n
  | .item i => return (← g.grammar.prod i.prod).head

/-- The symbol after the dot. -/
def next? (id : Nat) : Except Fault (Option Symbol) := do
  match (← g.node id).item? with
  | some i => return (← g.grammar.prod i.prod).body[i.dot]?
  | none => return none

/-- The symbol before the dot. -/
def prev? (id : Nat) : Except Fault (Option Symbol) := do
  match (← g.node id).item? with
  | some i => if i.dot = 0 then return none else return (← g.grammar.prod i.prod).body[i.dot - 1]?
  | none => return none

/-- The number of the item with the dot one symbol further left. -/
def prevItem? (id : Nat) : Except Fault (Option Nat) := do
  match (← g.node id).item? with
  | some i => if i.dot = 0 then return none else return g.item? i.prod (i.dot - 1)
  | none => return none

/-! ### Following arcs -/

/-- The arcs that leave a vertex. -/
def arcsFrom (id : Nat) : Except Fault (List Arc) :=
  match g.arcs[id]? with
  | some arcs => .ok arcs
  | none => .error .outOfBounds

def callTarget? (id : Nat) : Except Fault (Option Nat) := do
  return (← g.arcsFrom id).findSome? fun
    | .call target => some target
    | _ => none

def resumeTarget? (id : Nat) : Except Fault (Option Nat) := do
  return (← g.arcsFrom id).findSome? fun
    | .resume target => some target
    | _ => none

def scanTarget? (id : Nat) (t : Terminal) : Except Fault (Option Nat) := do
  return (← g.arcsFrom id).findSome? fun
    | .scan t' target => if t' = t then some target else none
    | _ => none

def epsilonTargets (id : Nat) : Except Fault (List Nat) := do
  return (← g.arcsFrom id).filterMap fun
    | .epsilon target => some target
    | _ => none

end FlowGraph

end ParseForest
