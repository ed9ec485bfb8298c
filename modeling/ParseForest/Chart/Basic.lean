import ParseForest.FlowGraph.Basic
import ParseForest.Fault

/-!
# Charts

A chart has a column for each position of an input. An entry of a column says that a vertex of the
flow graph can be reached there by a phrase that began at the origin of the entry. Entries are
numbered in the order of their creation, a column holds at most one entry for a vertex and an
origin, and an entry collects its antecedents: the entries that it was pushed for.
-/

namespace ParseForest

/-- A vertex reached in a column, and where the phrase of the vertex began. The antecedents are the
entries that it was pushed for, without repetitions, in the order of their first push. -/
structure Entry where
  vertex : Vertex
  origin : Nat
  column : Nat
  antecedents : List Nat
deriving DecidableEq, Repr

namespace Entry

/-- Whether there is more than one way to reach the entry. -/
def isBranching (e : Entry) : Bool :=
  1 < e.antecedents.length

/-- The entry with one more antecedent, if it is a new one. -/
def addAntecedent (e : Entry) (id : Nat) : Entry :=
  if id ∈ e.antecedents then e else { e with antecedents := e.antecedents ++ [id] }

/-- Whether the entry is that of a vertex and an origin. -/
def isAt (e : Entry) (v : Vertex) (origin : Nat) : Bool :=
  e.vertex == v && e.origin == origin

end Entry

/-- Entries by number, and the numbers of the entries of each column in the order of their
creation. -/
structure Chart where
  entries : Array Entry
  columns : Array (Array Nat)
deriving DecidableEq, Repr

namespace Chart

def empty (columns : Nat) : Chart :=
  ⟨#[], Array.replicate columns #[]⟩

variable (c : Chart)

/-! ### Looking up -/

/-- The numbers of the entries of a column, in the order of their creation. -/
def ids (column : Nat) : List Nat :=
  (c.columns[column]?.getD #[]).toList

/-- The entry of a column for a vertex and an origin. -/
def find? (v : Vertex) (origin column : Nat) : Option Nat :=
  (c.columns[column]?.getD #[]).find? fun id => c.entries[id]?.any (·.isAt v origin)

def vertexOf? (id : Nat) : Option Vertex :=
  c.entries[id]?.map (·.vertex)

/-- The symbol after the dot of an entry. -/
def nextOf? (G : Grammar) (id : Nat) : Option Symbol :=
  (c.vertexOf? id).bind G.next?

/-- The entries of a column that have a symbol after their dot. -/
def awaiting (G : Grammar) (s : Symbol) (column : Nat) : List Nat :=
  (c.ids column).filter fun id => c.nextOf? G id == some s

/-- The terminals that some entry of a column has after its dot, in increasing order. -/
def expected (G : Grammar) (column : Nat) : List Terminal :=
  Ordered.ofList ((c.ids column).filterMap fun id => (c.nextOf? G id).bind Symbol.terminal?)

/-- The nonterminals that some entry of a column has after its dot, in increasing order. -/
def awaited (G : Grammar) (column : Nat) : List NonTerminal :=
  Ordered.ofList ((c.ids column).filterMap fun id => (c.nextOf? G id).bind Symbol.nonterminal?)

/-- The last column that is not empty. -/
def lastNonEmpty? : Option Nat :=
  (List.range c.columns.size).reverse.find? fun column => !(c.ids column).isEmpty

/-! ### Adding -/

/-- Puts a vertex with an origin into a column and records what it is put there for. If the column
already has such an entry, that entry gains the antecedent. Yields the chart, the number of the
entry, and whether the entry is new. -/
def insert (v : Vertex) (origin column : Nat) (antecedent : Option Nat) : Chart × Nat × Bool :=
  match c.find? v origin column with
  | some id =>
    match antecedent with
    | none => (c, id, false)
    | some a => (⟨c.entries.modify id (·.addAntecedent a), c.columns⟩, id, false)
  | none =>
    let id := c.entries.size
    (⟨c.entries.push ⟨v, origin, column, antecedent.toList⟩, c.columns.modify column (·.push id)⟩,
      id, true)

/-- Inserts what is fit to be inserted: the antecedent exists, the origin is not after the column,
and the column exists. -/
def push (v : Vertex) (origin column : Nat) (antecedent : Option Nat) :
    Except Fault (Chart × Nat × Bool) :=
  if antecedent.any fun a => c.entries.size ≤ a then
    .error .outOfBounds
  else if column < origin then
    .error (.originAfterColumn origin column)
  else if column < c.columns.size then
    .ok (c.insert v origin column antecedent)
  else
    .error .outOfBounds

end Chart

end ParseForest
