import ParseForest.Chart.Basic

/-!
# Filed charts

A chart answers questions about a column by looking through its entries. A filed chart keeps the
answers: each column files its entries by vertex and origin, and by the symbol after the dot, and a
push files the entry that it creates.
-/

namespace ParseForest

/-- What is pushed into a chart: a vertex with an origin, the column, and what it is pushed for. -/
structure Push where
  vertex : Vertex
  origin : Nat
  column : Nat
  antecedent : Option Nat
deriving DecidableEq, Repr

/-- A column with its files: the numbers of its entries in the order of their creation, the number
for each vertex and origin, and the numbers for each symbol after a dot. -/
structure FiledColumn where
  ids : Array Nat
  byKey : List ((Vertex × Nat) × Nat)
  byTerminal : List (Terminal × List Nat)
  byNonterminal : List (NonTerminal × List Nat)
deriving DecidableEq, Repr

namespace FiledColumn

def empty : FiledColumn :=
  ⟨#[], [], [], []⟩

/-- Adds a new entry and files it. -/
def add (G : Grammar) (column : FiledColumn) (v : Vertex) (origin id : Nat) : FiledColumn where
  ids := column.ids.push id
  byKey := ((v, origin), id) :: column.byKey
  byTerminal :=
    match G.next? v with
    | some (.terminal t) => Ordered.file t id column.byTerminal
    | _ => column.byTerminal
  byNonterminal :=
    match G.next? v with
    | some (.nonterminal n) => Ordered.file n id column.byNonterminal
    | _ => column.byNonterminal

/-- The entries that are filed under a symbol. -/
def awaiting (column : FiledColumn) : Symbol → List Nat
  | .terminal t => Ordered.filed t column.byTerminal
  | .nonterminal n => Ordered.filed n column.byNonterminal

end FiledColumn

/-- Entries by number, and the columns with their files. -/
structure FiledChart where
  entries : Array Entry
  columns : Array FiledColumn
deriving DecidableEq, Repr

namespace FiledChart

def empty (columns : Nat) : FiledChart :=
  ⟨#[], Array.replicate columns .empty⟩

variable (c : FiledChart)

/-- The chart without its files. -/
def plain : Chart :=
  ⟨c.entries, c.columns.map (·.ids)⟩

/-! ### Looking up -/

/-- A column, with nothing in it past the last one. -/
def column (i : Nat) : FiledColumn :=
  c.columns[i]?.getD .empty

def ids (i : Nat) : List Nat :=
  (c.column i).ids.toList

def find? (v : Vertex) (origin i : Nat) : Option Nat :=
  (c.column i).byKey.lookup (v, origin)

def awaiting (s : Symbol) (i : Nat) : List Nat :=
  (c.column i).awaiting s

def expected (i : Nat) : List Terminal :=
  (c.column i).byTerminal.map Prod.fst

def awaited (i : Nat) : List NonTerminal :=
  (c.column i).byNonterminal.map Prod.fst

def lastNonEmpty? : Option Nat :=
  (List.range c.columns.size).reverse.find? fun i => !(c.ids i).isEmpty

/-! ### Adding -/

/-- Puts a vertex with an origin into a column and records what it is put there for. Only a new entry
is filed. Yields the chart, the number of the entry, and whether the entry is new. -/
def insert (G : Grammar) (p : Push) : FiledChart × Nat × Bool :=
  match c.find? p.vertex p.origin p.column with
  | some id =>
    match p.antecedent with
    | none => (c, id, false)
    | some a => (⟨c.entries.modify id (·.addAntecedent a), c.columns⟩, id, false)
  | none =>
    let id := c.entries.size
    (⟨c.entries.push ⟨p.vertex, p.origin, p.column, p.antecedent.toList⟩,
      c.columns.modify p.column (·.add G p.vertex p.origin id)⟩, id, true)

/-- Inserts what is fit to be inserted: the antecedent exists, the origin is not after the column,
and the column exists. -/
def push (G : Grammar) (p : Push) : Except Fault (FiledChart × Nat × Bool) :=
  if p.antecedent.any fun a => c.entries.size ≤ a then
    .error .outOfBounds
  else if p.column < p.origin then
    .error (.originAfterColumn p.origin p.column)
  else if p.column < c.columns.size then
    .ok (c.insert G p)
  else
    .error .outOfBounds

end FiledChart

end ParseForest
