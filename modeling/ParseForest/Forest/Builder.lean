import ParseForest.Forest.Basic
import ParseForest.Tree.Builder

/-!
# Building forests

A forest is built from the reports of a backward walk. The builder keeps the path of nodes that it
is inside of and puts each new child in front of the children of the innermost one. Where the walk
will come back to an entry, the builder saves the path and the children to the right of the entry;
when the walk does come back, a new alternative goes on from there.
-/

namespace ParseForest

/-- Where a builder goes on when the walk comes back to an entry: the nodes that the entry is inside
of, the innermost first, and the children to the right of the entry. -/
structure Snapshot where
  path : List Nat
  children : List Nat
deriving DecidableEq, Repr

/-- The state of a builder of forests. The path leads from the innermost node that the builder is
inside of to the outermost, the snapshots belong to entries, the latest first, and the root is the
first node that is not part of another. -/
structure ForestBuilder where
  nodes : Array ForestNode
  path : List Nat
  snapshots : List (Nat × Snapshot)
  root : Option Nat
deriving DecidableEq, Repr

namespace ForestBuilder

def empty : ForestBuilder :=
  ⟨#[], [], [], none⟩

/-! ### Nodes -/

def addNode (b : ForestBuilder) (n : ForestNode) : ForestBuilder × Nat :=
  ({ b with nodes := b.nodes.push n }, b.nodes.size)

/-- The node of a nonterminal over a range, added if there is none. -/
def nonterminal (b : ForestBuilder) (n : NonTerminal) (lo hi : Nat) : ForestBuilder × Nat :=
  match b.nodes.findIdx? (·.isAt n lo hi) with
  | some id => (b, id)
  | none => b.addNode (.nonterminal n lo hi false [])

def isTokenAt (index : Nat) : ForestNode → Bool
  | .token index' _ => index' == index
  | _ => false

/-- The leaf of a token, added if there is none. -/
def token (b : ForestBuilder) (tokens : List Token) (index : Nat) :
    Except Fault (ForestBuilder × Nat) :=
  match b.nodes.findIdx? (isTokenAt index) with
  | some id => .ok (b, id)
  | none =>
    match tokens[index]? with
    | some t => .ok (b.addNode (.token index t))
    | none => .error .outOfBounds

/-- The node with other children, if it is one that has children. -/
def withChildren (f : List Nat → List Nat) : ForestNode → ForestNode
  | .nonterminal n lo hi ambiguous children => .nonterminal n lo hi ambiguous (f children)
  | .alternative n p lo hi children => .alternative n p lo hi (f children)
  | leaf => leaf

/-- The node marked as ambiguous, if it is a nonterminal. -/
def markAmbiguous : ForestNode → ForestNode
  | .nonterminal n lo hi _ children => .nonterminal n lo hi true children
  | other => other

def modify (b : ForestBuilder) (id : Nat) (f : ForestNode → ForestNode) : ForestBuilder :=
  { b with nodes := b.nodes.modify id f }

/-- Puts a node in front of the children of the innermost node of the path, or makes it the root. -/
def attach (b : ForestBuilder) (child : Nat) : ForestBuilder :=
  match b.path with
  | [] => { b with root := some (b.root.getD child) }
  | parent :: _ => b.modify parent (withChildren (child :: ·))

/-! ### Alternatives -/

def isAlternative (b : ForestBuilder) (id : Nat) : Bool :=
  b.nodes[id]?.any ForestNode.isAlternative

def topIsAmbiguous (b : ForestBuilder) : Bool :=
  b.path.head?.any fun top => b.nodes[top]?.any ForestNode.isAmbiguous

/-- The path without an alternative at its inner end. -/
def outerPath (b : ForestBuilder) : List Nat :=
  match b.path with
  | [] => []
  | top :: rest => if b.isAlternative top then rest else top :: rest

/-- Adds an alternative to the innermost node of the path and goes into it. -/
def beginAlternative (b : ForestBuilder) (p : Nat) (children : List Nat) :
    Except Fault ForestBuilder :=
  match b.path with
  | [] => .error .alternativeWithoutNode
  | parent :: _ =>
    match b.nodes[parent]? with
    | some (.nonterminal n lo hi _ _) =>
      let added := b.addNode (.alternative n p lo hi children)
      let b := added.1.modify parent (withChildren (· ++ [added.2]))
      .ok { b with path := added.2 :: b.path }
    | _ => .error .alternativeOutsideNonterminal

/-- Makes sure that the builder is inside an alternative: what a nonterminal has been given so far
becomes its first alternative. -/
def split (b : ForestBuilder) (p : Nat) : Except Fault ForestBuilder :=
  match b.path with
  | [] => .error .itemOutsideNode
  | top :: _ =>
    match b.nodes[top]? with
    | some (.alternative _ _ _ _ _) => .ok b
    | some (.nonterminal _ _ _ _ children) =>
      (b.modify top fun n => markAmbiguous (withChildren (fun _ => []) n)).beginAlternative p children
    | _ => .error .itemOutsideNonterminal

/-! ### Snapshots -/

/-- Saves where to go on when the walk comes back to an entry. -/
def save (b : ForestBuilder) (entry : Nat) (children : List Nat) : ForestBuilder :=
  { b with snapshots := (entry, ⟨b.outerPath, children⟩) :: b.snapshots }

def topChildren (b : ForestBuilder) : List Nat :=
  ((b.path.head?.bind fun top => b.nodes[top]?).map ForestNode.children).getD []

/-- Takes the path of the snapshot of an entry, and yields the children to the right of it. -/
def restore (b : ForestBuilder) (entry : Nat) : Except Fault (ForestBuilder × List Nat) :=
  match b.snapshots.lookup entry with
  | some s => .ok ({ b with path := s.path }, s.children)
  | none => .error .neverVisited

/-- Leaves the innermost nonterminal, and its alternative if it has one. -/
def close (b : ForestBuilder) : Except Fault ForestBuilder :=
  match b.outerPath with
  | [] => .error .neverEntered
  | _ :: rest => .ok { b with path := rest }

/-! ### Reports -/

variable (P : Parsing)

/-- Goes into the node of a nonterminal. -/
def enter (b : ForestBuilder) (n : NonTerminal) (e : Entry) (ev : WalkEvent) : ForestBuilder :=
  let node := b.nonterminal n e.origin ev.column
  let b := node.1.attach node.2
  let b := { b with path := node.2 :: b.path }
  if e.isBranching then (b.modify node.2 markAmbiguous).save ev.entry [] else b

/-- Attaches the leaf of the token before a column. -/
def attachToken (b : ForestBuilder) (column : Nat) : Except Fault ForestBuilder :=
  if column = 0 then
    .error .columnUnderflow
  else
    (b.token P.tokens (column - 1)).map fun leaf => leaf.1.attach leaf.2

/-- Takes note of what stands before the dot of an item. -/
def passSymbol (b : ForestBuilder) (p dot : Nat) (e : Entry) (ev : WalkEvent) :
    Except Fault ForestBuilder :=
  match P.grammar.prev? (.item p dot) with
  | some (.terminal _) => b.attachToken P ev.column
  | some (.nonterminal _) =>
    if e.isBranching then
      (b.split p).map fun b => b.save ev.entry b.topChildren
    else
      .ok b
  | none =>
    if P.grammar.isEmptyItem (.item p dot) then
      let leaf := b.addNode (.epsilon ev.column)
      .ok (leaf.1.attach leaf.2)
    else
      .ok b

/-- Takes note of an item. -/
def passItem (b : ForestBuilder) (p dot : Nat) (e : Entry) (ev : WalkEvent) :
    Except Fault ForestBuilder :=
  if P.grammar.isComplete (.item p dot) && b.topIsAmbiguous then
    match b.beginAlternative p [] with
    | .ok b => b.passSymbol P p dot e ev
    | .error f => .error f
  else
    b.passSymbol P p dot e ev

/-- Takes note of a report of a walk. -/
def handle (b : ForestBuilder) (ev : WalkEvent) : Except Fault ForestBuilder :=
  match P.chart.entries[ev.entry]? with
  | none => .error .outOfBounds
  | some e =>
    match ev.kind, e.vertex with
    | .visit, .finish n => .ok (b.enter n e ev)
    | .revisit, .finish n =>
      let node := b.nonterminal n e.origin ev.column
      .ok (node.1.attach node.2)
    | _, .start _ => b.close
    | .backtrack, .finish _ => (b.restore ev.entry).map (·.1)
    | .backtrack, .item p _ =>
      match b.restore ev.entry with
      | .ok (b, children) => b.beginAlternative p children
      | .error f => .error f
    | _, .item p dot => b.passItem P p dot e ev

def finish (b : ForestBuilder) : Except Fault Forest :=
  match b.root with
  | some id => .ok ⟨b.nodes, id⟩
  | none => .error .forestWithoutRoot

end ForestBuilder

/-- All derivations of a recognized input. -/
def Parsing.forest (P : Parsing) : Except Fault Forest :=
  match P.walk with
  | .error f => .error f
  | .ok w =>
    match Walk.feed P.grammar P.chart (ForestBuilder.handle P) id
        (Walk.bound P.grammar P.chart) w .empty with
    | .error f => .error f
    | .ok b => b.finish

end ParseForest
