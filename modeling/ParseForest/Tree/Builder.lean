import ParseForest.Tree.Basic
import ParseForest.Recognition.Basic
import ParseForest.Walk

/-!
# Building trees

A tree is built from the reports of a backward walk, from right to left. The builder fails as soon
as a report shows that there is more than one derivation.
-/

namespace ParseForest

/-- Why no tree is built: there is more than one derivation of a nonterminal over a range, or an
expectation failed. -/
inductive TreeError where
  | ambiguous (symbol : NonTerminal) (lo hi : Nat)
  | fault (f : Fault)
deriving DecidableEq, Repr

/-- The ambiguity of a nonterminal over a range in words. -/
def ambiguityMessage (symbol : NonTerminal) (lo hi : Nat) : String :=
  "ambiguous input: <" ++ symbol.name ++ "> over tokens " ++ toString lo ++ ".." ++ toString hi
    ++ " has more than one derivation"

/-- A node whose children are not complete: its symbol and range, the finish entry that it was
opened for, its production once that is known, and its last children. -/
structure OpenNode where
  symbol : NonTerminal
  prod : Option Nat
  lo : Nat
  hi : Nat
  entry : Nat
  children : List Tree

/-- The state of a builder of trees: the open nodes, the innermost first, the complete nodes by
their finish entries, the latest first, and the latest node that is not part of another. -/
structure TreeBuilder where
  stack : List OpenNode
  finished : List (Nat × Tree)
  root : Option Tree

namespace TreeBuilder

def empty : TreeBuilder :=
  ⟨[], [], none⟩

/-- Puts a tree in front of the children of the innermost open node, or makes it the root. -/
def attach (b : TreeBuilder) (t : Tree) : TreeBuilder :=
  match b.stack with
  | [] => { b with root := some t }
  | top :: stack => { b with stack := { top with children := t :: top.children } :: stack }

/-- Sets the production of the innermost open node, if it is not set. -/
def setProd (b : TreeBuilder) (p : Nat) : TreeBuilder :=
  match b.stack with
  | [] => b
  | top :: stack => { b with stack := { top with prod := some (top.prod.getD p) } :: stack }

/-- Completes the innermost open node. -/
def close (b : TreeBuilder) : Except TreeError TreeBuilder :=
  match b.stack with
  | [] => .error (.fault .neverEntered)
  | top :: stack =>
    match top.prod with
    | none => .error (.fault .nodeWithoutProduction)
    | some p =>
      let t := Tree.node top.symbol p top.lo top.hi top.children
      .ok (attach ⟨stack, (top.entry, t) :: b.finished, b.root⟩ t)

variable (P : Parsing)

/-- The ambiguity that a report shows. -/
def ambiguity (e : Entry) (column : Nat) : TreeError :=
  match P.grammar.headOf? e.vertex with
  | some n => .ambiguous n e.origin column
  | none => .fault .outOfBounds

/-- Attaches the token before a column. -/
def attachToken (b : TreeBuilder) (column : Nat) : Except TreeError TreeBuilder :=
  if column = 0 then
    .error (.fault .columnUnderflow)
  else
    match P.tokens[column - 1]? with
    | some t => .ok (b.attach (.token (column - 1) t))
    | none => .error (.fault .outOfBounds)

/-- Takes note of an item with a single antecedent. -/
def passItem (b : TreeBuilder) (p dot column : Nat) : Except TreeError TreeBuilder :=
  let b := if P.grammar.isComplete (.item p dot) then b.setProd p else b
  match P.grammar.prev? (.item p dot) with
  | some (.terminal _) => b.attachToken P column
  | some (.nonterminal _) => .ok b
  | none =>
    if P.grammar.isEmptyItem (.item p dot) then .ok (b.attach (.epsilon column)) else .ok b

/-- Takes note of a report of a walk. -/
def handle (b : TreeBuilder) (ev : WalkEvent) : Except TreeError TreeBuilder :=
  match P.chart.entries[ev.entry]? with
  | none => .error (.fault .outOfBounds)
  | some e =>
    match ev.kind, e.vertex with
    | .backtrack, _ => .error (ambiguity P e ev.column)
    | .visit, .finish n =>
      if e.isBranching then
        .error (ambiguity P e ev.column)
      else
        .ok { b with stack := ⟨n, none, e.origin, ev.column, ev.entry, []⟩ :: b.stack }
    | .revisit, .finish _ =>
      match b.finished.lookup ev.entry with
      | some t => .ok (b.attach t)
      | none => .error (ambiguity P e ev.column)
    | _, .start _ => b.close
    | _, .item p dot =>
      if e.isBranching then .error (ambiguity P e ev.column) else b.passItem P p dot ev.column

def finish (b : TreeBuilder) : Except TreeError Tree :=
  match b.root with
  | some t => .ok t
  | none => .error (.fault .treeWithoutRoot)

end TreeBuilder

namespace Parsing

variable (P : Parsing)

def walk : Except Fault Walk :=
  Walk.startAt P.chart P.accepting

/-- The only derivation of the input. -/
def tree : Except TreeError Tree :=
  match P.walk with
  | .error f => .error (.fault f)
  | .ok w =>
    match Walk.feed P.grammar P.chart (TreeBuilder.handle P) .fault
        (Walk.bound P.grammar P.chart) w .empty with
    | .error e => .error e
    | .ok b => b.finish

end Parsing

end ParseForest
