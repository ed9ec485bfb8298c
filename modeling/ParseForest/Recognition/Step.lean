import ParseForest.Chart.Basic
import ParseForest.FlowGraph.Printing

/-!
# Steps of recognition

Five rules fill a chart. A start entry is followed to the first item of each production (start), an
item before a nonterminal calls it (call), a complete item reaches the finish of its head (exit), a
finish entry lets the items go on that called the nonterminal where it began (return), and a token
lets the items go on that have its kind after the dot (scan). A step is one application of a rule; a
return may be vetoed by the constraint of the production that would go on, and then puts nothing
into the chart.
-/

namespace ParseForest

/-- A completed nonterminal about to be returned into the item of an entry. There is no verdict if
the production has no constraint. -/
structure Return where
  caller : Nat
  context : ReturnContext
  verdict : Option Bool

/-- The rule that a step applies. -/
inductive Rule where
  | start
  | call (callee : NonTerminal)
  | exit (item : Vertex)
  | resume (r : Return)
  | scan

/-- One application of a rule to a source entry, and what it reaches. -/
structure Step where
  rule : Rule
  source : Nat
  vertex : Vertex
  origin : Nat
  column : Nat

namespace Step

def return? (s : Step) : Option Return :=
  match s.rule with
  | .resume r => some r
  | _ => none

/-- Whether a constraint forbids the step. -/
def isVetoed (s : Step) : Bool :=
  s.return?.any fun r => r.verdict == some false

/-- Puts what the step reaches into the chart, unless the step is vetoed. -/
def perform (s : Step) (c : Chart) : Chart :=
  if s.isVetoed then c else (c.insert s.vertex s.origin s.column (some s.source)).1

def log (G : Grammar) (s : Step) : LogLine :=
  ⟨.trace,
    match s.rule with
    | .start => "start: " ++ G.label s.vertex
    | .call callee => "call: <" ++ callee.name ++ "> at " ++ toString s.column
    | .exit item => "exit: " ++ G.label item
    | .scan => "scan: " ++ G.label s.vertex
    | .resume r =>
      if r.verdict == some false then
        "return vetoed: " ++ G.label (.item r.context.prod r.context.elemIndex) ++ " over ["
          ++ toString r.context.calleeOrigin ++ ", " ++ toString r.context.position ++ ")"
      else
        "return: " ++ G.label s.vertex⟩

end Step

/-- The step of an item over the token of a column. -/
def Chart.scanStep? (c : Chart) (column id : Nat) : Option Step :=
  c.entries[id]?.bind fun e =>
    match e.vertex with
    | .item p dot => some ⟨.scan, id, .item p (dot + 1), e.origin, column + 1⟩
    | _ => none

namespace Grammar

variable (G : Grammar) (tokens : List Token)

/-- The return of a completed nonterminal into an item. -/
def returnStep? (c : Chart) (column caller completed : Nat) : Option Step :=
  match c.entries[caller]?, c.entries[completed]? with
  | some call, some done =>
    match call.vertex, done.vertex with
    | .item p dot, .finish callee =>
      G.prods[p]?.map fun prod =>
        let context := prod.context p dot callee call.origin done.origin column tokens
        ⟨.resume ⟨caller, context, prod.verdict context⟩, completed, .item p (dot + 1),
          call.origin, column⟩
    | _, _ => none
  | _, _ => none

/-- The steps from an entry that read no token, in their order. -/
def steps (c : Chart) (column id : Nat) : List Step :=
  match c.entries[id]? with
  | none => []
  | some e =>
    match e.vertex with
    | .start n => (G.prodsOf n).map fun p => ⟨.start, id, .item p 0, column, column⟩
    | .finish n =>
      (c.awaiting G (.nonterminal n) e.origin).filterMap fun caller =>
        G.returnStep? tokens c column caller id
    | .item p dot =>
      match G.prods[p]? with
      | none => []
      | some prod =>
        match prod.body[dot]? with
        | none => [⟨.exit (.item p dot), id, .finish prod.head, e.origin, column⟩]
        | some (.terminal _) => []
        | some (.nonterminal callee) =>
          ⟨.call callee, id, .start callee, column, column⟩
            :: ((c.find? (.finish callee) column column).bind
              fun done => G.returnStep? tokens c column id done).toList

end Grammar

end ParseForest
