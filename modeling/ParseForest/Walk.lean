import ParseForest.Chart.Basic
import ParseForest.FlowGraph.Printing

/-!
# Backward walks

A walk follows antecedents through a chart from right to left and reports each entry that it passes.
Going down into a completed nonterminal it remembers the item that called it, and at the start of
the nonterminal it goes on from there. Where an entry has several antecedents the walk follows the
first and comes back later for the others; each of these further legs begins with a backtrack and
covers only what lies inside the nonterminal of the entry. A finish entry that is met again is
reported but not gone into.
-/

namespace ParseForest

/-- What a walk does at an entry: it passes it, it meets it again and does not go into it, or it
comes back to it for its next antecedent. -/
inductive WalkKind where
  | visit
  | revisit
  | backtrack
deriving DecidableEq, Repr

/-- One report of a walk. -/
structure WalkEvent where
  kind : WalkKind
  entry : Nat
  column : Nat
deriving DecidableEq, Repr

/-- Where a nonterminal was called: an item before it, and the origin of that item. -/
structure CallSite where
  prod : Nat
  dot : Nat
  origin : Nat
deriving DecidableEq, Repr

/-- An entry with antecedents that are not yet followed, the column in which it was passed, and the
calls that were open then, the innermost first. -/
structure Branch where
  entry : Nat
  column : Nat
  callers : List CallSite
  /-- The call that following an antecedent opens: none for a finish entry. -/
  site : Option CallSite
  untried : List Nat
deriving DecidableEq, Repr

/-- The state of a walk: the entry to pass next, none at the end of a leg, the current column, the
start and finish entries passed so far, the open calls, the innermost first, and the entries to come
back to, the latest first. -/
structure Walk where
  cursor : Option Nat
  column : Nat
  visited : List Nat
  callers : List CallSite
  branches : List Branch
  /-- The number of calls that the current leg does not leave. -/
  floor : Nat
deriving DecidableEq, Repr

namespace Walk

def depth (w : Walk) : Nat :=
  w.callers.length

/-- The walk that begins at an entry. -/
def startAt (c : Chart) (entry : Nat) : Except Fault Walk :=
  match c.entries[entry]? with
  | some e => .ok ⟨some entry, e.column, [], [], [], 0⟩
  | none => .error .outOfBounds

variable (G : Grammar) (c : Chart)

/-- The entry that a walk needs to go on. -/
def entryAt (v : Vertex) (origin column : Nat) : Except Fault Nat :=
  match c.find? v origin column with
  | some id => .ok id
  | none => .error (.missingEntry (G.label v) origin column)

/-- Follows the first antecedent of an entry and keeps the others for later. -/
def follow (w : Walk) (id : Nat) (e : Entry) (site : Option CallSite) : Except Fault Walk :=
  match e.antecedents with
  | [] => .error .outOfBounds
  | [a] => .ok { w with cursor := some a, callers := site.toList ++ w.callers }
  | a :: untried =>
    .ok { w with
      cursor := some a
      callers := site.toList ++ w.callers
      branches := ⟨id, w.column, w.callers, site, untried⟩ :: w.branches }

/-- Goes on from the innermost call after the start of the called nonterminal, or ends the leg. -/
def leave (w : Walk) : Except Fault Walk :=
  match w.callers with
  | [] => .ok { w with cursor := none }
  | site :: callers =>
    if w.callers.length ≤ w.floor then
      .ok { w with cursor := none }
    else
      match entryAt G c (.item site.prod site.dot) site.origin w.column with
      | .ok id => .ok { w with cursor := some id, callers := callers }
      | .error f => .error f

/-- The walk after an entry, and what is done at the entry. -/
def pass (w : Walk) (id : Nat) (e : Entry) : Except Fault (WalkKind × Walk) :=
  match e.vertex with
  | .finish _ =>
    if id ∈ w.visited then
      (leave G c { w with column := e.origin }).map (.revisit, ·)
    else
      (follow { w with visited := id :: w.visited } id e none).map (.visit, ·)
  | .start _ =>
    if id ∈ w.visited then
      (leave G c w).map (.revisit, ·)
    else
      (leave G c { w with visited := id :: w.visited }).map (.visit, ·)
  | .item p 0 =>
    match G.headOf? (.item p 0) with
    | none => .error .outOfBounds
    | some n =>
      (entryAt G c (.start n) e.origin w.column).map fun start =>
        (.visit, { w with cursor := some start })
  | .item p (dot + 1) =>
    match G.symbolAt? p dot with
    | none => .error .outOfBounds
    | some (.terminal _) =>
      if w.column = 0 then
        .error .columnUnderflow
      else
        (entryAt G c (.item p dot) e.origin (w.column - 1)).map fun before =>
          (.visit, { w with cursor := some before, column := w.column - 1 })
    | some (.nonterminal _) =>
      (follow w id e (some ⟨p, dot, e.origin⟩)).map (.visit, ·)

/-- Comes back to the latest entry that has an antecedent left. -/
def backtrack (w : Walk) : List Branch → Option (WalkEvent × Walk)
  | [] => none
  | b :: branches =>
    match b.untried with
    | [] => backtrack w branches
    | a :: untried =>
      some (⟨.backtrack, b.entry, b.column⟩,
        { w with
          cursor := some a
          column := b.column
          callers := b.site.toList ++ b.callers
          branches := { b with untried := untried } :: branches
          floor := b.callers.length })

/-- The next report of a walk and the walk after it; nothing at its end. -/
def next (w : Walk) : Except Fault (Option (WalkEvent × Walk)) :=
  match w.cursor with
  | none => .ok (backtrack w w.branches)
  | some id =>
    match c.entries[id]? with
    | none => .error .outOfBounds
    | some e => (pass G c w id e).map fun r => some (⟨r.1, id, w.column⟩, r.2)

/-! ### Whole walks -/

/-- How the report of a walk ends: at the end of the walk, at the number of events that were asked
for, or where the walk could not go on. -/
inductive Ending where
  | done
  | limit
  | fault (f : Fault)
deriving DecidableEq, Repr

/-- The reports of a walk, each with the number of open calls after it, and how they end; at most
`limit` of them. -/
def events : (limit : Nat) → Walk → List (WalkEvent × Nat) × Ending
  | 0, _ => ([], .limit)
  | limit + 1, w =>
    match next G c w with
    | .error f => ([], .fault f)
    | .ok none => ([], .done)
    | .ok (some (e, w')) =>
      let rest := events limit w'
      ((e, w'.depth) :: rest.1, rest.2)

universe u v

/-- Feeds the reports of a walk to a handler, at most `bound` of them, until the handler fails. -/
def feed {σ : Type u} {ε : Type v} (handle : σ → WalkEvent → Except ε σ) (fault : Fault → ε) :
    (bound : Nat) → Walk → σ → Except ε σ
  | 0, _, s => .ok s
  | bound + 1, w, s =>
    match next G c w with
    | .error f => .error (fault f)
    | .ok none => .ok s
    | .ok (some (e, w')) =>
      match handle s e with
      | .error x => .error x
      | .ok s' => feed handle fault bound w' s'

/-- Feeds given reports to a handler until it fails, and counts the reports that it handled. -/
def replay {σ : Type u} {ε : Type v} (handle : σ → WalkEvent → Except ε σ) :
    List WalkEvent → σ → Nat × Except ε σ
  | [], s => (0, .ok s)
  | e :: es, s =>
    match handle s e with
    | .error x => (0, .error x)
    | .ok s' =>
      let rest := replay handle es s'
      (rest.1 + 1, rest.2)

/-- The most reports that passing an item and what is left of it takes, in a chart of `entries`
entries and without what is inside nonterminals: at each nonterminal there is a choice of
antecedents, and each choice is reported, and leads to the item before the nonterminal. -/
def itemBound (entries : Nat) : (dot : Nat) → Nat
  | 0 => 2
  | dot + 1 => 1 + entries * (2 + itemBound entries dot)

def longestBody : Nat :=
  (G.prods.map (·.body.length)).foldl max 0

/-- The most reports that a walk through a chart of recognition takes: each finish entry is gone
into once, through each of its complete items. -/
def bound : Nat :=
  let item := itemBound c.entries.size (longestBody G)
  c.entries.size * (c.entries.size * (1 + item)) + item

end Walk

end ParseForest
