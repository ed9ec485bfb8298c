import ParseForest.Recognition.Step
import ParseForest.Recognition.Error

/-!
# Recognition

An input is recognized from left to right. In each column all steps that read no token are
performed, entry by entry in the order of their creation, the entries that these steps create
included; then the token of the column is read. The input is accepted if the last column then holds
the finish of the start symbol with origin 0.
-/

namespace ParseForest

/-- The outcome of a recognition: what has happened, in order, and the recognized input. -/
inductive Recognition.Event where
  | step (s : Step)
  | filled (column size : Nat)
  | noneAwaits (kind : Terminal) (column : Nat)
  | emptyRejected
  | endedEarly

namespace Recognition.Event

def log (G : Grammar) : Event → LogLine
  | step s => s.log G
  | filled column size =>
    ⟨.debug, "Column " ++ toString column ++ " holds " ++ toString size ++ " entries"⟩
  | noneAwaits kind column =>
    ⟨.debug, "No entry awaits '" ++ kind.name ++ "' at position " ++ toString column⟩
  | emptyRejected => ⟨.debug, "Empty input rejected"⟩
  | endedEarly => ⟨.debug, "Input ended before the start symbol completed"⟩

/-- The question that was put to a constraint and its answer, if the event is one. -/
def consultation? : Event → Option (ReturnContext × Bool)
  | step s => s.return?.bind fun r => r.verdict.map fun answer => (r.context, answer)
  | _ => none

end Recognition.Event

/-- A recognition under way: the chart so far, and what has happened. -/
structure Progress where
  chart : Chart
  events : Array Recognition.Event

namespace Progress

def perform (s : Progress) (step : Step) : Progress :=
  match s with
  | ⟨chart, events⟩ => ⟨step.perform chart, events.push (.step step)⟩

def note (s : Progress) (e : Recognition.Event) : Progress :=
  match s with
  | ⟨chart, events⟩ => ⟨chart, events.push e⟩

end Progress

/-- An input that was recognized, with its chart and the entry of the start symbol over the whole
input. -/
structure Parsing where
  grammar : Grammar
  tokens : List Token
  chart : Chart
  accepting : Nat

/-- The outcome of a recognition. -/
structure Recognition where
  /-- What has happened, in order. -/
  events : List Recognition.Event
  /-- The recognized input, or why it was not recognized. -/
  result : Except ParseError Parsing

namespace Grammar

variable (G : Grammar) (tokens : List Token)

/-- The most entries that a column can hold: each vertex with each origin up to the column. -/
def columnBound (column : Nat) : Nat :=
  G.vertices.length * (column + 1)

/-- Performs the steps that read no token from the entries numbered `next` and above, the new ones
included, for at most `bound` entries. -/
def saturate (column : Nat) : (bound next : Nat) → Progress → Progress
  | 0, _, s => s
  | bound + 1, next, s =>
    if next < s.chart.entries.size then
      saturate column bound (next + 1)
        ((G.steps tokens s.chart column next).foldl Progress.perform s)
    else
      s

/-- Fills a column whose entries are numbered `next` and above. -/
def fill (column next : Nat) (s : Progress) : Progress :=
  let s := G.saturate tokens column (G.columnBound column) next s
  s.note (.filled column (s.chart.ids column).length)

/-- Reads a token; fails if no entry of the column awaits its kind. -/
def read (column : Nat) (t : Token) (s : Progress) : Progress × Option ParseError :=
  match s.chart.awaiting G (.terminal t.kind) column with
  | [] =>
    (s.note (.noneAwaits t.kind column),
      some (.unexpectedToken column t (s.chart.expected G column)))
  | waiting =>
    ((waiting.filterMap fun id => s.chart.scanStep? column id).foldl Progress.perform s, none)

/-- Recognizes the rest of the input from a column whose entries are numbered `next` and above. -/
def advance : (rest : List Token) → (column next : Nat) → Progress → Progress × Option ParseError
  | [], column, next, s => (G.fill tokens column next s, none)
  | t :: rest, column, next, s =>
    let s := G.fill tokens column next s
    match G.read column t s with
    | (s', some e) => (s', some e)
    | (s', none) => advance rest (column + 1) s.chart.entries.size s'

/-- The chart that recognition begins with: the start of the start symbol in the first column. -/
def initialChart : Chart :=
  ((Chart.empty (tokens.length + 1)).insert (.start G.start) 0 0 none).1

/-- What is reported of an input that has ended: its parse, or what was expected to follow. -/
def conclude (s : Progress) : Progress × Except ParseError Parsing :=
  match s.chart.find? (.finish G.start) 0 tokens.length with
  | some accepting => (s, .ok ⟨G, tokens, s.chart, accepting⟩)
  | none =>
    match tokens.getLast? with
    | none => (s.note .emptyRejected, .error .noInput)
    | some last =>
      (s.note .endedEarly,
        .error (.prematureEnd (tokens.length - 1) last (s.chart.expected G tokens.length)))

/-- Recognizes an input. -/
def recognize : Recognition :=
  match G.advance tokens tokens 0 0 ⟨G.initialChart tokens, #[]⟩ with
  | (s, some e) => ⟨s.events.toList, .error e⟩
  | (s, none) =>
    match G.conclude tokens s with
    | (s, result) => ⟨s.events.toList, result⟩

end Grammar

namespace Recognition

def log (r : Recognition) (G : Grammar) : List LogLine :=
  r.events.map (·.log G)

/-- The questions put to constraints and their answers, in order. -/
def consultations (r : Recognition) : List (ReturnContext × Bool) :=
  r.events.filterMap Event.consultation?

end Recognition

namespace Parsing

variable (P : Parsing)

/-- The end of the last column that is not empty. -/
def finish : Nat :=
  P.chart.lastNonEmpty?.getD 0

def inspect : String :=
  record "Parsing"
    [("tokens", bracketed (P.tokens.map Token.inspect)),
      ("accepting", "EntryId(" ++ toString P.accepting ++ ")")]

end Parsing

end ParseForest
