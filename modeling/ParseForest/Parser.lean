import ParseForest.Tree.Builder
import ParseForest.Forest.Builder

/-!
# Parsing

From a grammar and an input to a tree or a forest in one step.
-/

namespace ParseForest

/-- Why an input has no tree or no forest. -/
inductive ParserError where
  | parse (e : ParseError)
  | tree (e : TreeError)
deriving DecidableEq, Repr

/-- The error in words, unless it is a fault. -/
def ParserError.message : ParserError → Except Fault String
  | parse e => e.message
  | tree (.ambiguous symbol lo hi) => .ok (ambiguityMessage symbol lo hi)
  | tree (.fault f) => .error f

namespace Grammar

variable (G : Grammar) (tokens : List Token)

/-- The only derivation of an input. -/
def parseTree : Except ParserError Tree :=
  match (G.recognize tokens).result with
  | .error e => .error (.parse e)
  | .ok P =>
    match P.tree with
    | .error e => .error (.tree e)
    | .ok t => .ok t

/-- All derivations of an input. -/
def parseForest : Except ParserError Forest :=
  match (G.recognize tokens).result with
  | .error e => .error (.parse e)
  | .ok P =>
    match P.forest with
    | .error f => .error (.tree (.fault f))
    | .ok F => .ok F

end Grammar

end ParseForest
