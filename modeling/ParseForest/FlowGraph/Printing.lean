import ParseForest.FlowGraph.Basic
import ParseForest.Grammar.Printing
import ParseForest.Digraph
import ParseForest.Log

/-!
# Printing flow graphs
-/

namespace ParseForest

/-- The sign for the place between what is done and what is to come. -/
def dotSign : String := "•"

namespace Grammar

variable (G : Grammar)

/-- The name of a vertex: the dot before or after a nonterminal, or inside a production. -/
def label : Vertex → String
  | .start n => dotSign ++ n.name
  | .finish n => n.name ++ dotSign
  | .item p dot =>
    match G.prods[p]? with
    | none => ""
    | some prod =>
      let symbols := prod.body.map Symbol.text
      prod.head.name ++ " => "
        ++ " ".intercalate (symbols.take dot ++ dotSign :: symbols.drop dot)

def edgeLabel : Edge → String
  | .epsilon _ => emptySign
  | .call _ => "call"
  | .resume _ => "return"
  | .scan t _ => t.name

def inspectGraph : String :=
  record "Gfg" [("start", G.start.inspect), ("vertices", toString G.vertices.length)]

/-- The log of building the graph, after that of building the grammar. -/
def graphLog : List LogLine :=
  [⟨.debug, "Built GFG with " ++ toString G.vertices.length ++ " vertices for "
    ++ toString G.prods.length ++ " productions"⟩]

def vertexName (v : Vertex) : String :=
  "v" ++ ((G.vertexId? v).map toString).getD ""

def drawing : Digraph where
  name := "gfg"
  nodes := G.vertices.map fun v => (G.vertexName v, G.label v)
  arrows := G.vertices.flatMap fun v =>
    (G.edges v).map fun e => (G.vertexName v, G.vertexName e.target, edgeLabel e)

end Grammar

end ParseForest
