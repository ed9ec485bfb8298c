import ParseForest.Grammar.Basic
import ParseForest.Layout

/-!
# Printing grammars

A grammar has two texts: rules laid out for a width, and a one-line text that shows how the grammar
is put together.
-/

namespace ParseForest

/-- The sign for nothing. -/
def emptySign : String := "ε"

/-! ### Laid out -/

def Symbol.doc : Symbol → Doc
  | .terminal t => .text t.name
  | .nonterminal n => .text "<" ++ .text n.name ++ .text ">"

/-- The body of a production as a document. -/
def Production.bodyDoc (prod : Production) : Doc :=
  if prod.body.isEmpty then .text emptySign
  else .intersperse .softline (prod.body.map Symbol.doc)

/-- A head and what it is made of. -/
def headedDoc (head : NonTerminal) (d : Doc) : Doc :=
  .text head.name ++ .text " =>" ++ .softline ++ d

def Production.doc (prod : Production) : Doc :=
  headedDoc prod.head prod.bodyDoc

namespace Grammar

variable (G : Grammar)

def ruleDoc (head : NonTerminal) : Doc :=
  headedDoc head <|
    .intersperse (.text " |" ++ .softline) ((G.prods.filter (·.head == head)).map (·.bodyDoc))

def doc : Doc :=
  let start := Doc.group (.text "Start =") ++ .softline ++ .text G.start.name
  let rules := Doc.concat (G.heads.map fun head => G.ruleDoc head ++ .text ";" ++ .softline)
  let block := Doc.text "\x7b" ++ (.softline ++ .nest 2 rules) ++ .text "\x7d"
  Doc.concat ([start, .text "Rules " ++ block].map fun d => d ++ .text "," ++ .softline)

end Grammar

/-! ### Laid open -/

def bracketed (l : List String) : String :=
  "[" ++ ", ".intercalate l ++ "]"

def braced (l : List String) : String :=
  "\x7b" ++ ", ".intercalate l ++ "\x7d"

/-- A name and fields, laid open. -/
def record (name : String) (fields : List (String × String)) : String :=
  name ++ " \x7b " ++ ", ".intercalate (fields.map fun f => f.1 ++ ": " ++ f.2) ++ " \x7d"

def Terminal.inspect (t : Terminal) : String :=
  "Terminal(" ++ t.name ++ ")"

def NonTerminal.inspect (n : NonTerminal) : String :=
  "NonTerminal(" ++ n.name ++ ")"

def Token.inspect (t : Token) : String :=
  record "Token" [("kind", t.kind.inspect), ("lexeme", t.lexeme)]

def Production.inspect (prod : Production) : String :=
  record "Prod" [("head", prod.head.inspect), ("elems", bracketed (prod.body.map Symbol.text))]

namespace Grammar

variable (G : Grammar)

def inspectRule (head : NonTerminal) : String :=
  record "Rule"
    [("head", head.inspect),
      ("prods", bracketed ((G.prods.filter (·.head == head)).map Production.inspect))]

def inspect : String :=
  record "Grammar"
    [("Start", G.start.inspect),
      ("Terms", braced (G.terminals.map Terminal.inspect)),
      ("Rules", bracketed (G.heads.map G.inspectRule))]

end Grammar

end ParseForest
