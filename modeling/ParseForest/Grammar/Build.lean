import ParseForest.Grammar.Basic
import ParseForest.Search
import ParseForest.Log

/-!
# Building grammars

A grammar is declared by a start symbol and a list of rules; a head may be declared several times,
and its productions are then those of all its rules. A declaration is refused if the start symbol or
a nonterminal used in some production heads no rule, and a rule that the start symbol does not lead
to is accepted with a warning.
-/

namespace ParseForest

/-- The declaration of some productions of one head: the body of each, and its constraint. -/
structure RuleDecl where
  head : NonTerminal
  bodies : List (List Symbol × Option Constraint)

/-- Why a declaration is refused. -/
inductive GrammarError where
  /-- The start symbol heads no rule. -/
  | missingStartRule (start : NonTerminal)
  /-- A nonterminal in a production of `user` heads no rule. -/
  | undefinedNonTerminal (n user : NonTerminal)
deriving DecidableEq, Repr

def GrammarError.message : GrammarError → String
  | missingStartRule start => "start symbol <" ++ start.name ++ "> has no rule"
  | undefinedNonTerminal n user =>
    "nonterminal <" ++ n.name ++ "> is used in a production of <" ++ user.name
      ++ "> but has no rule"

namespace RuleDecl

/-- The productions that a declaration adds. -/
def productions (r : RuleDecl) : List Production :=
  r.bodies.map fun b => ⟨r.head, b.1, b.2⟩

end RuleDecl

namespace Grammar

/-- The grammar that some rules declare, whether or not all its nonterminals have rules. -/
def ofRules (start : NonTerminal) (rules : List RuleDecl) : Grammar where
  start := start
  heads := Ordered.ofList (rules.map (·.head))
  prods := rules.flatMap RuleDecl.productions

variable (G : Grammar)

/-- The first nonterminal without a rule in the body of a production. -/
def undefinedIn? (prod : Production) : Option GrammarError :=
  ((prod.body.filterMap Symbol.nonterminal?).find? fun n => n ∉ G.heads).map
    fun n => .undefinedNonTerminal n prod.head

/-- The first fault of a grammar: a start symbol without a rule, else the first nonterminal without
a rule in the order of the productions and their bodies. -/
def fault? : Option GrammarError :=
  if G.start ∈ G.heads then G.prods.findSome? G.undefinedIn? else some (.missingStartRule G.start)

/-- The grammar that some rules declare, if it has no fault. -/
def build (start : NonTerminal) (rules : List RuleDecl) : Except GrammarError Grammar :=
  match (ofRules start rules).fault? with
  | some e => .error e
  | none => .ok (ofRules start rules)

/-! ### Warnings -/

/-- The nonterminals that productions lead to from the start symbol. -/
def reachable : List NonTerminal :=
  (breadthFirst (G.heads.length + 1) [G.start] G.mentions).seen

/-- The heads that the start symbol does not lead to. -/
def unreachable : List NonTerminal :=
  G.heads.filter fun n => !G.reachable.contains n

/-- The log of building the grammar: one warning for each head that is not reachable. -/
def buildLog : List LogLine :=
  G.unreachable.map fun n =>
    ⟨.warn, "Nonterminal <" ++ n.name ++ "> is unreachable from the start symbol."⟩

end Grammar

end ParseForest
