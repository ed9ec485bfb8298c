import ParseForest.Token
import ParseForest.Fault

/-!
# Context-free grammars

A grammar has a start symbol, the nonterminals that head its rules, and productions numbered in the
order they were added. A production may carry a constraint: a predicate that is asked whether the
production may go on after one of the nonterminals in its body has been completed.
-/

namespace ParseForest

/-- What a constraint is told when a completed nonterminal is about to be returned into a
production: which production and where in its body, where the production started, where the
completed nonterminal started and ended, and the whole input. -/
structure ReturnContext where
  prod : Nat
  head : NonTerminal
  body : List Symbol
  elemIndex : Nat
  callee : NonTerminal
  callOrigin : Nat
  calleeOrigin : Nat
  position : Nat
  tokens : List Token

/-- The tokens from one position up to another. -/
def slice (tokens : List Token) (lo hi : Nat) : List Token :=
  (tokens.drop lo).take (hi - lo)

namespace ReturnContext

def calleeTokens (c : ReturnContext) : List Token :=
  slice c.tokens c.calleeOrigin c.position

end ReturnContext

/-- A predicate that permits or vetoes the return of a completed nonterminal. -/
abbrev Constraint :=
  ReturnContext → Bool

/-- One way to form a phrase: the nonterminal that the phrase is, what it is made of from left to
right, and a constraint on the nonterminals of the body. -/
structure Production where
  head : NonTerminal
  body : List Symbol
  constraint : Option Constraint

namespace Production

variable (prod : Production)

/-- What the constraint of the production is told when `callee` has been completed at the place
`dot` of the body, if the production has number `p`. -/
def context (p dot : Nat) (callee : NonTerminal) (callOrigin calleeOrigin position : Nat)
    (tokens : List Token) : ReturnContext :=
  ⟨p, prod.head, prod.body, dot, callee, callOrigin, calleeOrigin, position, tokens⟩

/-- The verdict of the constraint, if the production has one. -/
def verdict (context : ReturnContext) : Option Bool :=
  prod.constraint.map fun permits => permits context

/-- Whether the production may go on: it has no constraint, or its constraint permits it. -/
def permits (context : ReturnContext) : Bool :=
  prod.verdict context != some false

end Production

/-- A context-free grammar with constraints. The heads are the nonterminals that have a rule, in
increasing order, and productions are known by their numbers. -/
structure Grammar where
  start : NonTerminal
  heads : List NonTerminal
  prods : List Production

namespace Grammar

variable (G : Grammar)

def prodsOf (n : NonTerminal) : List Nat :=
  (List.range G.prods.length).filter fun p => G.prods[p]?.any fun prod => prod.head == n

/-- The rules, in increasing order of their heads, with the numbers of their productions. Each head
has a rule, and each production is filed under its head, behind those that were added before it. -/
def rules : List (NonTerminal × List Nat) :=
  G.prods.zipIdx.foldl (fun rules q => Ordered.file q.1.head q.2 rules)
    (G.heads.map fun n => (n, []))

/-- The numbers of the productions of a nonterminal that has a rule. -/
def rule? (n : NonTerminal) : Option (List Nat) :=
  G.rules.lookup n

def prod (p : Nat) : Except Fault Production :=
  match G.prods[p]? with
  | some prod => .ok prod
  | none => .error (.noSuchProduction p)

/-- The symbol at a place of the body of a production. -/
def symbolAt? (p i : Nat) : Option Symbol :=
  G.prods[p]?.bind fun prod => prod.body[i]?

/-- All symbols in bodies of productions, as often as they are used. -/
def symbols : List Symbol :=
  G.prods.flatMap (·.body)

def terminals : List Terminal :=
  Ordered.ofList (G.symbols.filterMap Symbol.terminal?)

/-- The nonterminals used in the productions of a nonterminal. -/
def mentions (n : NonTerminal) : List NonTerminal :=
  (G.prods.filter (·.head == n)).flatMap fun prod => prod.body.filterMap Symbol.nonterminal?

@[simp]
theorem mem_prodsOf {n : NonTerminal} {p : Nat} :
    p ∈ G.prodsOf n ↔ ∃ prod, G.prods[p]? = some prod ∧ prod.head = n := by
  simp only [prodsOf, List.mem_filter, List.mem_range, Option.any_eq_true, beq_iff_eq]
  constructor
  · exact fun h => h.2
  · rintro ⟨prod, h, rfl⟩
    exact ⟨(List.getElem?_eq_some_iff.1 h).1, prod, h, rfl⟩

end Grammar

/-- A production pointed at from outside: who holds its grammar, and its number there. Two such
pointers are the same only if the same holder is meant, however alike the grammars are. -/
structure ProdRef (α : Type) where
  holder : α
  number : Nat
deriving DecidableEq, Repr

end ParseForest
