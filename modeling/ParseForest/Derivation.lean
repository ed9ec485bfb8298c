import ParseForest.Tree.Basic
import ParseForest.FlowGraph.Basic

/-!
# Derivations

A derivation tree of a nonterminal over a part of an input is made by a production whose symbols
match contiguous pieces of that part: a terminal matches one token of its kind, a nonterminal
matches what it has a derivation tree over. The tree is permitted if the constraint of each
production in it permits the return of each nonterminal child.

`Spans` says this of all vertices of the flow graph at once: a finish has one tree behind it, and an
item has the trees of the symbols before its dot.
-/

namespace ParseForest

/-- The children of a node whose symbols have the given trees; a node without symbols has one leaf
that stands for nothing. -/
def Tree.childrenOf (lo : Nat) : List Tree → List Tree
  | [] => [.epsilon lo]
  | ts => ts

/-- The trees `ts` are permitted derivations of what a vertex has behind it, from `lo` to `hi`. -/
inductive Spans (G : Grammar) (w : List Token) : Vertex → Nat → Nat → List Tree → Prop where
  /-- Before its first symbol a production has nothing behind it. -/
  | enter {p : Nat} {prod : Production} {lo : Nat} (hp : G.prods[p]? = some prod)
      (hlo : lo ≤ w.length) : Spans G w (.item p 0) lo lo []
  /-- A terminal matches a token of its kind. -/
  | scan {p dot lo hi : Nat} {ts : List Tree} {t : Token} (h : Spans G w (.item p dot) lo hi ts)
      (hs : G.symbolAt? p dot = some (.terminal t.kind)) (ht : w[hi]? = some t) :
      Spans G w (.item p (dot + 1)) lo (hi + 1) (ts ++ [.token hi t])
  /-- A nonterminal matches what it derives, if the constraint of the production permits it. -/
  | resume {p dot lo mid hi : Nat} {prod : Production} {n : NonTerminal} {ts : List Tree} {t : Tree}
      (h : Spans G w (.item p dot) lo mid ts) (hp : G.prods[p]? = some prod)
      (hs : prod.body[dot]? = some (.nonterminal n)) (hn : Spans G w (.finish n) mid hi [t])
      (hc : prod.permits (prod.context p dot n lo mid hi w) = true) :
      Spans G w (.item p (dot + 1)) lo hi (ts ++ [t])
  /-- A production whose symbols all have trees makes a tree of its head. -/
  | exit {p lo hi : Nat} {prod : Production} {ts : List Tree} (hp : G.prods[p]? = some prod)
      (h : Spans G w (.item p prod.body.length) lo hi ts) :
      Spans G w (.finish prod.head) lo hi [.node prod.head p lo hi (Tree.childrenOf lo ts)]

namespace Grammar

variable (G : Grammar) (w : List Token)

/-- The tree is a permitted derivation of the nonterminal from `lo` to `hi`. -/
def Derives (n : NonTerminal) (lo hi : Nat) (t : Tree) : Prop :=
  Spans G w (.finish n) lo hi [t]

/-- The first `dot` symbols of a production have permitted derivations from `lo` to `hi`. -/
def Matches (p dot lo hi : Nat) : Prop :=
  ∃ ts, Spans G w (.item p dot) lo hi ts

/-- The input has a permitted derivation of the start symbol. -/
def Accepts : Prop :=
  ∃ t, G.Derives w G.start 0 w.length t

end Grammar

variable {G : Grammar} {w : List Token} {v : Vertex} {lo hi : Nat} {ts : List Tree}

/-- What a vertex has behind it lies inside the input. -/
theorem Spans.le (h : Spans G w v lo hi ts) : lo ≤ hi ∧ hi ≤ w.length := by
  induction h with
  | enter hp hlo => exact ⟨Nat.le_refl _, hlo⟩
  | scan h hs ht ih =>
    have := (List.getElem?_eq_some_iff.1 ht).1
    omega
  | resume h hp hs hn hc ih ihn => omega
  | exit hp h ih => exact ih

/-- An item has one tree for each symbol before its dot. -/
theorem Spans.length_eq (h : Spans G w v lo hi ts) :
    ∀ p dot, v = .item p dot → ts.length = dot := by
  induction h with
  | enter hp hlo =>
    intro p dot hv
    cases hv
    rfl
  | scan h hs ht ih =>
    intro p dot hv
    cases hv
    simp [ih _ _ rfl]
  | resume h hp hs hn hc ih ihn =>
    intro p dot hv
    cases hv
    simp [ih _ _ rfl]
  | exit hp h ih =>
    intro p dot hv
    cases hv

/-- A finish has one tree behind it. -/
theorem Spans.eq_singleton {n : NonTerminal} (h : Spans G w (.finish n) lo hi ts) :
    ∃ t, ts = [t] := by
  cases h with
  | exit => exact ⟨_, rfl⟩

end ParseForest
