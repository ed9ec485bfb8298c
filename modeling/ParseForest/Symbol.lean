import ParseForest.Ordered

/-!
# Grammar symbols

Terminals name the kinds of tokens that an input is made of; nonterminals name the phrases that the
rules of a grammar define. Both are identified by their names, and names are ordered by code point.
Among symbols every terminal comes before every nonterminal.
-/

namespace ParseForest

/-- A kind of token. -/
structure Terminal where
  name : String
deriving DecidableEq, Repr, Inhabited

/-- A kind of phrase. -/
structure NonTerminal where
  name : String
deriving DecidableEq, Repr, Inhabited

/-- What the body of a production is made of. -/
inductive Symbol where
  | terminal (t : Terminal)
  | nonterminal (n : NonTerminal)
deriving DecidableEq, Repr

/-! ### Order -/

instance : Ord Terminal where
  compare a b := compare a.name b.name

instance : Ord NonTerminal where
  compare a b := compare a.name b.name

instance : Ord Symbol where
  compare
    | .terminal a, .terminal b => compare a b
    | .terminal _, .nonterminal _ => .lt
    | .nonterminal _, .terminal _ => .gt
    | .nonterminal a, .nonterminal b => compare a b

theorem Terminal.compare_def (a b : Terminal) : compare a b = compare a.name b.name := rfl

theorem NonTerminal.compare_def (a b : NonTerminal) : compare a b = compare a.name b.name := rfl

instance : Std.TransOrd Terminal where
  eq_swap := by simp only [Terminal.compare_def]; exact Std.OrientedOrd.eq_swap
  isLE_trans := by simp only [Terminal.compare_def]; exact Std.TransOrd.isLE_trans

instance : Std.LawfulEqOrd Terminal where
  compare_self := by simp
  eq_of_compare {a b} h := by
    obtain ⟨a⟩ := a
    obtain ⟨b⟩ := b
    simpa [Terminal.compare_def] using h

instance : Std.TransOrd NonTerminal where
  eq_swap := by simp only [NonTerminal.compare_def]; exact Std.OrientedOrd.eq_swap
  isLE_trans := by simp only [NonTerminal.compare_def]; exact Std.TransOrd.isLE_trans

instance : Std.LawfulEqOrd NonTerminal where
  compare_self := by simp
  eq_of_compare {a b} h := by
    obtain ⟨a⟩ := a
    obtain ⟨b⟩ := b
    simpa [NonTerminal.compare_def] using h

/-! ### Text -/

instance : ToString Terminal where
  toString t := t.name

instance : ToString NonTerminal where
  toString n := n.name

namespace Symbol

/-- The name of the symbol, whichever kind it is of. -/
def name : Symbol → String
  | terminal t => t.name
  | nonterminal n => n.name

/-- The symbol as it is written in a rule: a nonterminal stands between angle brackets. -/
def text : Symbol → String
  | terminal t => t.name
  | nonterminal n => "<" ++ n.name ++ ">"

def terminal? : Symbol → Option Terminal
  | terminal t => some t
  | nonterminal _ => none

def nonterminal? : Symbol → Option NonTerminal
  | terminal _ => none
  | nonterminal n => some n

end Symbol

end ParseForest
