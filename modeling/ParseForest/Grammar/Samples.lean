import ParseForest.Grammar.Build

/-!
# Sample grammars

Small grammars that show one phenomenon each: recursion, empty phrases, precedence, ambiguity of
productions and of splits, cycles, and a constraint that resolves an ambiguity.
-/

namespace ParseForest.Samples

/-- The terminal of a name, as a symbol. -/
def tm (name : String) : Symbol := .terminal ⟨name⟩

/-- The nonterminal of a name, as a symbol. -/
def nt (name : String) : Symbol := .nonterminal ⟨name⟩

/-- A rule without constraints. -/
def rule (head : String) (bodies : List (List Symbol)) : RuleDecl :=
  ⟨⟨head⟩, bodies.map fun b => (b, none)⟩

/-- `S => A; A => a A c | b` -/
def abc : Grammar :=
  .ofRules ⟨"S"⟩
    [rule "S" [[nt "A"]],
      rule "A" [[tm "a", nt "A", tm "c"], [tm "b"]]]

/-- `Ss => A A x; A => ε` -/
def nullablePair : Grammar :=
  .ofRules ⟨"Ss"⟩
    [rule "Ss" [[nt "A", nt "A", tm "x"]],
      rule "A" [[]]]

/-- `S => A B; A => B; B => ε | C; C => c` -/
def transitiveNullable : Grammar :=
  .ofRules ⟨"S"⟩
    [rule "S" [[nt "A", nt "B"]],
      rule "A" [[nt "B"]],
      rule "B" [[], [nt "C"]],
      rule "C" [[tm "c"]]]

/-- Arithmetic where `*` binds tighter than `+`:
`P => S; S => S + M | M; M => M * T | T; T => integer | ( S )` -/
def expression : Grammar :=
  .ofRules ⟨"P"⟩
    [rule "P" [[nt "S"]],
      rule "S" [[nt "S", tm "+", nt "M"], [nt "M"]],
      rule "M" [[nt "M", tm "*", nt "T"], [nt "T"]],
      rule "T" [[tm "integer"], [tm "(", nt "S", tm ")"]]]

/-- Arithmetic without precedence: `S => S + S | S * S | L; L => integer` -/
def ambiguousExpression : Grammar :=
  .ofRules ⟨"S"⟩
    [rule "S" [[nt "S", tm "+", nt "S"], [nt "S", tm "*", nt "S"], [nt "L"]],
      rule "L" [[tm "integer"]]]

/-- `S => A A; A => a | a a`, ambiguous in where the two phrases meet. -/
def splitAmbiguity : Grammar :=
  .ofRules ⟨"S"⟩
    [rule "S" [[nt "A", nt "A"]],
      rule "A" [[tm "a"], [tm "a", tm "a"]]]

/-- `S => S a | a` -/
def leftRecursive : Grammar :=
  .ofRules ⟨"S"⟩ [rule "S" [[nt "S", tm "a"], [tm "a"]]]

/-- `S => S S | a`, where `n` tokens have as many derivations as there are binary trees with `n`
leaves. -/
def binaryConcat : Grammar :=
  .ofRules ⟨"S"⟩ [rule "S" [[nt "S", nt "S"], [tm "a"]]]

/-- `S => a | ε | S S S`, where a phrase can be split into itself and two empty phrases. -/
def tripleConcat : Grammar :=
  .ofRules ⟨"S"⟩ [rule "S" [[tm "a"], [], [nt "S", nt "S", nt "S"]]]

/-- `A => A | a`, with infinitely many derivations of one token. -/
def cyclic : Grammar :=
  .ofRules ⟨"A"⟩ [rule "A" [[nt "A"], [tm "a"]]]

/-- A conditional in a `then` branch that is followed by `else` is vetoed. -/
def closestElse : Constraint := fun c =>
  c.elemIndex != 3 || !c.calleeTokens.any fun t => t.kind == ⟨"if"⟩

/-- `S => if E then S | if E then S else S | other; E => cond`, with a constraint on the second
production. -/
def conditional (constraint : Option Constraint) : Grammar :=
  .ofRules ⟨"S"⟩
    [⟨⟨"S"⟩,
      [([tm "if", nt "E", tm "then", nt "S"], none),
        ([tm "if", nt "E", tm "then", nt "S", tm "else", nt "S"], constraint),
        ([tm "other"], none)]⟩,
      rule "E" [[tm "cond"]]]

/-- Conditionals whose `else` may belong to any `then` before it. -/
def danglingElse : Grammar :=
  conditional none

/-- Conditionals whose `else` belongs to the nearest `then`. -/
def nearestElse : Grammar :=
  conditional (some closestElse)

end ParseForest.Samples
