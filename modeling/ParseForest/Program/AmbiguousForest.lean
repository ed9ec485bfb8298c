import ParseForest.Program.Basic
import ParseForest.Grammar.Samples

/-!
# The forest of an ambiguous expression
-/

namespace ParseForest.Program

def outlineLine (depth : Nat) (text : String) : String :=
  String.ofList (List.replicate (2 * depth) ' ') ++ text ++ "\n"

def rangeText (symbol : NonTerminal) (lo hi : Nat) : String :=
  symbol.name ++ " [" ++ toString lo ++ ", " ++ toString hi ++ ")"

/-- The lines of an outline from a depth: what is met inside a nonterminal or an alternative is
indented deeper. -/
def outline (depth : Nat) : List Callback → List String
  | [] => []
  | .enter symbol lo hi :: rest =>
    outlineLine depth (rangeText symbol lo hi) :: outline (depth + 1) rest
  | .exit _ _ _ :: rest => outline (depth - 1) rest
  | .enterAlternative _ prod _ _ :: rest =>
    outlineLine depth ("or #" ++ toString prod) :: outline (depth + 1) rest
  | .exitAlternative _ _ _ _ :: rest => outline (depth - 1) rest
  | .token _ t :: rest => outlineLine depth ("'" ++ t.lexeme ++ "'") :: outline depth rest
  | .epsilon _ :: rest => outlineLine depth emptySign :: outline depth rest
  | .cycle symbol lo hi :: rest =>
    outlineLine depth ("(cycle back to " ++ rangeText symbol lo hi ++ ")") :: outline depth rest

/-- Prints an outline and a drawing of the forest of an expression with two derivations. -/
def ambiguousForest : Outcome :=
  match Samples.ambiguousExpression.parseForest (arithmeticTokens ["+", "*"] "1 + 2 * 3") with
  | .ok F => ⟨0, String.join (outline 0 F.traverse) ++ "\n" ++ F.drawing.text ++ "\n", ""⟩
  | .error e => failed "" e

end ParseForest.Program
