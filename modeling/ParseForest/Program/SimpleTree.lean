import ParseForest.Program.Basic
import ParseForest.Grammar.Samples

/-!
# The tree of an arithmetic expression
-/

namespace ParseForest.Program

/-- The expression that is parsed if none is given. -/
def defaultExpression : String := "2 + 3 * 4"

/-- Prints the grammar of expressions, then the tree of one. -/
def simpleTree (arg : Option String) : Outcome :=
  let heading := Samples.expression.doc.render 80 ++ "\n"
  let tokens := arithmeticTokens ["+", "*", "(", ")"] (arg.getD defaultExpression)
  match Samples.expression.parseTree tokens with
  | .ok t => ⟨0, heading ++ t.doc.render 80 ++ "\n", ""⟩
  | .error e => failed heading e

end ParseForest.Program
