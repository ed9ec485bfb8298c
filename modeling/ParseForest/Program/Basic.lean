import ParseForest.Parser
import ParseForest.Text.Blank

/-!
# Programs

A program is a function from its arguments to what it prints and how it exits.
-/

namespace ParseForest

/-- What a program leaves behind. -/
structure Outcome where
  status : Nat
  stdout : String
  stderr : String
deriving DecidableEq, Repr

namespace Program

/-- The outcome of a program that has printed something and then met a fault. -/
def aborted (stdout : String) (f : Fault) : Outcome :=
  ⟨101, stdout, f.message?.getD "index out of bounds" ++ "\n"⟩

/-- The outcome of a program that has printed something and then failed. -/
def failed (stdout : String) (e : ParserError) : Outcome :=
  match e.message with
  | .ok message => ⟨1, stdout, "Error: " ++ message ++ "\n"⟩
  | .error f => aborted stdout f

/-- The words of a text as tokens: those that are signs stand for themselves, others for
integers. -/
def arithmeticTokens (signs : List String) (text : String) : List Token :=
  (words text).map fun w => ⟨⟨if signs.contains w then w else "integer"⟩, w⟩

end Program

end ParseForest
