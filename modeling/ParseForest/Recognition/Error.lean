import ParseForest.Token
import ParseForest.Fault

/-!
# Parse errors

Positions are counted from zero, and in messages from one. They are words of 64 bits, and so are
their numbers: the main statement says that a position has a number exactly if the number fits.
-/

namespace ParseForest

/-- Why an input is not recognized. -/
inductive ParseError where
  /-- The input is empty, and the grammar does not accept that. -/
  | noInput
  /-- A token has a kind that is not expected at its position. -/
  | unexpectedToken (position : Nat) (token : Token) (expected : List Terminal)
  /-- The input ends before the start symbol is completed. -/
  | prematureEnd (position : Nat) (token : Token) (expected : List Terminal)
deriving DecidableEq, Repr

/-- The expected terminals in words; no terminal is expected only at the end of an input. -/
def expectedText : List Terminal → String
  | [] => "end of input"
  | expected =>
    "one of [" ++ ", ".intercalate (expected.map fun t => "'" ++ t.name ++ "'") ++ "]"

/-- The number of positions that there can be. -/
def positionLimit : Nat :=
  UInt64.size

/-- The number of a position counted from one. -/
def ordinal (position : Nat) : Except Fault Nat :=
  if position + 1 < positionLimit then .ok (position + 1) else .error .positionOverflow

/-- A position has a number exactly if the number is below the limit of positions too. -/
theorem ordinal_eq_ok_iff {position n : Nat} :
    ordinal position = .ok n ↔ n = position + 1 ∧ n < positionLimit := by
  unfold ordinal
  split
  · constructor
    · intro h
      cases h
      exact ⟨rfl, by assumption⟩
    · rintro ⟨rfl, -⟩
      rfl
  · constructor
    · intro h
      cases h
    · rintro ⟨rfl, h⟩
      contradiction

/-- The error in words; fails if the error is at a position without a number. -/
def ParseError.message : ParseError → Except Fault String
  | noInput => .ok "no input: the grammar does not accept an empty token sequence"
  | unexpectedToken position token expected =>
    (ordinal position).map fun n =>
      "syntax error at or near token " ++ toString n ++ " >>>" ++ token.lexeme
        ++ "<<<: expected " ++ expectedText expected ++ ", found a '" ++ token.kind.name
        ++ "' instead"
  | prematureEnd position token expected =>
    (ordinal position).map fun n =>
      "premature end of input after '" ++ token.lexeme ++ "' at position " ++ toString n
        ++ ": expected " ++ expectedText expected

end ParseForest
