import ParseForest.Symbol

/-!
# Tokens

An input is a list of tokens. A grammar only sees the kind of a token; the lexeme is the text that
trees and messages show.
-/

namespace ParseForest

/-- One word of an input: what it is to a grammar, and the word itself. -/
structure Token where
  kind : Terminal
  lexeme : String
deriving DecidableEq, Repr, Inhabited

namespace Token

/-- Tokens are ordered by kind, then by lexeme. -/
instance : Ord Token where
  compare a b := (compare a.kind b.kind).then (compare a.lexeme b.lexeme)

/-- The token whose lexeme is the name of its kind. -/
def plain (name : String) : Token :=
  ⟨⟨name⟩, name⟩

end Token

end ParseForest
