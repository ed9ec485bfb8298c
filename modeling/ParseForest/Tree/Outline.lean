import ParseForest.Tree.Basic

/-!
# Outlines of trees

The bracketed text of a tree shows its symbols, its lexemes and its empty leaves, and how they are
nested. This is the outline of the tree. A reader takes the words of such a text one by one: a word
that begins with a bracket opens a phrase, any other word is a leaf, and each bracket at its end
closes a phrase.
-/

namespace ParseForest

/-- What the text of a tree shows: a lexeme, nothing, or a phrase with its parts. -/
inductive Outline where
  | lexeme (s : String)
  | nothing
  | phrase (symbol : NonTerminal) (parts : List Outline)
deriving Repr

mutual

def Tree.outline : Tree → Outline
  | .token _ t => .lexeme t.lexeme
  | .epsilon _ => .nothing
  | .node symbol _ _ _ children => .phrase symbol (Tree.outlines children)

def Tree.outlines : List Tree → List Outline
  | [] => []
  | t :: ts => t.outline :: Tree.outlines ts

end

namespace Outline

/-- A phrase that is being read: its symbol, and the parts that were read, the last one first. -/
structure Unclosed where
  symbol : NonTerminal
  parts : List Outline

/-- A text that is being read: the phrases that are open, the innermost first, and what was read
outside of all phrases. -/
structure Reader where
  stack : List Unclosed
  whole : Option Outline

namespace Reader

def start : Reader :=
  ⟨[], none⟩

/-- Takes in what is complete. -/
def put (r : Reader) (o : Outline) : Reader :=
  match r.stack with
  | [] => ⟨[], some o⟩
  | top :: stack => ⟨⟨top.symbol, o :: top.parts⟩ :: stack, r.whole⟩

/-- Closes the innermost phrase. -/
def close (r : Reader) : Reader :=
  match r.stack with
  | [] => r
  | top :: stack => put ⟨stack, r.whole⟩ (.phrase top.symbol top.parts.reverse)

def closeAll : Nat → Reader → Reader
  | 0, r => r
  | n + 1, r => closeAll n r.close

/-- Takes in a leaf that is shown by some characters; no characters show none. -/
def leaf (r : Reader) (cs : List Char) : Reader :=
  if cs.isEmpty then r
  else if String.ofList cs = emptySign then r.put .nothing
  else r.put (.lexeme (String.ofList cs))

/-- Takes in a word. -/
def word (r : Reader) (w : String) : Reader :=
  match w.toList with
  | '(' :: name => ⟨⟨⟨String.ofList name⟩, []⟩ :: r.stack, r.whole⟩
  | cs =>
    closeAll (cs.dropWhile (· != ')')).length (r.leaf (cs.takeWhile (· != ')')))

end Reader

/-- The outline that some words show, if they leave no phrase open. -/
def read (words : List String) : Option Outline :=
  let r := words.foldl Reader.word .start
  if r.stack.isEmpty then r.whole else none

end Outline

end ParseForest
