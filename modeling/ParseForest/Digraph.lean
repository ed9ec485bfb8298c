/-!
# Drawings of directed graphs

A drawing lists nodes and labelled arrows; its text is in the format that graph drawing tools read.
Labels are quoted: only printable ASCII characters stand for themselves.
-/

namespace ParseForest

/-- The text that stands for a character inside a quoted label. -/
def quotedChar (c : Char) : String :=
  if c = '\t' then "\\t"
  else if c = '\r' then "\\r"
  else if c = '\n' then "\\n"
  else if c = '\'' then "\\'"
  else if c = '"' then "\\\""
  else if c = '\\' then "\\\\"
  else if 0x20 ≤ c.toNat ∧ c.toNat ≤ 0x7e then String.singleton c
  else "\\u\x7b" ++ String.ofList (Nat.toDigits 16 c.toNat) ++ "\x7d"

def quotedLabel (s : String) : String :=
  "\"" ++ String.join (s.toList.map quotedChar) ++ "\""

/-- A directed graph to be drawn: the identifier and the label of each node, and the source, the
target and the label of each arrow. -/
structure Digraph where
  name : String
  nodes : List (String × String)
  arrows : List (String × String × String)
deriving Repr

namespace Digraph

def nodeLine (id label : String) : String :=
  "    " ++ id ++ "[label=" ++ quotedLabel label ++ "];\n"

def arrowLine (source target label : String) : String :=
  "    " ++ source ++ " -> " ++ target ++ "[label=" ++ quotedLabel label ++ "];\n"

/-- The drawing as a text: all nodes, then all arrows. -/
def text (g : Digraph) : String :=
  "digraph " ++ g.name ++ " \x7b\n"
    ++ String.join (g.nodes.map fun n => nodeLine n.1 n.2)
    ++ String.join (g.arrows.map fun a => arrowLine a.1 a.2.1 a.2.2)
    ++ "\x7d\n"

end Digraph

end ParseForest
