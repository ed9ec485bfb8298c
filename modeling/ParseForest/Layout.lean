/-!
# Layout of documents

A document is a text with places where it may be broken over lines. A line break stands for one
space where the group around it is laid out flat, and for a newline with the indentation of its
nesting elsewhere. A group is laid out flat exactly if what follows then fits the width, up to the
next newline. Widths are counted in bytes.
-/

namespace ParseForest

/-- A text with optional line breaks: a line is a space or a newline, a nest indents the newlines of
a document deeper, and a group is laid out flat if it fits. -/
inductive Doc where
  | nil
  | text (s : String)
  | line
  | append (a b : Doc)
  | nest (indent : Nat) (d : Doc)
  | group (d : Doc)
deriving Repr, Inhabited

namespace Doc

instance : Append Doc where
  append := Doc.append

/-- A line break that is decided alone. -/
def softline : Doc :=
  group line

def concat : List Doc → Doc
  | [] => nil
  | d :: ds => d ++ concat ds

/-- The documents one after another, with a separator between neighbours. -/
def intersperse (separator : Doc) : List Doc → Doc
  | [] => nil
  | [d] => d
  | d :: e :: ds => d ++ (separator ++ intersperse separator (e :: ds))

def size : Doc → Nat
  | nil => 1
  | text _ => 1
  | line => 1
  | append a b => a.size + b.size + 1
  | nest _ d => d.size + 1
  | group d => d.size + 1

theorem size_pos (d : Doc) : 0 < d.size := by
  cases d <;> simp [size]

end Doc

namespace Layout

/-- How the line breaks around a document are laid out: as spaces or as newlines. -/
inductive Mode where
  | flat
  | broken
deriving DecidableEq, Repr

/-- A document that is still to be laid out, with the indentation of its newlines and the mode of
the group around it. -/
structure Pending where
  indent : Nat
  mode : Mode
  doc : Doc

/-- The number of constructors in a list of pending documents. -/
def weight : List Pending → Nat
  | [] => 0
  | p :: ps => p.doc.size + weight ps

/-- Whether the pending documents reach a newline or their end within the width, from a column. -/
def fits (width column : Nat) (pending : List Pending) : Bool :=
  if width < column then
    false
  else
    match pending with
    | [] => true
    | ⟨_, _, .nil⟩ :: ps => fits width column ps
    | ⟨_, _, .text s⟩ :: ps => fits width (column + s.utf8ByteSize) ps
    | ⟨_, .flat, .line⟩ :: ps => fits width (column + 1) ps
    | ⟨_, .broken, .line⟩ :: _ => true
    | ⟨i, m, .append a b⟩ :: ps => fits width column (⟨i, m, a⟩ :: ⟨i, m, b⟩ :: ps)
    | ⟨i, m, .nest n d⟩ :: ps => fits width column (⟨i + n, m, d⟩ :: ps)
    | ⟨i, m, .group d⟩ :: ps => fits width column (⟨i, m, d⟩ :: ps)
termination_by weight pending
decreasing_by all_goals simp [weight, Doc.size]; try omega

/-- A newline and the indentation after it. -/
def newline (indent : Nat) : String :=
  "\n" ++ String.ofList (List.replicate indent ' ')

/-- The pieces of text that the pending documents are laid out as, from a column. -/
def pieces (width column : Nat) (pending : List Pending) : List String :=
  match pending with
  | [] => []
  | ⟨_, _, .nil⟩ :: ps => pieces width column ps
  | ⟨_, _, .text s⟩ :: ps => s :: pieces width (column + s.utf8ByteSize) ps
  | ⟨_, .flat, .line⟩ :: ps => " " :: pieces width (column + 1) ps
  | ⟨i, .broken, .line⟩ :: ps => newline i :: pieces width i ps
  | ⟨i, m, .append a b⟩ :: ps => pieces width column (⟨i, m, a⟩ :: ⟨i, m, b⟩ :: ps)
  | ⟨i, m, .nest n d⟩ :: ps => pieces width column (⟨i + n, m, d⟩ :: ps)
  | ⟨i, .flat, .group d⟩ :: ps => pieces width column (⟨i, .flat, d⟩ :: ps)
  | ⟨i, .broken, .group d⟩ :: ps =>
    if fits width column (⟨i, .flat, d⟩ :: ps) then
      pieces width column (⟨i, .flat, d⟩ :: ps)
    else
      pieces width column (⟨i, .broken, d⟩ :: ps)
termination_by weight pending
decreasing_by all_goals simp [weight, Doc.size]; try omega

end Layout

def Doc.render (d : Doc) (width : Nat) : String :=
  String.join (Layout.pieces width 0 [⟨0, .broken, d⟩])

end ParseForest
