import ParseForest.Proofs.Layout
import ParseForest.Proofs.Recognition.Acceptance
import ParseForest.Tree.Builder
import ParseForest.Tree.Outline

/-!
# Bracketed text of trees

In the text of a tree the brackets that close phrases stand directly behind the last leaf inside of
them, so a word is an opening bracket with a symbol, or a leaf with some closing brackets. These
words, `Outline.spell`, depend on the outline of the tree only, and a reader gets the outline back
from them, as long as symbols and lexemes do not look like brackets or blanks. So trees with the
same words have the same outline, `words_render_readable`.
-/

namespace ParseForest

/-! ### Legible outlines -/

/-- The text is a word of its own, also next to brackets. -/
def IsPlain (s : String) : Prop :=
  s ≠ "" ∧ ∀ c ∈ s.toList, isBlank c = false ∧ c ≠ '(' ∧ c ≠ ')'

-- The characters of the text are tried, not all characters that there are.
instance (s : String) : Decidable (IsPlain s) :=
  have : Decidable (∀ c ∈ s.toList, isBlank c = false ∧ c ≠ '(' ∧ c ≠ ')') :=
    List.decidableBAll _ _
  inferInstanceAs (Decidable (s ≠ "" ∧ _))

namespace Outline

mutual

/-- The symbols and lexemes are words of their own, and no lexeme looks like the sign for
nothing. -/
def Legible : Outline → Prop
  | .lexeme s => IsPlain s ∧ s ≠ emptySign
  | .nothing => True
  | .phrase symbol parts => IsPlain symbol.name ∧ AllLegible parts

def AllLegible : List Outline → Prop
  | [] => True
  | o :: os => o.Legible ∧ AllLegible os

end

mutual

instance decidableLegible : (o : Outline) → Decidable o.Legible
  | .lexeme s => inferInstanceAs (Decidable (IsPlain s ∧ s ≠ emptySign))
  | .nothing => .isTrue trivial
  | .phrase symbol parts =>
    have := decidableAllLegible parts
    inferInstanceAs (Decidable (IsPlain symbol.name ∧ AllLegible parts))

instance decidableAllLegible : (os : List Outline) → Decidable (AllLegible os)
  | [] => .isTrue trivial
  | o :: os =>
    have := decidableLegible o
    have := decidableAllLegible os
    inferInstanceAs (Decidable (o.Legible ∧ AllLegible os))

end

/-! ### Words of outlines -/

def closing (n : Nat) : String :=
  String.ofList (List.replicate n ')')

mutual

/-- The words that show an outline, with some closing brackets behind the last one. -/
def spell (closers : Nat) : Outline → List String
  | .lexeme s => [s ++ closing closers]
  | .nothing => [emptySign ++ closing closers]
  | .phrase symbol parts => ("(" ++ symbol.name) :: spellAll closers parts

/-- The words that show the parts of a phrase, with the bracket that closes the phrase. -/
def spellAll (closers : Nat) : List Outline → List String
  | [] => [closing (closers + 1)]
  | [o] => o.spell (closers + 1)
  | o :: o' :: os => o.spell 0 ++ spellAll closers (o' :: os)

end

end Outline

open Outline

variable {rest : List Char} {k : Nat}

lemma isPlain_emptySign : IsPlain emptySign := by
  decide +kernel

@[simp] lemma toList_closing (n : Nat) : (closing n).toList = List.replicate n ')' :=
  String.toList_ofList

lemma isBlank_closing {c : Char} (h : c ∈ List.replicate k ')') : isBlank c = false :=
  List.eq_of_mem_replicate h ▸ by decide

/-- A leaf and the brackets behind it are one word. -/
lemma IsPlain.wordsFrom_leaf {s : String} (h : IsPlain s)
    (hrest : ∀ c ∈ rest.head?, isBlank c = true) :
    wordsFrom [] (s.toList ++ (List.replicate k ')' ++ rest)) =
      (s ++ closing k).toList :: wordsFrom [] rest := by
  rw [← List.append_assoc, String.toList_append, toList_closing]
  refine wordsFrom_word (fun c hc => ?_) (fun hnil => ?_) hrest
  · rcases List.mem_append.1 hc with hc | hc
    · exact (h.2 c hc).1
    · exact isBlank_closing hc
  · exact h.1 (String.toList_eq_nil_iff.1 (List.append_eq_nil_iff.1 hnil).1)

mutual

/-- The words of a tree are those of its outline. -/
lemma Tree.wordsFrom_doc {k : Nat} {rest : List Char} (t : Tree) (h : t.outline.Legible)
    (hrest : ∀ c ∈ rest.head?, isBlank c = true) :
    wordsFrom [] (t.doc.chars ++ (List.replicate k ')' ++ rest)) =
      (t.outline.spell k).map String.toList ++ wordsFrom [] rest := by
  match t with
  | .token _ t => exact h.1.wordsFrom_leaf hrest
  | .epsilon _ => exact isPlain_emptySign.wordsFrom_leaf hrest
  | .node symbol _ _ _ children =>
    obtain ⟨hname, hchildren⟩ := h
    have hopen : ∀ c ∈ ("(" ++ symbol.name).toList, isBlank c = false := by
      rw [String.toList_append]
      exact List.forall_mem_cons.2 ⟨by decide, fun c hc => (hname.2 c hc).1⟩
    have hspace : ∀ c ∈ (' ' :: ((Doc.intersperse .line (Tree.docs children)).chars ++
        (List.replicate (k + 1) ')' ++ rest))).head?, isBlank c = true := by
      rintro c ⟨⟩
      exact isBlank_space
    have hword := wordsFrom_word hopen (by simp) hspace
    rw [wordsFrom_blank isBlank_space, wordsFrom_nil, List.nil_append,
      Tree.wordsFrom_docs children hchildren hrest] at hword
    simpa [Tree.doc, Tree.outline, Outline.spell, List.replicate_succ] using hword

/-- The words of the children of a node, with the bracket that closes it. -/
lemma Tree.wordsFrom_docs {k : Nat} {rest : List Char} (ts : List Tree)
    (h : AllLegible (Tree.outlines ts)) (hrest : ∀ c ∈ rest.head?, isBlank c = true) :
    wordsFrom [] ((Doc.intersperse .line (Tree.docs ts)).chars ++
        (List.replicate (k + 1) ')' ++ rest)) =
      (spellAll k (Tree.outlines ts)).map String.toList ++ wordsFrom [] rest := by
  match ts with
  | [] =>
    have hclosing : ∀ c ∈ List.replicate (k + 1) ')', isBlank c = false := fun _ => isBlank_closing
    have hword := wordsFrom_word hclosing (by simp) hrest
    simpa [Tree.docs, Doc.intersperse, Doc.chars, Tree.outlines, spellAll] using hword
  | [t] => exact Tree.wordsFrom_doc t h.1 hrest
  | t :: u :: ts =>
    have hspace : ∀ c ∈ (' ' :: ((Doc.intersperse .line (Tree.docs (u :: ts))).chars ++
        (List.replicate (k + 1) ')' ++ rest))).head?, isBlank c = true := by
      rintro c ⟨⟩
      exact isBlank_space
    have hword := Tree.wordsFrom_doc (k := 0) t h.1 hspace
    rw [wordsFrom_blank isBlank_space, wordsFrom_nil, List.nil_append,
      Tree.wordsFrom_docs (u :: ts) h.2 hrest] at hword
    simpa [Tree.docs, Doc.intersperse, Tree.outlines, spellAll] using hword

end

namespace Outline.Reader

variable {r : Reader} {s : String} {n : NonTerminal}

/-- Reading a leaf takes in the leaf and closes what its brackets close. -/
lemma word_leaf (h : IsPlain s) :
    r.word (s ++ closing k) =
      closeAll k (if s = emptySign then r.put .nothing else r.put (.lexeme s)) := by
  have hlist : (s ++ closing k).toList = s.toList ++ List.replicate k ')' := by simp
  have hplain : ∀ c ∈ s.toList, (c != ')') = true := fun c hc => bne_iff_ne.2 (h.2 c hc).2.2
  have htake : (s.toList ++ List.replicate k ')').takeWhile (· != ')') = s.toList := by
    rw [List.takeWhile_append_of_pos hplain]
    simp
  have hdrop : ((s.toList ++ List.replicate k ')').dropWhile (· != ')')).length = k := by
    rw [List.dropWhile_append_of_pos hplain]
    simp
  have hleaf : r.leaf s.toList =
      if s = emptySign then r.put .nothing else r.put (.lexeme s) := by
    simp [leaf, h.1]
  rw [word, hlist]
  split
  · next name hopen =>
    -- The word does not begin with an opening bracket.
    cases hs : s.toList with
    | nil => exact absurd (String.toList_eq_nil_iff.1 hs) h.1
    | cons c cs =>
      rw [hs, List.cons_append] at hopen
      exact absurd (List.cons.inj hopen).1 (h.2 c (hs ▸ List.mem_cons_self)).2.1
  · rw [htake, hdrop, hleaf]

lemma word_open : r.word ("(" ++ n.name) = ⟨⟨n, []⟩ :: r.stack, r.whole⟩ := by
  have hlist : ("(" ++ n.name).toList = '(' :: n.name.toList := by simp
  simp [word, hlist]

/-- Brackets without a leaf only close phrases. -/
lemma word_closing : r.word (closing (k + 1)) = closeAll (k + 1) r := by
  simp [word, List.replicate_succ, leaf]

mutual

/-- Reading the words of an outline takes in the outline and closes what the brackets behind it
close. -/
lemma foldl_spell {k : Nat} {r : Reader} (o : Outline) (h : o.Legible) :
    (o.spell k).foldl word r = closeAll k (r.put o) := by
  match o with
  | .lexeme s => exact (word_leaf h.1).trans (by rw [if_neg h.2])
  | .nothing => exact (word_leaf isPlain_emptySign).trans (by rw [if_pos rfl])
  | .phrase n parts =>
    rw [spell, List.foldl_cons, word_open, foldl_spellAll parts h.2]
    simp [closeAll, close]

/-- Reading the words of the parts of a phrase completes the phrase. -/
lemma foldl_spellAll {k : Nat} {n : NonTerminal} {parts : List Outline} {stack : List Unclosed}
    {whole : Option Outline} (os : List Outline) (h : AllLegible os) :
    (spellAll k os).foldl word ⟨⟨n, parts⟩ :: stack, whole⟩ =
      closeAll (k + 1) ⟨⟨n, os.reverse ++ parts⟩ :: stack, whole⟩ := by
  match os with
  | [] => exact word_closing
  | [o] => exact foldl_spell o h.1
  | o :: o' :: os =>
    rw [spellAll, List.foldl_append, foldl_spell o h.1, closeAll, put,
      foldl_spellAll (o' :: os) h.2]
    simp

end

end Outline.Reader

end ParseForest
