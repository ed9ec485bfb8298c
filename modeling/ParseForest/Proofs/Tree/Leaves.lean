import ParseForest.Derivation
import Mathlib.Tactic.Lemma

/-!
# The leaves of derivations

The tokens of a derivation, read from left to right, are the tokens of the part of the input that it
is over.
-/

namespace ParseForest

namespace Tree

mutual

/-- The tokens of a tree with their indices, from left to right. -/
def leaves : Tree → List (Token × Nat)
  | token index t => [(t, index)]
  | epsilon _ => []
  | node _ _ _ _ children => leavesList children

def leavesList : List Tree → List (Token × Nat)
  | [] => []
  | t :: ts => t.leaves ++ leavesList ts

end

@[simp] lemma leavesList_append (ts us : List Tree) :
    leavesList (ts ++ us) = leavesList ts ++ leavesList us := by
  induction ts with
  | nil => simp [leavesList]
  | cons t ts ih => simp [leavesList, ih]

@[simp] lemma leavesList_singleton (t : Tree) : leavesList [t] = t.leaves := by
  simp [leavesList]

@[simp] lemma leavesList_childrenOf (lo : Nat) (ts : List Tree) :
    leavesList (childrenOf lo ts) = leavesList ts := by
  cases ts <;> simp [childrenOf, leavesList, leaves]

end Tree

/-! ### Parts of the input -/

lemma slice_self (w : List Token) (lo : Nat) : slice w lo lo = [] := by
  simp [slice]

lemma slice_append (w : List Token) {lo mid hi : Nat} (h : lo ≤ mid) (h' : mid ≤ hi) :
    slice w lo mid ++ slice w mid hi = slice w lo hi := by
  have hsum : hi - lo = (mid - lo) + (hi - mid) := by omega
  have hmid : mid = lo + (mid - lo) := by omega
  rw [slice, slice, slice, hsum, List.take_add, List.drop_drop, ← hmid]

lemma slice_succ {w : List Token} {hi : Nat} {t : Token} (ht : w[hi]? = some t) :
    slice w hi (hi + 1) = [t] := by
  rw [slice, Nat.add_sub_cancel_left, List.take_one, List.head?_drop, ht]
  rfl

lemma length_slice {w : List Token} {lo hi : Nat} (h : hi ≤ w.length) :
    (slice w lo hi).length = hi - lo := by
  rw [slice, List.length_take, List.length_drop]
  omega

lemma slice_zero (w : List Token) (hi : Nat) : slice w 0 hi = w.take hi := by
  simp [slice]

/-! ### Leaves -/

variable {G : Grammar} {w : List Token}

/-- The leaves of a derivation are the tokens that it is over. -/
lemma Spans.leavesList_eq {v : Vertex} {lo hi : Nat} {ts : List Tree}
    (h : Spans G w v lo hi ts) : Tree.leavesList ts = (slice w lo hi).zipIdx lo := by
  induction h with
  | enter hp hlo => simp [Tree.leavesList, slice_self]
  | @scan p dot lo hi ts t h hs ht ih =>
    rw [Tree.leavesList_append, ih, ← slice_append w h.le.1 (Nat.le_succ hi), List.zipIdx_append,
      slice_succ ht, length_slice h.le.2, Nat.add_sub_cancel' h.le.1]
    simp [Tree.leaves]
  | @resume p dot lo mid hi prod n ts t h hp hs hn hc ih ihn =>
    rw [Tree.leavesList_append, ih, ihn, ← slice_append w h.le.1 hn.le.1, List.zipIdx_append,
      length_slice h.le.2, Nat.add_sub_cancel' h.le.1]
  | exit hp h ih => simpa [Tree.leaves] using ih

/-- The leaves of a derivation of the whole input are its tokens. -/
lemma Grammar.Derives.leaves_eq {n : NonTerminal} {t : Tree}
    (h : G.Derives w n 0 w.length t) : t.leaves = w.zipIdx := by
  have := h.leavesList_eq
  rwa [Tree.leavesList_singleton, slice_zero, List.take_length] at this

end ParseForest
