import ParseForest.Proofs.Forest.Readings
import Mathlib.Algebra.GroupWithZero.Nat

/-!
# Counting readings

The weight of a thread at a reading is 1 if the thread can become the reading, and 0 otherwise. The
weights of what a walk still has to do and of what a builder has done add up to an account of how
often each reading is going to be stored. Following an antecedent moves weight around without
changing the sum, `weight_resume` and `weight_finish`.
-/

namespace ParseForest

/-! ### Sums -/

/-- At most one element of the list has the property. -/
lemma sum_map_ite {α : Type} {l : List α} (q : α → Prop) [DecidablePred q] (hl : l.Nodup)
    (huniq : ∀ a ∈ l, ∀ b ∈ l, q a → q b → a = b) [Decidable (∃ a ∈ l, q a)] :
    (l.map fun a => if q a then 1 else 0).sum = if ∃ a ∈ l, q a then 1 else 0 := by
  have hnone : ∀ l : List α, (∀ a ∈ l, ¬ q a) → (l.map fun a => if q a then 1 else 0).sum = 0 := by
    intro l h
    rw [List.sum_eq_zero_iff_forall_eq_nat]
    intro n hn
    obtain ⟨a, ha, rfl⟩ := List.mem_map.1 hn
    exact if_neg (h a ha)
  by_cases h : ∃ a ∈ l, q a
  · rw [if_pos h]
    obtain ⟨a, ha, hqa⟩ := h
    obtain ⟨l₁, l₂, rfl⟩ := List.append_of_mem ha
    rw [List.nodup_append, List.nodup_cons] at hl
    obtain ⟨-, ⟨ha₂, -⟩, hdisj⟩ := hl
    rw [List.map_append, List.sum_append, List.map_cons, List.sum_cons, if_pos hqa,
      hnone l₁, hnone l₂]
    · intro b hb hqb
      have := huniq a ha b (by simp [hb]) hqa hqb
      exact ha₂ (this ▸ hb)
    · intro b hb hqb
      have := huniq b (by simp [hb]) a ha hqb hqa
      exact hdisj b hb a (by simp) this
  · rw [if_neg h]
    refine hnone l fun a ha hqa => h ⟨a, ha, hqa⟩

/-- The sum of the values below a bound. -/
def sumBelow (n : Nat) (f : Nat → Nat) : Nat :=
  ((List.range n).map f).sum

lemma sumBelow_succ (n : Nat) (f : Nat → Nat) : sumBelow (n + 1) f = sumBelow n f + f n := by
  simp [sumBelow, List.range_succ]

lemma sumBelow_congr {n : Nat} {f g : Nat → Nat} (h : ∀ i < n, f i = g i) :
    sumBelow n f = sumBelow n g := by
  unfold sumBelow
  congr 1
  exact List.map_congr_left fun i hi => h i (List.mem_range.1 hi)

/-- Changing one value changes the sum by the difference. -/
lemma sumBelow_change {n i : Nat} {f g : Nat → Nat} (hi : i < n) (h : ∀ j < n, j ≠ i → g j = f j) :
    sumBelow n g + f i = sumBelow n f + g i := by
  induction n with
  | zero => omega
  | succ n ih =>
    rw [sumBelow_succ, sumBelow_succ]
    by_cases hin : i = n
    · subst hin
      rw [sumBelow_congr (f := g) (g := f) fun j hj => h j (by omega) (by omega)]
      omega
    · have := ih (by omega) fun j hj hne => h j (by omega) hne
      have := h n (by omega) (Ne.symm hin)
      omega

lemma le_sumBelow {n i : Nat} {f : Nat → Nat} (hi : i < n) : f i ≤ sumBelow n f := by
  have := sumBelow_change (f := f) (g := fun j => if j = i then 0 else f j) hi
    (fun j _ hne => if_neg hne)
  simp only [if_pos] at this
  omega

lemma add_le_sumBelow {n i j : Nat} {f : Nat → Nat} (hi : i < n) (hj : j < n) (hij : i ≠ j) :
    f i + f j ≤ sumBelow n f := by
  have hchange := sumBelow_change (f := f) (g := fun l => if l = i then 0 else f l) hi
    (fun l _ hne => if_neg hne)
  have hle := le_sumBelow (f := fun l => if l = i then 0 else f l) hj
  simp only [if_pos, if_neg (Ne.symm hij)] at hchange hle
  omega

lemma sumBelow_pos_iff {n : Nat} {f : Nat → Nat} : 0 < sumBelow n f ↔ ∃ i < n, 0 < f i := by
  constructor
  · intro h
    by_contra hnone
    have hzero : sumBelow n f = 0 := by
      rw [sumBelow, List.sum_eq_zero_iff_forall_eq_nat]
      intro m hm
      obtain ⟨i, hi, rfl⟩ := List.mem_map.1 hm
      by_contra hne
      exact hnone ⟨i, List.mem_range.1 hi, Nat.pos_of_ne_zero hne⟩
    omega
  · rintro ⟨i, hi, hpos⟩
    exact Nat.lt_of_lt_of_le hpos (le_sumBelow hi)

/-! ### Weights of threads -/

/-- Whether the thread can become the reading, as a number. -/
noncomputable def Thread.weight (G : Grammar) (w : List Token) (τ : Thread) (r : Reading) : Nat :=
  open Classical in if τ.Yields G w r then 1 else 0

variable {G : Grammar} {w : List Token} {τ τ' : Thread} {r : Reading}

lemma weight_eq_of_iff (h : τ.Yields G w r ↔ τ'.Yields G w r) :
    τ.weight G w r = τ'.weight G w r := by
  unfold Thread.weight
  by_cases hr : τ.Yields G w r
  · rw [if_pos hr, if_pos (h.1 hr)]
  · rw [if_neg hr, if_neg (mt h.2 hr)]

lemma weight_pos_iff : 0 < τ.weight G w r ↔ τ.Yields G w r := by
  unfold Thread.weight
  split <;> simp_all

/-- The weight of the threads of some antecedents. -/
noncomputable def threadsWeight (P : Parsing) (site : Option CallSite) (tail : List Piece)
    (ids : List Nat) (r : Reading) : Nat :=
  (ids.map fun a => (P.chart.thread site tail a).weight P.grammar P.tokens r).sum

variable {P : Parsing} {site : Option CallSite} {tail : List Piece}

@[simp] lemma threadsWeight_nil : threadsWeight P site tail [] r = 0 := rfl

@[simp] lemma threadsWeight_cons (a : Nat) (ids : List Nat) :
    threadsWeight P site tail (a :: ids) r =
      (P.chart.thread site tail a).weight P.grammar P.tokens r + threadsWeight P site tail ids r := by
  simp [threadsWeight]

lemma threadsWeight_pos_iff {ids : List Nat} :
    0 < threadsWeight P site tail ids r ↔
      ∃ a ∈ ids, (P.chart.thread site tail a).Yields P.grammar P.tokens r := by
  induction ids with
  | nil => simp
  | cons a ids ih =>
    rw [threadsWeight_cons, List.exists_mem_cons_iff, ← ih, ← weight_pos_iff]
    omega

/-- What a thread of the phrase `x` adds to the account of `x'`. -/
noncomputable def added (P : Parsing) (x : Phrase) (τ : Thread) (x' : Phrase) (r : Reading) : Nat :=
  if x = x' then τ.weight P.grammar P.tokens r else 0

lemma added_self {x : Phrase} : added P x τ x r = τ.weight P.grammar P.tokens r :=
  if_pos rfl

/-- Whether the reading is one of the phrase, as a number. -/
noncomputable def readsWeight (G : Grammar) (w : List Token) (x : Phrase) (r : Reading) : Nat :=
  open Classical in if G.Reads w x r then 1 else 0

lemma readsWeight_pos_iff {x : Phrase} : 0 < readsWeight G w x r ↔ G.Reads w x r := by
  unfold readsWeight
  split <;> simp_all

lemma readsWeight_le_one (x : Phrase) : readsWeight G w x r ≤ 1 := by
  unfold readsWeight
  split <;> omega

namespace Parsing.Complete

variable {p dot lo k id : Nat} {n : NonTerminal}

/-- The threads behind a nonterminal share out the readings of the item. -/
lemma weight_resume (h : P.Complete) (hs : P.grammar.symbolAt? p dot = some (.nonterminal n))
    (hx : P.chart.place? id = some ⟨.item p (dot + 1), lo, k⟩) :
    Thread.weight P.grammar P.tokens ⟨p, dot + 1, lo, k, tail⟩ r =
      threadsWeight P (some ⟨p, dot, lo⟩) tail (P.chart.antecedents id) r := by
  classical
  obtain ⟨prod, hp, -⟩ := h.prod_of_item hx
  rw [Grammar.symbolAt?_eq hp] at hs
  have hsum := sum_map_ite
    (fun a => (P.chart.thread (some ⟨p, dot, lo⟩) tail a).Yields P.grammar P.tokens r)
    (h.filled.antecedents_nodup id) fun a ha b hb hra hrb =>
      h.eq_of_yields_resume hp hs hx ha hb hra hrb
  unfold threadsWeight Thread.weight
  rw [hsum]
  simp only [h.yields_resume_iff hp hs hx]

/-- The threads of complete items share out the readings of their phrase. -/
lemma weight_finish (h : P.Complete) (tail : List Piece)
    (hx : P.chart.place? id = some ⟨.finish n, lo, k⟩) :
    readsWeight P.grammar P.tokens ⟨n, lo, k⟩ r =
      threadsWeight P none tail (P.chart.antecedents id) r := by
  classical
  have hsum := sum_map_ite
    (fun a => (P.chart.thread none tail a).Yields P.grammar P.tokens r)
    (h.filled.antecedents_nodup id) fun a ha b hb hra hrb =>
      h.eq_of_yields_finish hx ha hb hra hrb
  unfold threadsWeight Thread.weight readsWeight
  rw [hsum]
  simp only [h.reads_iff tail hx]

end Parsing.Complete

end ParseForest
