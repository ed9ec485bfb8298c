import ParseForest.Grammar.Nullable
import Mathlib.Tactic.Lemma
import Mathlib.Data.List.Perm.Subperm

/-!
# What the nullable set holds

A nonterminal derives the empty input if it heads a production of nonterminals that all do. Every
head that a pass adds is one of these, so the set never holds another nonterminal; each pass but the
last adds a head, so the last pass is reached within the bound; and that pass changes nothing, so
the set is closed under the productions. The main statement is `mem_nullableSet_iff`.
-/

namespace ParseForest

universe u v

/-! ### Passes -/

namespace Change

variable {α : Type u} {σ : Type v}

@[simp] lemma join_eq_unchanged {a b : Change} :
    a.join b = unchanged ↔ a = unchanged ∧ b = unchanged := by
  cases a <;> cases b <;> simp [join]

/-- What each visit keeps is kept by a sweep. -/
lemma sweep_induction {visit : σ → α → σ × Change} {p : σ → Prop} {items : List α}
    (hkeep : ∀ s, ∀ a ∈ items, p s → p (visit s a).1) {s : σ} (hs : p s) :
    p (sweep visit s items).1 := by
  induction items generalizing s with
  | nil => exact hs
  | cons a items ih =>
    exact ih (fun s b hb => hkeep s b (List.mem_cons_of_mem _ hb)) (hkeep s a List.mem_cons_self hs)

/-- If visits that report no change leave the state alone, then in a sweep that reports no change
all items were visited in the same state. -/
lemma visit_of_sweep {visit : σ → α → σ × Change}
    (hsame : ∀ s a, (visit s a).2 = unchanged → (visit s a).1 = s) {items : List α} {s : σ}
    (h : (sweep visit s items).2 = unchanged) :
    (sweep visit s items).1 = s ∧ ∀ a ∈ items, (visit s a).2 = unchanged := by
  induction items generalizing s with
  | nil => simp [sweep]
  | cons a items ih =>
    obtain ⟨ha, hrest⟩ := join_eq_unchanged.1 h
    have hs : (visit s a).1 = s := hsame s a ha
    rw [hs] at hrest
    obtain ⟨hfinal, hitems⟩ := ih hrest
    refine ⟨?_, List.forall_mem_cons.2 ⟨ha, hitems⟩⟩
    change (sweep visit (visit s a).1 items).1 = s
    rw [hs, hfinal]

/-- Visits that let a size grow when they report a change, and never fall, do so in a sweep. -/
lemma size_sweep {visit : σ → α → σ × Change} {size : σ → Nat}
    (hle : ∀ s a, size s ≤ size (visit s a).1)
    (hlt : ∀ s a, (visit s a).2 = changed → size s < size (visit s a).1) (items : List α) (s : σ) :
    size s ≤ size (sweep visit s items).1 ∧
      ((sweep visit s items).2 = changed → size s < size (sweep visit s items).1) := by
  induction items generalizing s with
  | nil => simp [sweep]
  | cons a items ih =>
    obtain ⟨hrest, hgrow⟩ := ih (visit s a).1
    refine ⟨Nat.le_trans (hle s a) hrest, fun h => ?_⟩
    cases ha : (visit s a).2 with
    | changed => exact Nat.lt_of_lt_of_le (hlt s a ha) hrest
    | unchanged =>
      refine Nat.lt_of_le_of_lt (hle s a) (hgrow ?_)
      cases hi : (sweep visit (visit s a).1 items).2 with
      | changed => rfl
      | unchanged => simp [sweep, ha, hi, join] at h

lemma settle_succ (pass : σ → σ × Change) (bound : Nat) (s : σ) :
    settle pass (bound + 1) s =
      match (pass s).2 with
      | unchanged => (pass s).1
      | changed => settle pass bound (pass s).1 := by
  rcases hp : pass s with ⟨s', c⟩
  cases c with
  | unchanged => simp [settle, passes, hp]
  | changed =>
    simp only [settle, passes, hp, List.getLast?_cons, Option.map_some, Option.getD_some]
    cases (passes pass bound s').getLast? <;> rfl

variable {pass : σ → σ × Change} {p : σ → Prop} {size : σ → Nat} {limit : Nat}

/-- Passes that let a bounded size grow come to a state that a pass does not change. -/
lemma settle_spec (hkeep : ∀ s, p s → p (pass s).1)
    (hsame : ∀ s, (pass s).2 = unchanged → (pass s).1 = s)
    (hgrow : ∀ s, (pass s).2 = changed → size s < size (pass s).1)
    (hlimit : ∀ s, p s → size s ≤ limit) {bound : Nat} {s : σ} (hs : p s)
    (hbound : limit < bound + size s) :
    p (settle pass bound s) ∧ (pass (settle pass bound s)).2 = unchanged := by
  induction bound generalizing s with
  | zero =>
    have := hlimit s hs
    omega
  | succ bound ih =>
    rw [settle_succ]
    cases hc : (pass s).2 with
    | unchanged =>
      dsimp only
      rw [hsame s hc]
      exact ⟨hs, hc⟩
    | changed =>
      have := hgrow s hc
      exact ih (hkeep s hs) (by omega)

end Change

/-! ### Empty derivations -/

/-- A nonterminal derives the empty input by some productions. -/
inductive Erases (prods : List Production) : NonTerminal → Prop where
  /-- A production derives nothing if its symbols are nonterminals that derive nothing. -/
  | intro {prod : Production} (hp : prod ∈ prods) (ht : ∀ t, Symbol.terminal t ∉ prod.body)
      (hn : ∀ n, Symbol.nonterminal n ∈ prod.body → Erases prods n) : Erases prods prod.head

namespace Production

variable {prod : Production} {prods : List Production} {nullable : List NonTerminal}

lemma isNullableIn_iff :
    prod.isNullableIn nullable = true ↔
      (∀ t, Symbol.terminal t ∉ prod.body) ∧
        ∀ n, Symbol.nonterminal n ∈ prod.body → n ∈ nullable := by
  rw [isNullableIn, List.all_eq_true]
  constructor
  · intro h
    exact ⟨fun t ht => by simpa using h _ ht, fun n hn => by simpa using h _ hn⟩
  · rintro ⟨hterminal, hnonterminal⟩ s hs
    cases s with
    | terminal t => exact absurd hs (hterminal t)
    | nonterminal n => simpa using hnonterminal n hs

/-- What the visit of a production does: its head is added exactly if it is not in the set and all
symbols of the body are. -/
lemma spreadNullable_cases (nullable : List NonTerminal) (prod : Production) :
    prod.spreadNullable nullable = (nullable, .unchanged) ∧
        (prod.isNullableIn nullable = true → prod.head ∈ nullable) ∨
      prod.spreadNullable nullable = (Ordered.insert prod.head nullable, .changed) ∧
        prod.head ∉ nullable ∧ prod.isNullableIn nullable = true := by
  unfold spreadNullable
  split
  · next h =>
    refine Or.inl ⟨rfl, fun hnull => ?_⟩
    simpa [hnull] using h
  · next h =>
    simp only [Bool.or_eq_true, Bool.not_eq_true', not_or, Bool.not_eq_false] at h
    exact Or.inr ⟨rfl, by simpa using h.1, h.2⟩

end Production

/-- The set lists nonterminals that derive the empty input, in increasing order. -/
structure NullableSoFar (prods : List Production) (nullable : List NonTerminal) : Prop where
  increasing : Ordered.Increasing nullable
  erases : ∀ n ∈ nullable, Erases prods n

variable {prods : List Production} {nullable : List NonTerminal} {n : NonTerminal}

lemma Erases.mem_heads (h : Erases prods n) : n ∈ prods.map (·.head) := by
  cases h with
  | intro hp _ _ => exact List.mem_map_of_mem hp

namespace NullableSoFar

lemma nodup (h : NullableSoFar prods nullable) : nullable.Nodup := by
  refine h.increasing.imp fun {a b} hlt heq => ?_
  rw [heq, (Std.ReflCmp.compare_self : compare b b = .eq)] at hlt
  cases hlt

/-- There are never more nullable nonterminals than productions. -/
lemma length_le (h : NullableSoFar prods nullable) : nullable.length ≤ prods.length := by
  have hsub : nullable ⊆ prods.map (·.head) := fun n hn => (h.erases n hn).mem_heads
  simpa using (h.nodup.subperm hsub).length_le

lemma spread {prod : Production} (h : NullableSoFar prods nullable) (hp : prod ∈ prods) :
    NullableSoFar prods (prod.spreadNullable nullable).1 := by
  rcases prod.spreadNullable_cases nullable with ⟨heq, -⟩ | ⟨heq, -, hnull⟩
  · rw [heq]
    exact h
  · rw [heq]
    obtain ⟨hterminal, hnonterminal⟩ := Production.isNullableIn_iff.1 hnull
    refine ⟨Ordered.increasing_insert h.increasing, fun n hn => ?_⟩
    rcases Ordered.mem_insert.1 hn with rfl | hn
    · exact .intro hp hterminal fun m hm => h.erases m (hnonterminal m hm)
    · exact h.erases n hn

end NullableSoFar

lemma length_insert {a : NonTerminal} {l : List NonTerminal} (h : a ∉ l) :
    (Ordered.insert a l).length = l.length + 1 := by
  induction l with
  | nil => rfl
  | cons b l ih =>
    obtain ⟨hne, hl⟩ := List.ne_and_not_mem_of_not_mem_cons h
    rw [Ordered.insert]
    split
    · rfl
    · next heq => exact absurd (Std.LawfulEqOrd.eq_of_compare heq) hne
    · simp [ih hl]

lemma length_spreadNullable (nullable : List NonTerminal) (prod : Production) :
    nullable.length ≤ (prod.spreadNullable nullable).1.length ∧
      ((prod.spreadNullable nullable).2 = .changed →
        nullable.length < (prod.spreadNullable nullable).1.length) := by
  rcases prod.spreadNullable_cases nullable with ⟨heq, -⟩ | ⟨heq, hnew, -⟩
  · simp [heq]
  · simp [heq, length_insert hnew]

lemma spreadNullable_unchanged {prod : Production}
    (h : (prod.spreadNullable nullable).2 = .unchanged) :
    (prod.spreadNullable nullable).1 = nullable ∧
      (prod.isNullableIn nullable = true → prod.head ∈ nullable) := by
  rcases prod.spreadNullable_cases nullable with ⟨heq, hclosed⟩ | ⟨heq, -, -⟩
  · exact ⟨by rw [heq], hclosed⟩
  · rw [heq] at h
    cases h

/-- The nullable set lists nonterminals that derive the empty input, and no production can add
another. -/
lemma nullableSet_spec (prods : List Production) :
    NullableSoFar prods (nullableSet prods) ∧
      ∀ prod ∈ prods, prod.isNullableIn (nullableSet prods) = true →
        prod.head ∈ nullableSet prods := by
  have hsame (s : List NonTerminal) (prod : Production)
      (h : (prod.spreadNullable s).2 = .unchanged) : (prod.spreadNullable s).1 = s :=
    (spreadNullable_unchanged h).1
  have hgrow := Change.size_sweep (fun s prod => (length_spreadNullable s prod).1)
    (fun s prod => (length_spreadNullable s prod).2) prods
  have hempty : NullableSoFar prods [] := ⟨List.Pairwise.nil, by simp⟩
  obtain ⟨hspec, hlast⟩ := Change.settle_spec
    (fun s hs => Change.sweep_induction (fun _ _ hp h => NullableSoFar.spread h hp) hs)
    (fun s h => (Change.visit_of_sweep hsame h).1) (fun s => (hgrow s).2)
    (fun _ => NullableSoFar.length_le) hempty (Nat.lt_succ_self prods.length)
  refine ⟨hspec, fun prod hp => ?_⟩
  exact (spreadNullable_unchanged ((Change.visit_of_sweep hsame hlast).2 prod hp)).2

/-- The nullable set holds the nonterminals that derive the empty input. -/
theorem mem_nullableSet_iff : n ∈ nullableSet prods ↔ Erases prods n := by
  obtain ⟨hsound, hclosed⟩ := nullableSet_spec prods
  constructor
  · exact hsound.erases n
  · intro h
    induction h with
    | intro hp ht _ ih => exact hclosed _ hp (Production.isNullableIn_iff.2 ⟨ht, ih⟩)

lemma Grammar.isNullable_nonterminal_iff {G : Grammar} :
    G.isNullable (.nonterminal n) = true ↔ Erases G.prods n := by
  rw [← mem_nullableSet_iff, Grammar.isNullable, List.contains_iff_mem, Grammar.nullable]

end ParseForest
