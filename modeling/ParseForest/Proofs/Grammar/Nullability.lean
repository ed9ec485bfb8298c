import ParseForest.Proofs.Grammar.Erasing
import ParseForest.Proofs.FlowGraph.Language
import Mathlib.Data.List.Sort

/-!
# The search for nullable nonterminals

The search repeats its pass for as long as a pass adds a nonterminal. `Change.Settles` says what such
a loop comes to, and after how many passes, without a bound on their number. The main statement,
`nullableSet_exact`, says that the search ends, that it finds the nonterminals from which rewriting
derives the empty word, and that the order of the productions does not matter.
-/

namespace ParseForest

universe v

/-! ### Loops -/

namespace Change

variable {σ : Type v}

/-- A loop that repeats a pass until one reports no change comes from a state to another, after some
passes. -/
inductive Settles (pass : σ → σ × Change) : σ → σ → Nat → Prop where
  | last {s s' : σ} (h : pass s = (s', unchanged)) : Settles pass s s' 1
  | again {s s' s'' : σ} {n : Nat} (h : pass s = (s', changed)) (hr : Settles pass s' s'' n) :
      Settles pass s s'' (n + 1)

variable {pass : σ → σ × Change} {p : σ → Prop} {size : σ → Nat} {limit n bound : Nat} {s s' : σ}

/-- A bound that the loop does not reach makes no difference. -/
lemma Settles.settle_eq (h : Settles pass s s' n) (hbound : n ≤ bound) :
    settle pass bound s = s' := by
  induction h generalizing bound with
  | last h =>
    obtain ⟨bound, rfl⟩ := Nat.exists_eq_add_of_le' hbound
    simp only [settle_succ, h]
  | again h _ ih =>
    obtain ⟨bound, rfl⟩ := Nat.exists_eq_add_of_le' (Nat.le_trans (Nat.le_add_left 1 _) hbound)
    simp only [settle_succ, h]
    exact ih (Nat.le_of_succ_le_succ hbound)

/-- A loop whose passes let a bounded size grow ends, and all its passes but the last do so. -/
lemma exists_settles (hkeep : ∀ s, p s → p (pass s).1) (hle : ∀ s, size s ≤ size (pass s).1)
    (hgrow : ∀ s, (pass s).2 = changed → size s < size (pass s).1)
    (hlimit : ∀ s, p s → size s ≤ limit) (hs : p s) :
    ∃ s' n, Settles pass s s' n ∧ p s' ∧ n + size s ≤ size s' + 1 := by
  induction hm : limit - size s using Nat.strongRecOn generalizing s with
  | _ m ih =>
    subst hm
    have hnext := hkeep s hs
    cases hc : (pass s).2 with
    | unchanged =>
      refine ⟨(pass s).1, 1, .last (Prod.ext rfl hc), hnext, ?_⟩
      have := hle s
      omega
    | changed =>
      have hlt := hgrow s hc
      have hroom := hlimit _ hnext
      obtain ⟨s', n, hsettles, hp, hn⟩ := ih (limit - size (pass s).1) (by omega) hnext rfl
      refine ⟨s', n + 1, .again (Prod.ext rfl hc) hsettles, hp, ?_⟩
      omega

end Change

/-! ### Rewriting to the empty word -/

variable {G : Grammar} {prods prods' : List Production} {n : NonTerminal} {s : List Symbol}

/-- Symbols that generate the empty word are nonterminals that derive nothing. -/
lemma Grammar.Generates.erases {w : List Terminal} (h : G.Generates s w) (hw : w = []) :
    ∀ a ∈ s, ∃ n, a = .nonterminal n ∧ Erases G.prods n := by
  induction h with
  | nil => simp
  | terminal => cases hw
  | @nonterminal prod s u w hp _ _ ihb ih =>
    obtain ⟨hu, hw⟩ := List.append_eq_nil_iff.1 hw
    refine List.forall_mem_cons.2 ⟨⟨_, rfl, .intro hp (fun t ht => ?_) fun m hm => ?_⟩, ih hw⟩
    · obtain ⟨m, heq, -⟩ := ihb hu _ ht
      cases heq
    · obtain ⟨m', heq, hm'⟩ := ihb hu _ hm
      cases heq
      exact hm'

/-- Symbols generate the empty word if each of them does. -/
lemma Grammar.generates_nil (h : ∀ a ∈ s, G.Generates [a] []) : G.Generates s [] := by
  induction s with
  | nil => exact .nil
  | cons a s ih =>
    obtain ⟨ha, hs⟩ := List.forall_mem_cons.1 h
    exact Grammar.generates_append_iff.2 ⟨[], [], rfl, ha, ih hs⟩

lemma Erases.generates (h : Erases G.prods n) : G.Generates [.nonterminal n] [] := by
  induction h with
  | @intro prod hp ht _ ih =>
    have hbody : G.Generates prod.body [] := Grammar.generates_nil fun a ha => by
      cases a with
      | terminal t => exact absurd ha (ht t)
      | nonterminal m => exact ih m ha
    exact .nonterminal hp hbody .nil

/-- The nonterminals that derive nothing are those from which rewriting derives the empty word. -/
theorem nil_mem_language_iff_erases :
    [] ∈ (G.contextFree n).language ↔ Erases G.prods n := by
  rw [Grammar.mem_language_iff_generates]
  constructor
  · intro h
    obtain ⟨m, heq, hm⟩ := h.erases rfl (.nonterminal n) List.mem_cons_self
    cases heq
    exact hm
  · exact Erases.generates

/-! ### The search -/

lemma Erases.mono (hsub : prods ⊆ prods') (h : Erases prods n) : Erases prods' n := by
  induction h with
  | intro hp ht _ ih => exact .intro (hsub hp) ht ih

/-- The nullable set depends only on which productions there are. -/
lemma nullableSet_congr (h : ∀ prod, prod ∈ prods ↔ prod ∈ prods') :
    nullableSet prods = nullableSet prods' := by
  apply (nullableSet_spec prods).1.increasing.eq_of_mem_iff (nullableSet_spec prods').1.increasing
  intro n
  rw [mem_nullableSet_iff, mem_nullableSet_iff]
  constructor
  · exact Erases.mono fun prod => (h prod).1
  · exact Erases.mono fun prod => (h prod).2

/-- There are no more nullable nonterminals than nonterminals with a production. -/
lemma NullableSoFar.length_le_dedup {nullable : List NonTerminal}
    (h : NullableSoFar prods nullable) :
    nullable.length ≤ (prods.map (·.head)).dedup.length :=
  (h.nodup.subperm fun n hn => List.mem_dedup.2 (h.erases n hn).mem_heads).length_le

/-- The search for the nullable set ends, after no more passes than there are nonterminals with a
production, and one. -/
lemma settles_nullableSet (prods : List Production) :
    ∃ passes, Change.Settles (fun s => Change.sweep Production.spreadNullable s prods) []
      (nullableSet prods) passes ∧ passes ≤ (prods.map (·.head)).dedup.length + 1 := by
  have hgrow := Change.size_sweep (fun s prod => (length_spreadNullable s prod).1)
    (fun s prod => (length_spreadNullable s prod).2) prods
  have hempty : NullableSoFar prods [] := ⟨List.Pairwise.nil, by simp⟩
  obtain ⟨s', passes, hsettles, hs', hpasses⟩ := Change.exists_settles
    (fun s hs => Change.sweep_induction (fun _ _ hp h => NullableSoFar.spread h hp) hs)
    (fun s => (hgrow s).1) (fun s => (hgrow s).2) (fun _ => NullableSoFar.length_le) hempty
  have hbound : passes ≤ prods.length + 1 := by
    have := hs'.length_le
    rw [List.length_nil] at hpasses
    omega
  obtain rfl : nullableSet prods = s' := hsettles.settle_eq hbound
  refine ⟨passes, hsettles, ?_⟩
  have := hs'.length_le_dedup
  rw [List.length_nil] at hpasses
  omega

/-- The nullable set of any productions holds exactly the nonterminals from which rewriting by them
derives the empty word. The loop that computes it ends, after at most one pass more than there are
nonterminals with a production, and in whichever order the productions are listed, it is the same
set. -/
theorem nullableSet_exact (prods : List Production) :
    (∀ n, n ∈ nullableSet prods ↔
      [] ∈ (Grammar.contextFree ⟨n, prods.map (·.head), prods⟩ n).language) ∧
    (∃ passes, Change.Settles (fun s => Change.sweep Production.spreadNullable s prods) []
      (nullableSet prods) passes ∧ passes ≤ (prods.map (·.head)).dedup.length + 1) ∧
    ∀ prods', prods.Perm prods' → nullableSet prods' = nullableSet prods := by
  refine ⟨fun n => ?_, settles_nullableSet prods, fun prods' hperm => ?_⟩
  · rw [mem_nullableSet_iff, nil_mem_language_iff_erases]
  · exact nullableSet_congr fun prod => hperm.symm.mem_iff

end ParseForest
