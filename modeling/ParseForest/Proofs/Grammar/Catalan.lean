import ParseForest.Proofs.Forest.Counting
import ParseForest.Proofs.Grammar.Bodies
import Mathlib.Algebra.BigOperators.Fin
import Mathlib.Combinatorics.Enumerative.Catalan.Basic

/-!
# Catalan numbers

Where nothing tells at which place a phrase is to be split in two, its derivations are the binary
trees over its operands, and these are counted by the Catalan numbers. So it is with tokens that are
only put next to each other, as in `Samples.binaryConcat`, and with operands between operators
without precedence, as in `Samples.ambiguousExpression`, `count_eq_catalan`.
-/

namespace ParseForest

open Samples

/-! ### Splitting in two at every place -/

section Splitting

variable {α : Type} {D : Nat → Nat → Set α} {f : Nat → Nat → Nat → α → α → α} {n : Nat}

/-- If what there is over a range of operands is made of two parts, in one way for each place to
split the range, it is counted by a Catalan number. -/
theorem encard_eq_catalan (hsingle : ∀ a, a + 1 ≤ n → (D a (a + 1)).encard = 1)
    (hjoin : ∀ a b t, a + 1 < b → b ≤ n → (t ∈ D a b ↔
      ∃ mid, a < mid ∧ mid < b ∧ ∃ s ∈ D a mid, ∃ s' ∈ D mid b, f a mid b s s' = t))
    (hinj : ∀ a b mid mid' s s' r r', s ∈ D a mid → s' ∈ D mid b → r ∈ D a mid' → r' ∈ D mid' b →
      f a mid b s s' = f a mid' b r r' → mid = mid' ∧ s = r ∧ s' = r')
    {k a : Nat} (h : a + k + 1 ≤ n) : (D a (a + k + 1)).encard = catalan k := by
  induction k using Nat.strongRecOn generalizing a with
  | ind k ih =>
    cases k with
    | zero => simpa using hsingle a h
    | succ k =>
      generalize hb : a + (k + 1) + 1 = b at h ⊢
      -- The left part has at least one operand and leaves at least one to the right part.
      have hsplit : D a b = {t | ∃ i ∈ List.finRange (k + 1),
          ∃ s ∈ D a (a + i + 1), ∃ s' ∈ D (a + i + 1) b, f a (a + i + 1) b s s' = t} := by
        ext t
        rw [hjoin a b t (by omega) h]
        constructor
        · rintro ⟨mid, hlo, hhi, hparts⟩
          obtain ⟨i, rfl⟩ := Nat.exists_eq_add_of_lt hlo
          exact ⟨⟨i, by omega⟩, List.mem_finRange _, hparts⟩
        · rintro ⟨i, -, hparts⟩
          exact ⟨a + i + 1, by omega, by omega, hparts⟩
      have hparts : ∀ i ∈ List.finRange (k + 1),
          {t | ∃ s ∈ D a (a + i + 1), ∃ s' ∈ D (a + i + 1) b,
            f a (a + i + 1) b s s' = t}.encard = (catalan i * catalan (k - i) : Nat) := by
        intro i _
        have hright : b = a + i + 1 + (k - i) + 1 := by omega
        rw [encard_combine fun s hs s' hs' r hr r' hr' heq =>
            (hinj _ _ _ _ _ _ _ _ hs hs' hr hr' heq).2,
          ih i (by omega) (by omega), hright, ih (k - i) (by omega) (by omega), Nat.cast_mul]
      rw [hsplit, encard_exists_mem (List.nodup_finRange _) hparts, catalan_succ, Fin.sum_univ_def]
      rintro i - j - t ⟨s, hs, s', hs', rfl⟩ ⟨r, hr, r', hr', heq⟩
      have := (hinj _ _ _ _ _ _ _ _ hs hs' hr hr' heq.symm).1
      omega

end Splitting

variable {w : List Token} {lo hi : Nat} {t : Tree}

/-! ### Concatenation -/

lemma unconstrained_binaryConcat : binaryConcat.Unconstrained := by decide

lemma derives_binaryConcat_lt (h : binaryConcat.Derives w ⟨"S"⟩ lo hi t) : lo < hi :=
  Spans.lt_of_body_ne_nil (by decide) h (by simp)

/-- A phrase is a token, or two phrases next to each other. -/
lemma derives_binaryConcat_iff :
    binaryConcat.Derives w ⟨"S"⟩ lo hi t ↔
      (∃ u, w[lo]? = some u ∧ u.kind = ⟨"a"⟩ ∧ hi = lo + 1 ∧
        t = .node ⟨"S"⟩ 1 lo hi [.token lo u]) ∨
      ∃ mid s s', binaryConcat.Derives w ⟨"S"⟩ lo mid s ∧ binaryConcat.Derives w ⟨"S"⟩ mid hi s' ∧
        t = .node ⟨"S"⟩ 0 lo hi [s, s'] := by
  have hprods : binaryConcat.prods =
      [⟨⟨"S"⟩, [nt "S", nt "S"], none⟩, ⟨⟨"S"⟩, [tm "a"], none⟩] := rfl
  rw [derives_iff_body unconstrained_binaryConcat, hprods]
  constructor
  · rintro ⟨p, prod, ts, hp, -, hts, rfl⟩
    match p, hp with
    | 0, hp =>
      obtain rfl := Option.some.inj hp
      obtain ⟨mid, s, us, hs, rfl, hus⟩ := derivesAll_nonterminal_iff.1 hts
      obtain ⟨s', hs', rfl⟩ := derivesAll_phrase_iff.1 hus
      exact Or.inr ⟨mid, s, s', hs, hs', rfl⟩
    | 1, hp =>
      obtain rfl := Option.some.inj hp
      obtain ⟨u, hu, hk, rfl, rfl⟩ := derivesAll_token_iff.1 hts
      exact Or.inl ⟨u, hu, hk, rfl, rfl⟩
  · rintro (⟨u, hu, hk, rfl, rfl⟩ | ⟨mid, s, s', hs, hs', rfl⟩)
    · exact ⟨1, _, _, rfl, rfl, derivesAll_token_iff.2 ⟨u, hu, hk, rfl, rfl⟩, rfl⟩
    · exact ⟨0, _, _, rfl, rfl, derivesAll_nonterminal_iff.2
        ⟨mid, s, _, hs, rfl, derivesAll_phrase_iff.2 ⟨s', hs', rfl⟩⟩, rfl⟩

/-- The phrases of tokens `a` are the binary trees over the tokens. -/
lemma encard_derives_binaryConcat (hw : ∀ u ∈ w, u.kind = ⟨"a"⟩) {k : Nat} (hk : w.length = k + 1) :
    {t | binaryConcat.Derives w ⟨"S"⟩ 0 w.length t}.encard = catalan k := by
  have hcount := encard_eq_catalan (n := w.length) (k := k) (a := 0)
    (D := fun lo hi => {t | binaryConcat.Derives w ⟨"S"⟩ lo hi t})
    (f := fun lo _ hi s s' => .node ⟨"S"⟩ 0 lo hi [s, s']) ?_ ?_ ?_ (by omega)
  · rwa [Nat.zero_add, ← hk] at hcount
  · intro lo hlo
    refine Set.encard_eq_one.2 ⟨.node ⟨"S"⟩ 1 lo (lo + 1) [.token lo w[lo]], ?_⟩
    ext t
    have hu : w[lo]? = some w[lo] := List.getElem?_eq_getElem hlo
    rw [Set.mem_ofPred_eq, Set.mem_singleton_iff, derives_binaryConcat_iff]
    constructor
    · rintro (⟨u, hu', -, -, rfl⟩ | ⟨mid, s, s', hs, hs', -⟩)
      · rw [Option.some.inj (hu.symm.trans hu')]
      · have := derives_binaryConcat_lt hs
        have := derives_binaryConcat_lt hs'
        omega
    · rintro rfl
      exact Or.inl ⟨_, hu, hw _ (List.getElem_mem _), rfl, rfl⟩
  · intro lo hi t hlt hhi
    rw [Set.mem_ofPred_eq, derives_binaryConcat_iff]
    constructor
    · rintro (⟨u, -, -, rfl, -⟩ | ⟨mid, s, s', hs, hs', rfl⟩)
      · omega
      · exact ⟨mid, derives_binaryConcat_lt hs, derives_binaryConcat_lt hs', s, hs, s', hs', rfl⟩
    · rintro ⟨mid, -, -, s, hs, s', hs', rfl⟩
      exact Or.inr ⟨mid, s, s', hs, hs', rfl⟩
  · intro lo hi mid mid' s s' r r' hs hs' hr hr' heq
    simp only [Tree.node.injEq, List.cons.injEq, and_true, true_and] at heq
    obtain ⟨rfl, rfl⟩ := heq
    exact ⟨(derives_lo_eq hs').symm.trans (derives_lo_eq hr'), rfl, rfl⟩

/-! ### Operations -/

/-- Operands and operators alternate, beginning with an operand. -/
def Alternates (w : List Token) : Prop :=
  ∀ i u, w[i]? = some u →
    if i % 2 = 0 then u.kind = ⟨"integer"⟩ else u.kind = ⟨"+"⟩ ∨ u.kind = ⟨"*"⟩

lemma Alternates.operand (hw : Alternates w) {a : Nat} {u : Token} (hu : w[2 * a]? = some u) :
    u.kind = ⟨"integer"⟩ := by
  simpa using hw _ u hu

lemma Alternates.operator (hw : Alternates w) {a : Nat} {u : Token}
    (hu : w[2 * a + 1]? = some u) : u.kind = ⟨"+"⟩ ∨ u.kind = ⟨"*"⟩ := by
  simpa [Nat.add_mod] using hw _ u hu

lemma Alternates.exists_of_operator (hw : Alternates w) {i : Nat} {u : Token}
    (hu : w[i]? = some u) (hk : u.kind = ⟨"+"⟩ ∨ u.kind = ⟨"*"⟩) : ∃ a, i = 2 * a + 1 := by
  obtain ⟨a, rfl | rfl⟩ : ∃ a, i = 2 * a ∨ i = 2 * a + 1 := ⟨i / 2, by omega⟩
  · rw [hw.operand hu] at hk
    exact absurd hk (by decide)
  · exact ⟨a, rfl⟩

lemma getD_operator {a : Nat} {u : Token} (hu : w[2 * a + 1]? = some u) :
    w.getD (2 * (a + 1) - 1) default = u := by
  rw [List.getD_eq_getElem?_getD, show 2 * (a + 1) - 1 = 2 * a + 1 from rfl, hu, Option.getD_some]

/-- The production of an operator. -/
def operation (k : Terminal) : Nat :=
  if k = ⟨"+"⟩ then 0 else 1

lemma unconstrained_ambiguousExpression : ambiguousExpression.Unconstrained := by decide

lemma derives_ambiguousExpression_lt (h : ambiguousExpression.Derives w ⟨"S"⟩ lo hi t) : lo < hi :=
  Spans.lt_of_body_ne_nil (by decide) h (by simp)

lemma prods_ambiguousExpression : ambiguousExpression.prods =
    [⟨⟨"S"⟩, [nt "S", tm "+", nt "S"], none⟩, ⟨⟨"S"⟩, [nt "S", tm "*", nt "S"], none⟩,
      ⟨⟨"S"⟩, [nt "L"], none⟩, ⟨⟨"L"⟩, [tm "integer"], none⟩] := rfl

lemma derives_operand_iff :
    ambiguousExpression.Derives w ⟨"L"⟩ lo hi t ↔ ∃ u, w[lo]? = some u ∧ u.kind = ⟨"integer"⟩ ∧
      hi = lo + 1 ∧ t = .node ⟨"L"⟩ 3 lo hi [.token lo u] := by
  rw [derives_iff_body unconstrained_ambiguousExpression, prods_ambiguousExpression]
  constructor
  · rintro ⟨p, prod, ts, hp, hhead, hts, rfl⟩
    match p, hp with
    | 0, hp | 1, hp | 2, hp =>
      obtain rfl := Option.some.inj hp
      exact absurd hhead (by decide)
    | 3, hp =>
      obtain rfl := Option.some.inj hp
      obtain ⟨u, hu, hk, rfl, rfl⟩ := derivesAll_token_iff.1 hts
      exact ⟨u, hu, hk, rfl, rfl⟩
  · rintro ⟨u, hu, hk, rfl, rfl⟩
    exact ⟨3, _, _, rfl, rfl, derivesAll_token_iff.2 ⟨u, hu, hk, rfl, rfl⟩, rfl⟩

/-- A phrase is an operand, or two phrases with an operator between them. -/
lemma derives_ambiguousExpression_iff :
    ambiguousExpression.Derives w ⟨"S"⟩ lo hi t ↔
      (∃ u, w[lo]? = some u ∧ u.kind = ⟨"integer"⟩ ∧ hi = lo + 1 ∧
        t = .node ⟨"S"⟩ 2 lo hi [.node ⟨"L"⟩ 3 lo hi [.token lo u]]) ∨
      ∃ mid u s s', ambiguousExpression.Derives w ⟨"S"⟩ lo mid s ∧ w[mid]? = some u ∧
        (u.kind = ⟨"+"⟩ ∨ u.kind = ⟨"*"⟩) ∧ ambiguousExpression.Derives w ⟨"S"⟩ (mid + 1) hi s' ∧
        t = .node ⟨"S"⟩ (operation u.kind) lo hi [s, .token mid u, s'] := by
  constructor
  · intro h
    rw [derives_iff_body unconstrained_ambiguousExpression, prods_ambiguousExpression] at h
    obtain ⟨p, prod, ts, hp, hhead, hts, rfl⟩ := h
    match p, hp with
    | 0, hp =>
      obtain rfl := Option.some.inj hp
      obtain ⟨mid, u, s, s', hs, hu, hk, hs', rfl⟩ := derivesAll_operation_iff.1 hts
      exact Or.inr ⟨mid, u, s, s', hs, hu, Or.inl hk, hs', by rw [hk]; rfl⟩
    | 1, hp =>
      obtain rfl := Option.some.inj hp
      obtain ⟨mid, u, s, s', hs, hu, hk, hs', rfl⟩ := derivesAll_operation_iff.1 hts
      exact Or.inr ⟨mid, u, s, s', hs, hu, Or.inr hk, hs', by rw [hk]; rfl⟩
    | 2, hp =>
      obtain rfl := Option.some.inj hp
      obtain ⟨s, hs, rfl⟩ := derivesAll_phrase_iff.1 hts
      obtain ⟨u, hu, hk, rfl, rfl⟩ := derives_operand_iff.1 hs
      exact Or.inl ⟨u, hu, hk, rfl, rfl⟩
    | 3, hp =>
      obtain rfl := Option.some.inj hp
      exact absurd hhead (by decide)
  · intro h
    rw [derives_iff_body unconstrained_ambiguousExpression, prods_ambiguousExpression]
    rcases h with ⟨u, hu, hk, rfl, rfl⟩ | ⟨mid, u, s, s', hs, hu, hk, hs', rfl⟩
    · exact ⟨2, _, _, rfl, rfl,
        derivesAll_phrase_iff.2 ⟨_, derives_operand_iff.2 ⟨u, hu, hk, rfl, rfl⟩, rfl⟩, rfl⟩
    · rcases hk with hk | hk
      · exact ⟨0, _, _, rfl, rfl,
          derivesAll_operation_iff.2 ⟨mid, u, s, s', hs, hu, hk, hs', rfl⟩, by rw [hk]; rfl⟩
      · exact ⟨1, _, _, rfl, rfl,
          derivesAll_operation_iff.2 ⟨mid, u, s, s', hs, hu, hk, hs', rfl⟩, by rw [hk]; rfl⟩

/-- The phrases of operands with operators between them are the binary trees over the operands. -/
lemma encard_derives_ambiguousExpression (hw : Alternates w) {k : Nat}
    (hk : w.length = 2 * k + 1) :
    {t | ambiguousExpression.Derives w ⟨"S"⟩ 0 w.length t}.encard = catalan k := by
  -- The operand with number `a` is at `2 * a`, and the operator after it at `2 * a + 1`.
  have hcount := encard_eq_catalan (n := k + 1) (k := k) (a := 0)
    (D := fun a b => {t | ambiguousExpression.Derives w ⟨"S"⟩ (2 * a) (2 * b - 1) t})
    (f := fun a mid b s s' =>
      let u := w.getD (2 * mid - 1) default
      .node ⟨"S"⟩ (operation u.kind) (2 * a) (2 * b - 1) [s, .token (2 * mid - 1) u, s'])
    ?_ ?_ ?_ (by omega)
  · have hlen : 2 * (0 + k + 1) - 1 = w.length := by omega
    rwa [hlen, Nat.mul_zero] at hcount
  · intro a ha
    obtain ⟨u, hu⟩ : ∃ u, w[2 * a]? = some u := ⟨_, List.getElem?_eq_getElem (by omega)⟩
    have hend : 2 * (a + 1) - 1 = 2 * a + 1 := by omega
    refine Set.encard_eq_one.2
      ⟨.node ⟨"S"⟩ 2 (2 * a) (2 * a + 1) [.node ⟨"L"⟩ 3 (2 * a) (2 * a + 1) [.token (2 * a) u]], ?_⟩
    ext t
    rw [Set.mem_ofPred_eq, Set.mem_singleton_iff, derives_ambiguousExpression_iff, hend]
    constructor
    · rintro (⟨u', hu', -, -, rfl⟩ | ⟨mid, u', s, s', hs, -, -, hs', -⟩)
      · rw [Option.some.inj (hu.symm.trans hu')]
      · have := derives_ambiguousExpression_lt hs
        have := derives_ambiguousExpression_lt hs'
        omega
    · rintro rfl
      exact Or.inl ⟨u, hu, hw.operand hu, rfl, rfl⟩
  · intro a b t hlt hhi
    rw [Set.mem_ofPred_eq, derives_ambiguousExpression_iff]
    constructor
    · rintro (⟨u, -, -, hend, -⟩ | ⟨i, u, s, s', hs, hu, hk, hs', rfl⟩)
      · omega
      · have := derives_ambiguousExpression_lt hs
        have := derives_ambiguousExpression_lt hs'
        obtain ⟨mid, rfl⟩ := hw.exists_of_operator hu hk
        refine ⟨mid + 1, by omega, by omega, s, hs, s', hs', ?_⟩
        rw [getD_operator hu]
        rfl
    · rintro ⟨mid, hlo, hhi', s, hs, s', hs', rfl⟩
      obtain ⟨mid, rfl⟩ := Nat.exists_eq_add_of_lt hlo
      obtain ⟨u, hu⟩ : ∃ u, w[2 * (a + mid) + 1]? = some u :=
        ⟨_, List.getElem?_eq_getElem (by omega)⟩
      rw [getD_operator hu]
      exact Or.inr ⟨_, u, s, s', hs, hu, hw.operator hu, hs', rfl⟩
  · intro a b mid mid' s s' r r' hs hs' hr hr' heq
    simp only [Tree.node.injEq, List.cons.injEq, and_true, true_and] at heq
    obtain ⟨-, rfl, -, rfl⟩ := heq
    have := (derives_lo_eq hs').symm.trans (derives_lo_eq hr')
    exact ⟨by omega, rfl, rfl⟩

/-! ### Forests -/

lemma catalan_ne_zero (k : Nat) : catalan k ≠ 0 := by
  intro hk
  have h := succ_mul_catalan_eq_centralBinom k
  rw [hk, Nat.mul_zero] at h
  exact Nat.centralBinom_ne_zero k h.symm

/-- The forest of `n` tokens that are put next to each other, and that of `n` operands with
operators between them, pack as many trees as there are binary trees with `n` leaves. -/
theorem count_eq_catalan {n : Nat} (hn : 1 ≤ n) :
    (∀ w : List Token, w.length = n → (∀ u ∈ w, u.kind = ⟨"a"⟩) →
      ∃ F, binaryConcat.parseForest w = .ok F ∧ F.count = catalan (n - 1)) ∧
    ∀ w : List Token, w.length = 2 * n - 1 → Alternates w →
      ∃ F, ambiguousExpression.parseForest w = .ok F ∧ F.count = catalan (n - 1) := by
  have hconcat :
      Grammar.build ⟨"S"⟩ [rule "S" [[nt "S", nt "S"], [tm "a"]]] = .ok binaryConcat := rfl
  have hexpression : Grammar.build ⟨"S"⟩
      [rule "S" [[nt "S", tm "+", nt "S"], [nt "S", tm "*", nt "S"], [nt "L"]],
        rule "L" [[tm "integer"]]] = .ok ambiguousExpression := rfl
  refine ⟨fun w hlen hw => ?_, fun w hlen hw => ?_⟩
  · exact Grammar.exists_count (Grammar.closed_of_build hconcat) (catalan_ne_zero _)
      (encard_derives_binaryConcat hw (by omega))
  · exact Grammar.exists_count (Grammar.closed_of_build hexpression) (catalan_ne_zero _)
      (encard_derives_ambiguousExpression hw (by omega))

/-- Three tokens next to each other have two trees, and so have three operands. -/
theorem count_eq_catalan_three :
    1 ≤ 3 ∧
      (∃ F, binaryConcat.parseForest (["a", "a", "a"].map Token.plain) = .ok F ∧ F.count = 2) ∧
      ∃ F, ambiguousExpression.parseForest
        (["integer", "+", "integer", "*", "integer"].map Token.plain) = .ok F ∧ F.count = 2 := by
  obtain ⟨hconcat, hexpression⟩ := count_eq_catalan (n := 3) (by decide)
  rw [show 3 - 1 = 2 from rfl, catalan_two] at hconcat hexpression
  refine ⟨by decide, hconcat _ rfl (by decide), hexpression _ rfl fun i u hu => ?_⟩
  match i, hu with
  | 0, hu | 1, hu | 2, hu | 3, hu | 4, hu =>
    obtain rfl := Option.some.inj hu
    decide

example : (binaryConcat.parseForest (["a", "a", "a", "a"].map Token.plain)).toOption.map
    Forest.count = some 5 := by
  decide +kernel

end ParseForest
