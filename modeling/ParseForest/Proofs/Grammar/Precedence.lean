import ParseForest.Proofs.Forest.Constituents
import ParseForest.Proofs.Tree.Unambiguous

/-!
# Precedence

In `Samples.expression` a product is made of factors and a sum of products, so an operator stands
outside of everything that binds tighter, and only parentheses hide it. How many parentheses are open
therefore tells the operator at which a phrase is to be split: it is the last one that is not nested
deeper than the phrase. So nothing is ambiguous, and the tree of an input shows `*` to bind tighter
than `+` and both to associate to the left, `expression_precedence`.
-/

namespace ParseForest

open Samples

variable {w : List Token} {lo mid hi p i : Nat} {s s' t t' : Tree} {u : Token} {k : Terminal}

/-! ### Operators in trees -/

/-- The tree is an expression between parentheses. -/
def Tree.IsParenthesized : Tree → Prop
  | .node n _ _ _ [.token _ u, .node m _ _ _ _, .token _ v] =>
    n = ⟨"T"⟩ ∧ m = ⟨"S"⟩ ∧ u.kind = ⟨"("⟩ ∧ v.kind = ⟨")"⟩
  | _ => False

/-- A token of the kind stands in the tree, and not inside of parentheses. -/
inductive Tree.Exposes (k : Terminal) : Tree → Prop where
  | token {i : Nat} {u : Token} (hk : u.kind = k) : Exposes k (.token i u)
  | node {n : NonTerminal} {p lo hi : Nat} {children : List Tree} {t : Tree}
      (hno : ¬ (Tree.node n p lo hi children).IsParenthesized) (ht : t ∈ children)
      (h : Exposes k t) : Exposes k (.node n p lo hi children)

@[simp]
lemma Tree.exposes_token_iff : (Tree.token i u).Exposes k ↔ u.kind = k := by
  constructor
  · rintro ⟨hk⟩
    exact hk
  · exact .token

lemma Tree.exposes_node_iff {n : NonTerminal} {children : List Tree} :
    (Tree.node n p lo hi children).Exposes k ↔
      ¬ (Tree.node n p lo hi children).IsParenthesized ∧ ∃ t ∈ children, t.Exposes k := by
  constructor
  · intro h
    cases h with
    | node hno ht h => exact ⟨hno, _, ht, h⟩
  · rintro ⟨hno, t, ht, h⟩
    exact .node hno ht h

/-! ### Expressions -/

/-- How tightly an expression binds. -/
inductive Tier where
  | sum
  | product
  | factor

namespace Tier

def symbol : Tier → NonTerminal
  | sum => ⟨"S"⟩
  | product => ⟨"M"⟩
  | factor => ⟨"T"⟩

lemma symbol_injective : symbol.Injective := by
  intro x y h
  cases x <;> cases y <;> first | rfl | exact absurd h (by decide)

/-- Expressions of the first tier are chains of expressions of the second, joined by the operator:
the production joins one more to a chain, and the next production begins a chain. -/
inductive Chains : Tier → Tier → Terminal → Nat → Prop where
  | sum : Chains sum product ⟨"+"⟩ 1
  | product : Chains product factor ⟨"*"⟩ 3

/-- The operators that stand in an expression of the tier between parentheses only. -/
def Hides : Tier → Terminal → Prop
  | sum, _ => False
  | product, k => k = ⟨"+"⟩
  | factor, k => k = ⟨"+"⟩ ∨ k = ⟨"*"⟩

variable {x y : Tier}

lemma Chains.unique {y' : Tier} {k' : Terminal} {p' : Nat} (hc : x.Chains y k p)
    (hc' : x.Chains y' k' p') : y = y' ∧ k = k' ∧ p = p' := by
  cases hc <;> cases hc' <;> exact ⟨rfl, rfl, rfl⟩

lemma Chains.hides (hc : x.Chains y k p) : y.Hides k := by
  cases hc with
  | sum => rfl
  | product => exact Or.inr rfl

lemma Chains.hides_of_hides {k' : Terminal} (hc : x.Chains y k p) (h : x.Hides k') :
    y.Hides k' ∧ k ≠ k' := by
  cases hc with
  | sum => exact h.elim
  | product =>
    obtain rfl : k' = ⟨"+"⟩ := h
    exact ⟨Or.inl rfl, by decide⟩

lemma Hides.cases (h : x.Hides k) : k = ⟨"+"⟩ ∨ k = ⟨"*"⟩ := by
  cases x with
  | sum => exact h.elim
  | product => exact Or.inl h
  | factor => exact h

end Tier

/-- The expressions of the grammar, as trees over the input. -/
inductive Expression (w : List Token) : Tier → (lo hi : Nat) → Tree → Prop where
  | integer {lo : Nat} {u : Token} (hu : w[lo]? = some u) (hk : u.kind = ⟨"integer"⟩) :
      Expression w .factor lo (lo + 1) (.node ⟨"T"⟩ 5 lo (lo + 1) [.token lo u])
  | parens {lo mid : Nat} {u v : Token} {t : Tree} (hu : w[lo]? = some u) (huk : u.kind = ⟨"("⟩)
      (h : Expression w .sum (lo + 1) mid t) (hv : w[mid]? = some v) (hvk : v.kind = ⟨")"⟩) :
      Expression w .factor lo (mid + 1)
        (.node ⟨"T"⟩ 6 lo (mid + 1) [.token lo u, t, .token mid v])
  | join {x y : Tier} {k : Terminal} {p lo mid hi : Nat} {t t' : Tree} {u : Token}
      (hc : x.Chains y k p) (h : Expression w x lo mid t) (hu : w[mid]? = some u) (hk : u.kind = k)
      (h' : Expression w y (mid + 1) hi t') :
      Expression w x lo hi (.node x.symbol p lo hi [t, .token mid u, t'])
  | alone {x y : Tier} {k : Terminal} {p lo hi : Nat} {t : Tree} (hc : x.Chains y k p)
      (h : Expression w y lo hi t) : Expression w x lo hi (.node x.symbol (p + 1) lo hi [t])

lemma prods_expression : expression.prods =
    [⟨⟨"P"⟩, [nt "S"], none⟩, ⟨⟨"S"⟩, [nt "S", tm "+", nt "M"], none⟩, ⟨⟨"S"⟩, [nt "M"], none⟩,
      ⟨⟨"M"⟩, [nt "M", tm "*", nt "T"], none⟩, ⟨⟨"M"⟩, [nt "T"], none⟩,
      ⟨⟨"T"⟩, [tm "integer"], none⟩, ⟨⟨"T"⟩, [tm "(", nt "S", tm ")"], none⟩] := rfl

lemma unconstrained_expression : expression.Unconstrained := by decide

/-- The sums, products and factors that are derived are expressions. -/
lemma expression_of_derives {x : Tier} (h : expression.Derives w x.symbol lo hi t) :
    Expression w x lo hi t := by
  induction hd : t.depth using Nat.strongRecOn generalizing x lo hi t with
  | ind d ih =>
    subst hd
    obtain ⟨p, prod, ts, hp, hhead, hts, rfl⟩ := (derives_iff_body unconstrained_expression).1 h
    replace ih {x : Tier} {lo' hi' : Nat} {t : Tree} (ht : t ∈ ts)
        (h : expression.Derives w x.symbol lo' hi' t) : Expression w x lo' hi' t :=
      ih _ (Tree.depth_lt_of_mem (Tree.mem_childrenOf ht)) h rfl
    rw [prods_expression] at hp
    match p, hp with
    | 0, hp =>
      obtain rfl := Option.some.inj hp
      cases x <;> simp [Tier.symbol] at hhead
    | 1, hp =>
      obtain rfl := Option.some.inj hp
      obtain rfl : x = .sum := Tier.symbol_injective hhead.symm
      obtain ⟨mid, u, t, t', ht, hu, hk, ht', rfl⟩ := derivesAll_operation_iff.1 hts
      exact .join .sum (ih (by simp) ht) hu hk (ih (x := .product) (by simp) ht')
    | 2, hp =>
      obtain rfl := Option.some.inj hp
      obtain rfl : x = .sum := Tier.symbol_injective hhead.symm
      obtain ⟨t, ht, rfl⟩ := derivesAll_phrase_iff.1 hts
      exact .alone .sum (ih (x := .product) (by simp) ht)
    | 3, hp =>
      obtain rfl := Option.some.inj hp
      obtain rfl : x = .product := Tier.symbol_injective hhead.symm
      obtain ⟨mid, u, t, t', ht, hu, hk, ht', rfl⟩ := derivesAll_operation_iff.1 hts
      exact .join .product (ih (by simp) ht) hu hk (ih (x := .factor) (by simp) ht')
    | 4, hp =>
      obtain rfl := Option.some.inj hp
      obtain rfl : x = .product := Tier.symbol_injective hhead.symm
      obtain ⟨t, ht, rfl⟩ := derivesAll_phrase_iff.1 hts
      exact .alone .product (ih (x := .factor) (by simp) ht)
    | 5, hp =>
      obtain rfl := Option.some.inj hp
      obtain rfl : x = .factor := Tier.symbol_injective hhead.symm
      obtain ⟨u, hu, hk, rfl, rfl⟩ := derivesAll_token_iff.1 hts
      exact .integer hu hk
    | 6, hp =>
      obtain rfl := Option.some.inj hp
      obtain rfl : x = .factor := Tier.symbol_injective hhead.symm
      obtain ⟨u, us, hu, huk, rfl, hus⟩ := derivesAll_terminal_iff.1 hts
      obtain ⟨mid, t, vs, ht, rfl, hvs⟩ := derivesAll_nonterminal_iff.1 hus
      obtain ⟨v, hv, hvk, rfl, rfl⟩ := derivesAll_token_iff.1 hvs
      exact .parens hu huk (ih (x := .sum) (by simp) ht) hv hvk

/-- The tree of an input is a sum below the start symbol. -/
lemma expression_of_derives_start (h : expression.Derives w ⟨"P"⟩ lo hi t) :
    ∃ s, Expression w .sum lo hi s ∧ t = .node ⟨"P"⟩ 0 lo hi [s] := by
  obtain ⟨p, prod, ts, hp, hhead, hts, rfl⟩ := (derives_iff_body unconstrained_expression).1 h
  rw [prods_expression] at hp
  match p, hp with
  | 0, hp =>
    obtain rfl := Option.some.inj hp
    obtain ⟨s, hs, rfl⟩ := derivesAll_phrase_iff.1 hts
    exact ⟨s, expression_of_derives (x := .sum) hs, rfl⟩
  | 1, hp | 2, hp | 3, hp | 4, hp | 5, hp | 6, hp =>
    obtain rfl := Option.some.inj hp
    exact absurd hhead (by decide)

/-! ### Open parentheses -/

/-- How many parentheses are open before a token. -/
def nesting (w : List Token) (i : Nat) : Int :=
  (w.take i).countP (·.kind = ⟨"("⟩) - (w.take i).countP (·.kind = ⟨")"⟩)

lemma nesting_succ (hu : w[i]? = some u) :
    nesting w (i + 1) = nesting w i + (if u.kind = ⟨"("⟩ then 1 else 0) -
      (if u.kind = ⟨")"⟩ then 1 else 0) := by
  simp only [nesting, List.take_add_one, hu, Option.toList_some, List.countP_append,
    List.countP_singleton, decide_eq_true_eq]
  split <;> split <;> omega

lemma nesting_operator {x y : Tier} (hc : x.Chains y k p) (hu : w[i]? = some u)
    (hk : u.kind = k) : nesting w (i + 1) = nesting w i := by
  rw [nesting_succ hu, hk]
  cases hc <;> simp

namespace Expression

variable {x : Tier}

/-- An expression closes the parentheses that it opens, and no others. -/
lemma balanced (h : Expression w x lo hi t) :
    lo < hi ∧ nesting w hi = nesting w lo ∧ ∀ i, lo ≤ i → i ≤ hi → nesting w lo ≤ nesting w i := by
  induction h with
  | @integer lo u hu hk =>
    have hstep : nesting w (lo + 1) = nesting w lo := by simp [nesting_succ hu, hk]
    refine ⟨Nat.lt_succ_self lo, hstep, fun i hlo hhi => ?_⟩
    obtain rfl | rfl : i = lo ∨ i = lo + 1 := by omega
    · exact Int.le_refl _
    · exact Int.le_of_eq hstep.symm
  | @parens lo mid u v t hu huk h hv hvk ih =>
    have hopen : nesting w (lo + 1) = nesting w lo + 1 := by simp [nesting_succ hu, huk]
    have hclose : nesting w (mid + 1) = nesting w mid - 1 := by simp [nesting_succ hv, hvk]
    obtain ⟨hlt, heq, hge⟩ := ih
    refine ⟨by omega, by omega, fun i hlo hhi => ?_⟩
    obtain rfl | rfl | ⟨hlo, hhi⟩ : i = lo ∨ i = mid + 1 ∨ lo + 1 ≤ i ∧ i ≤ mid := by omega
    · exact Int.le_refl _
    · omega
    · have := hge i hlo hhi
      omega
  | @join x y k p lo mid hi t t' u hc h hu hk h' ih ih' =>
    have hstep := nesting_operator hc hu hk
    obtain ⟨hlt, heq, hge⟩ := ih
    obtain ⟨hlt', heq', hge'⟩ := ih'
    refine ⟨by omega, by omega, fun i hlo hhi => ?_⟩
    rcases Nat.lt_or_ge mid i with hi' | hi'
    · have := hge' i hi' hhi
      omega
    · exact hge i hlo hi'
  | alone _ _ ih => exact ih

/-- What stands between parentheses only is nested deeper than the expression. -/
lemma nesting_lt (h : Expression w x lo hi t) (hx : x.Hides k) (hu : w[i]? = some u)
    (hk : u.kind = k) (hlo : lo ≤ i) (hhi : i < hi) : nesting w lo < nesting w i := by
  induction h with
  | @integer lo v hv hvk =>
    obtain rfl : i = lo := by omega
    obtain rfl := Option.some.inj (hu.symm.trans hv)
    rcases hx.cases with rfl | rfl <;> simp [hvk] at hk
  | @parens lo mid v v' t hv hvk h hv' hvk' ih =>
    have hopen : nesting w (lo + 1) = nesting w lo + 1 := by simp [nesting_succ hv, hvk]
    obtain rfl | rfl | ⟨hlo, hhi⟩ : i = lo ∨ i = mid ∨ lo + 1 ≤ i ∧ i ≤ mid := by omega
    · obtain rfl := Option.some.inj (hu.symm.trans hv)
      rcases hx.cases with rfl | rfl <;> simp [hvk] at hk
    · obtain rfl := Option.some.inj (hu.symm.trans hv')
      rcases hx.cases with rfl | rfl <;> simp [hvk'] at hk
    · have := h.balanced.2.2 i hlo hhi
      omega
  | @join x y k' p lo mid hi t t' v hc h hv hvk h' ih ih' =>
    obtain ⟨hy, hne⟩ := hc.hides_of_hides hx
    rcases Nat.lt_trichotomy i mid with hi' | rfl | hi'
    · exact ih hx hlo hi'
    · obtain rfl := Option.some.inj (hu.symm.trans hv)
      exact absurd (hvk.symm.trans hk) hne
    · have := ih' hy hi' hhi
      have := h.balanced.2.1
      have := nesting_operator hc hv hvk
      omega
  | alone hc _ ih => exact ih (hc.hides_of_hides hx).1 hlo hhi

/-- An expression that is joined ends at the last operator that is not nested deeper. -/
lemma join_mid_le {y : Tier} {mid' : Nat} {v : Token} (hc : x.Chains y k p)
    (h : Expression w x lo mid s) (hu : w[mid]? = some u) (hk : u.kind = k)
    (h' : Expression w y (mid + 1) hi t) (hs : Expression w x lo mid' s')
    (hv : w[mid']? = some v) (hvk : v.kind = k) (hhi : mid' < hi) : mid' ≤ mid := by
  by_contra hlt
  have := h'.nesting_lt hc.hides hv hvk (by omega) hhi
  have := nesting_operator hc hu hk
  have := h.balanced.2.1
  have := hs.balanced.2.1
  omega

/-- An expression that is joined is none that binds tighter than the operator. -/
lemma not_joined {y : Tier} (hc : x.Chains y k p) (h : Expression w x lo mid s)
    (hu : w[mid]? = some u) (hk : u.kind = k) (h' : Expression w y (mid + 1) hi t) :
    ¬ Expression w y lo hi s' := by
  intro hs
  have := hs.nesting_lt hc.hides hu hk (Nat.le_of_lt h.balanced.1) (Nat.le_of_succ_le h'.balanced.1)
  have := h.balanced.2.1
  omega

/-- A part of the input is an expression of a tier in one way. -/
lemma unique (h : Expression w x lo hi t) (h' : Expression w x lo hi t') : t = t' := by
  induction h generalizing t' with
  | integer hu hk =>
    cases h' with
    | integer hu' _ => rw [Option.some.inj (hu.symm.trans hu')]
    | parens hu' hk' =>
      obtain rfl := Option.some.inj (hu.symm.trans hu')
      simp [hk] at hk'
    | join hc => cases hc
    | alone hc => cases hc
  | parens hu huk h hv _ ih =>
    cases h' with
    | integer hu' hk' =>
      obtain rfl := Option.some.inj (hu.symm.trans hu')
      simp [huk] at hk'
    | parens hu' _ h' hv' =>
      rw [Option.some.inj (hu.symm.trans hu'), Option.some.inj (hv.symm.trans hv'), ih h']
    | join hc => cases hc
    | alone hc => cases hc
  | @join x y k p lo mid hi t t' u hc h hu hk hr ih ihr =>
    cases h' with
    | integer => cases hc
    | parens => cases hc
    | @join _ y' k' p' _ mid' _ s s' v hc' h' hv hvk hr' =>
      obtain ⟨rfl, rfl, rfl⟩ := hc.unique hc'
      obtain rfl : mid = mid' := Nat.le_antisymm
        (join_mid_le hc h' hv hvk hr' h hu hk (Nat.le_of_succ_le hr.balanced.1))
        (join_mid_le hc h hu hk hr h' hv hvk (Nat.le_of_succ_le hr'.balanced.1))
      rw [Option.some.inj (hu.symm.trans hv), ih h', ihr hr']
    | @alone _ y' k' p' _ _ s hc' h' =>
      obtain ⟨rfl, rfl, rfl⟩ := hc.unique hc'
      exact absurd h' (not_joined hc h hu hk hr)
  | @alone x y k p lo hi t hc h ih =>
    cases h' with
    | integer => cases hc
    | parens => cases hc
    | @join _ y' k' p' _ mid _ s s' v hc' h' hv hvk hr =>
      obtain ⟨rfl, rfl, rfl⟩ := hc.unique hc'
      exact absurd h (not_joined hc h' hv hvk hr)
    | alone hc' h' =>
      obtain ⟨rfl, rfl, rfl⟩ := hc.unique hc'
      rw [ih h']

/-! ### Operators in expressions -/

lemma exists_node (h : Expression w x lo hi t) :
    ∃ p children, t = .node x.symbol p lo hi children := by
  cases h <;> exact ⟨_, _, rfl⟩

/-- An operator does not stand in an expression that binds tighter, unless between parentheses. -/
lemma not_exposes (h : Expression w x lo hi t) (hx : x.Hides k) : ¬ t.Exposes k := by
  intro hexp
  induction h with
  | integer hu hk =>
    obtain ⟨-, t, ht, hexp'⟩ := Tree.exposes_node_iff.1 hexp
    obtain rfl := List.mem_singleton.1 ht
    obtain rfl := hk.symm.trans (Tree.exposes_token_iff.1 hexp')
    exact absurd hx.cases (by decide)
  | parens hu huk h hv hvk =>
    obtain ⟨p, children, rfl⟩ := h.exists_node
    exact (Tree.exposes_node_iff.1 hexp).1 ⟨rfl, rfl, huk, hvk⟩
  | join hc h hu hk h' ih ih' =>
    obtain ⟨hy, hne⟩ := hc.hides_of_hides hx
    obtain ⟨-, t, ht, hexp'⟩ := Tree.exposes_node_iff.1 hexp
    simp only [List.mem_cons, List.not_mem_nil, or_false] at ht
    rcases ht with rfl | rfl | rfl
    · exact ih hx hexp'
    · exact hne (hk.symm.trans (Tree.exposes_token_iff.1 hexp'))
    · exact ih' hy hexp'
  | alone hc h ih =>
    obtain ⟨-, t, ht, hexp'⟩ := Tree.exposes_node_iff.1 hexp
    obtain rfl := List.mem_singleton.1 ht
    exact ih (hc.hides_of_hides hx).1 hexp'

/-- A child of an expression is a token or an expression. -/
lemma child_cases {n : NonTerminal} {lo' hi' : Nat} {children : List Tree}
    (h : Expression w x lo hi (.node n p lo' hi' children)) (hs : s ∈ children) :
    (∃ i u, s = .token i u) ∨ ∃ y lo hi, Expression w y lo hi s := by
  cases h with
  | integer =>
    obtain rfl := List.mem_singleton.1 hs
    exact Or.inl ⟨_, _, rfl⟩
  | parens _ _ h =>
    simp only [List.mem_cons, List.not_mem_nil, or_false] at hs
    rcases hs with rfl | rfl | rfl
    · exact Or.inl ⟨_, _, rfl⟩
    · exact Or.inr ⟨_, _, _, h⟩
    · exact Or.inl ⟨_, _, rfl⟩
  | join _ h _ _ h' =>
    simp only [List.mem_cons, List.not_mem_nil, or_false] at hs
    rcases hs with rfl | rfl | rfl
    · exact Or.inr ⟨_, _, _, h⟩
    · exact Or.inl ⟨_, _, rfl⟩
    · exact Or.inr ⟨_, _, _, h'⟩
  | alone _ h =>
    obtain rfl := List.mem_singleton.1 hs
    exact Or.inr ⟨_, _, _, h⟩

/-- The nodes that occur in an expression are expressions. -/
lemma of_occurs {n : NonTerminal} {lo' hi' : Nat} {children : List Tree}
    (h : Expression w x lo hi t) (hocc : (Tree.node n p lo' hi' children).Occurs t) :
    ∃ y : Tier, n = y.symbol ∧ Expression w y lo' hi' (.node n p lo' hi' children) := by
  have hall := hocc.of_children
    (Q := fun s => (∃ i u, s = .token i u) ∨ ∃ y lo hi, Expression w y lo hi s)
    (fun n q l r cs hs c hc => ?_) (Or.inr ⟨x, lo, hi, h⟩)
  · rcases hall with ⟨i, u, heq⟩ | ⟨y, lo'', hi'', hy⟩
    · cases heq
    · obtain ⟨p', children', heq⟩ := hy.exists_node
      cases heq
      exact ⟨y, rfl, hy⟩
  · rcases hs with ⟨i, u, heq⟩ | ⟨y, lo'', hi'', hy⟩
    · cases heq
    · exact hy.child_cases hc

/-- The production of an operator has operands. -/
lemma exists_operands {y : Tier} {n : NonTerminal} {children : List Tree}
    (h : Expression w x lo hi (.node n p lo hi children)) (hc : x.Chains y k p) :
    ∃ l i u r, children = [l, .token i u, r] ∧ u.kind = k := by
  cases h with
  | integer => cases hc
  | parens => cases hc
  | join hc' _ _ hk => exact ⟨_, _, _, _, rfl, hk.trans (hc'.unique hc).2.1⟩
  | alone hc' =>
    have := (hc'.unique hc).2.2
    omega

/-- Nothing that an operator joins to its left operand exposes the operator again. -/
lemma right_not_exposes {n : NonTerminal} {l r : Tree}
    (h : Expression w x lo hi (.node n p lo hi [l, .token i u, r])) : ¬ r.Exposes u.kind := by
  cases h with
  | join hc _ _ hk h' => exact h'.not_exposes (hk ▸ hc.hides)
  | parens _ _ h => cases h

end Expression

lemma expression_of_occurs {n : NonTerminal} {lo' hi' : Nat} {children : List Tree}
    (h : expression.Derives w ⟨"P"⟩ lo hi t)
    (hocc : (Tree.node n p lo' hi' children).Occurs t) :
    n = ⟨"P"⟩ ∧ children.length = 1 ∨
      ∃ x : Tier, n = x.symbol ∧ Expression w x lo' hi' (.node n p lo' hi' children) := by
  obtain ⟨s, hs, rfl⟩ := expression_of_derives_start h
  rcases Tree.occurs_node_iff.1 hocc with heq | ⟨c, hc, hocc'⟩
  · cases heq
    exact Or.inl ⟨rfl, rfl⟩
  · obtain rfl := List.mem_singleton.1 hc
    exact Or.inr (hs.of_occurs hocc')

/-! ### No choice -/

lemma derivesUniquely_expression (w : List Token) : expression.DerivesUniquely w := by
  have htier (x : Tier) {lo hi : Nat} {t t' : Tree} (h : expression.Derives w x.symbol lo hi t)
      (h' : expression.Derives w x.symbol lo hi t') : t = t' :=
    (expression_of_derives h).unique (expression_of_derives h')
  intro n lo hi t t' h h'
  obtain ⟨p, prod, -, hp, rfl, -, -⟩ := derives_iff_production.1 h
  rw [prods_expression] at hp
  match p, hp with
  | 0, hp =>
    obtain rfl := Option.some.inj hp
    obtain ⟨s, hs, rfl⟩ := expression_of_derives_start h
    obtain ⟨s', hs', rfl⟩ := expression_of_derives_start h'
    rw [hs.unique hs']
  | 1, hp | 2, hp =>
    obtain rfl := Option.some.inj hp
    exact htier .sum h h'
  | 3, hp | 4, hp =>
    obtain rfl := Option.some.inj hp
    exact htier .product h h'
  | 5, hp | 6, hp =>
    obtain rfl := Option.some.inj hp
    exact htier .factor h h'

lemma endsUniquely_expression (w : List Token) : expression.EndsUniquely w :=
  Grammar.endsUniquely_of_terminals unconstrained_expression (by decide)

/-! ### Trees -/

/-- An expression is not ambiguous and has a tree. In the tree a product or a factor has no `+` but
between parentheses, and what an operator joins on its right has that operator no more. -/
theorem expression_precedence {P : Parsing} (hP : (expression.recognize w).result = .ok P) :
    P.isAmbiguous = false ∧ ∃ t, P.tree = .ok t ∧
      expression.Derives w expression.start 0 w.length t ∧
      (∀ n p lo hi children, (Tree.node n p lo hi children).Occurs t →
        n = ⟨"M"⟩ ∨ n = ⟨"T"⟩ → ¬ (Tree.node n p lo hi children).Exposes ⟨"+"⟩) ∧
      ∀ n p lo hi l i u r, (Tree.node n p lo hi [l, .token i u, r]).Occurs t →
        u.kind = ⟨"+"⟩ ∨ u.kind = ⟨"*"⟩ → ¬ r.Exposes u.kind := by
  have hG : Grammar.build ⟨"P"⟩
      [rule "P" [[nt "S"]], rule "S" [[nt "S", tm "+", nt "M"], [nt "M"]],
        rule "M" [[nt "M", tm "*", nt "T"], [nt "T"]],
        rule "T" [[tm "integer"], [tm "(", nt "S", tm ")"]]] = .ok expression := rfl
  obtain ⟨hamb, t, hok, ht⟩ := Grammar.exists_tree_of_derivesUniquely hG hP
    (derivesUniquely_expression w) (endsUniquely_expression w)
  refine ⟨hamb, t, hok, ht, ?_, ?_⟩
  · intro n p lo hi children hocc hn
    rcases expression_of_occurs ht hocc with ⟨rfl, -⟩ | ⟨x, rfl, h⟩
    · exact absurd hn (by decide)
    · refine h.not_exposes ?_
      cases x with
      | sum => exact absurd hn (by decide)
      | product => rfl
      | factor => exact Or.inl rfl
  · intro n p lo hi l i u r hocc _
    rcases expression_of_occurs ht hocc with ⟨-, hlen⟩ | ⟨x, rfl, h⟩
    · simp at hlen
    · exact h.right_not_exposes

/-- The `+` between parentheses does not stand in the product around them, nor in its own right
operand. -/
theorem expression_precedence_parenthesized :
    let w := ["(", "integer", "+", "integer", ")"].map Token.plain
    ∃ P t, (expression.recognize w).result = .ok P ∧ P.isAmbiguous = false ∧ P.tree = .ok t ∧
      expression.Derives w expression.start 0 w.length t ∧
      (∃ children, (Tree.node ⟨"M"⟩ 4 0 5 children).Occurs t ∧
        ¬ (Tree.node ⟨"M"⟩ 4 0 5 children).Exposes ⟨"+"⟩) ∧
      ∃ l i u r, (Tree.node ⟨"S"⟩ 1 1 4 [l, .token i u, r]).Occurs t ∧ u.kind = ⟨"+"⟩ ∧
        ¬ r.Exposes u.kind := by
  intro w
  have hrun : (expression.recognize w).result.toOption.any (fun P => P.tree.toOption.any fun t =>
      t.hasNode ⟨"M"⟩ 4 0 5 && t.hasNode ⟨"S"⟩ 1 1 4) = true := by decide +kernel
  obtain ⟨P, hP, htree⟩ := any_toOption_iff.1 hrun
  obtain ⟨t, ht, hnodes⟩ := any_toOption_iff.1 htree
  obtain ⟨hproduct, hsum⟩ := Bool.and_eq_true_iff.1 hnodes
  obtain ⟨hamb, t', ht', hderives, houtside, hleft⟩ := expression_precedence hP
  obtain rfl : t = t' := by simpa [ht] using ht'
  refine ⟨P, t, hP, hamb, ht, hderives, ?_, ?_⟩
  · obtain ⟨children, hocc⟩ := Tree.hasNode_iff.1 hproduct
    exact ⟨children, hocc, houtside _ _ _ _ _ hocc (Or.inl rfl)⟩
  · obtain ⟨children, hocc⟩ := Tree.hasNode_iff.1 hsum
    rcases expression_of_occurs hderives hocc with ⟨hP, -⟩ | ⟨x, hx, h⟩
    · exact absurd hP (by decide)
    · obtain rfl : x = .sum := Tier.symbol_injective hx.symm
      obtain ⟨l, i, u, r, rfl, hu⟩ := h.exists_operands .sum
      exact ⟨l, i, u, r, hocc, hu, hleft _ _ _ _ _ _ _ _ hocc (Or.inl hu)⟩

end ParseForest
