import ParseForest.Proofs.Grammar.Bodies
import ParseForest.Proofs.Recognition.Acceptance

/-!
# Which conditionals an `else` belongs to

A conditional with an `else` may stand in a `then` branch, and then an `else` can belong to several
of the `then`s before it. The constraint of `Samples.nearestElse` vetoes a `then` branch with an
`if` in it. The main statement, `nearestElse_ok_iff`, says what this leaves of the sentences of
`Samples.danglingElse`: those in which each `else` comes right after `then other`, and these have
one derivation each. A conditional that has its own `else` cannot be a `then` branch, so sentences
get lost, `nearestElse_rejects_nested`.
-/

namespace ParseForest

open Samples

variable {G : Grammar} {w : List Token} {p dot lo mid hi : Nat} {ts : List Tree} {t : Tree}
  {n : NonTerminal} {prod : Production}

/-! ### Conditionals -/

/-- The constraint on a conditional with an `else`: that of the nearest `then`, or none. -/
def elseConstraint (nearest : Bool) : Option Constraint :=
  if nearest then some closestElse else none

/-- The productions of conditionals. -/
def conditionalProds (c : Option Constraint) : List Production :=
  [⟨⟨"S"⟩, [tm "if", nt "E", tm "then", nt "S"], none⟩,
    ⟨⟨"S"⟩, [tm "if", nt "E", tm "then", nt "S", tm "else", nt "S"], c⟩,
    ⟨⟨"S"⟩, [tm "other"], none⟩,
    ⟨⟨"E"⟩, [tm "cond"], none⟩]

lemma prods_conditional (c : Option Constraint) : (conditional c).prods = conditionalProds c := rfl

/-- The productions of conditions and of statements. -/
lemma head_conditionalProds {c : Option Constraint}
    (hp : (conditional c).prods[p]? = some prod) :
    (prod.head = ⟨"E"⟩ ↔ p = 3) ∧ (prod.head = ⟨"S"⟩ ↔ p = 0 ∨ p = 1 ∨ p = 2) := by
  rw [prods_conditional, conditionalProds] at hp
  match p, hp with
  | 0, hp | 1, hp | 2, hp | 3, hp =>
    obtain rfl := Option.some.inj hp
    simp

/-- Some token between the positions is an `if`. -/
def HasIf (w : List Token) (lo hi : Nat) : Prop :=
  ∃ i u, lo ≤ i ∧ i < hi ∧ w[i]? = some u ∧ u.kind = ⟨"if"⟩

/-- The tokens `if cond then` stand at the position, with the given trees. -/
def Condition (w : List Token) (lo : Nat) (ts : List Tree) : Prop :=
  ∃ u v x, w[lo]? = some u ∧ u.kind = ⟨"if"⟩ ∧ w[lo + 1]? = some v ∧ v.kind = ⟨"cond"⟩ ∧
    w[lo + 2]? = some x ∧ x.kind = ⟨"then"⟩ ∧
    ts = [.token lo u, .node ⟨"E"⟩ 3 (lo + 1) (lo + 2) [.token (lo + 1) v], .token (lo + 2) x]

/-- The statements of the conditional grammars, as trees over the input. If each `else` is to belong
to the nearest `then`, no `if` may stand between the two. -/
inductive Statement (nearest : Bool) (w : List Token) : Nat → Nat → Tree → Prop where
  | other {lo : Nat} {u : Token} (hu : w[lo]? = some u) (hk : u.kind = ⟨"other"⟩) :
      Statement nearest w lo (lo + 1) (.node ⟨"S"⟩ 2 lo (lo + 1) [.token lo u])
  | ifThen {lo hi : Nat} {ts : List Tree} {t : Tree} (hc : Condition w lo ts)
      (h : Statement nearest w (lo + 3) hi t) :
      Statement nearest w lo hi (.node ⟨"S"⟩ 0 lo hi (ts ++ [t]))
  | ifThenElse {lo mid hi : Nat} {ts : List Tree} {t t' : Tree} {u : Token}
      (hc : Condition w lo ts) (h : Statement nearest w (lo + 3) mid t)
      (hv : nearest = true → ¬ HasIf w (lo + 3) mid) (hu : w[mid]? = some u)
      (hk : u.kind = ⟨"else"⟩) (h' : Statement nearest w (mid + 1) hi t') :
      Statement nearest w lo hi (.node ⟨"S"⟩ 1 lo hi (ts ++ [t, .token mid u, t']))

/-! ### Statements are what is derived -/

section Derived

variable {nearest : Bool}

/-- A return that makes an `else` belong to a `then` is permitted if no `if` stands between them. -/
lemma closestElse_iff {x : ReturnContext} : closestElse x = true ↔
    (x.elemIndex = 3 → ¬ HasIf x.tokens x.calleeOrigin x.position) := by
  have hany : (x.calleeTokens.any fun u => u.kind == ⟨"if"⟩) = true ↔
      HasIf x.tokens x.calleeOrigin x.position := by
    rw [List.any_eq_true]
    constructor
    · rintro ⟨u, hu, hk⟩
      obtain ⟨i, hi⟩ := List.mem_iff_getElem?.1 hu
      rw [ReturnContext.calleeTokens, slice, List.getElem?_take] at hi
      split at hi
      · rw [List.getElem?_drop] at hi
        exact ⟨_, u, Nat.le_add_right _ _, by omega, hi, beq_iff_eq.1 hk⟩
      · cases hi
    · rintro ⟨i, u, hlo, hhi, hu, hk⟩
      refine ⟨u, List.mem_iff_getElem?.2 ⟨i - x.calleeOrigin, ?_⟩, beq_iff_eq.2 hk⟩
      rw [ReturnContext.calleeTokens, slice, List.getElem?_take_of_lt (by omega),
        List.getElem?_drop, Nat.add_sub_cancel' hlo, hu]
  rw [closestElse, Bool.or_eq_true, bne_iff_ne, Bool.not_eq_true', ← Bool.not_eq_true, hany,
    imp_iff_not_or]

lemma permits_elseConstraint {head : NonTerminal} {body : List Symbol} {x : ReturnContext} :
    (Production.mk head body (elseConstraint nearest)).permits x = true ↔
      (nearest = true → x.elemIndex = 3 → ¬ HasIf x.tokens x.calleeOrigin x.position) := by
  rw [← closestElse_iff]
  cases nearest <;> simp [Production.permits, Production.verdict, elseConstraint]

/-- A condition derives one token. -/
lemma derives_condition_iff :
    (conditional (elseConstraint nearest)).Derives w ⟨"E"⟩ lo hi t ↔
      ∃ v, hi = lo + 1 ∧ w[lo]? = some v ∧ v.kind = ⟨"cond"⟩ ∧
        t = .node ⟨"E"⟩ 3 lo (lo + 1) [.token lo v] := by
  rw [derives_iff_production]
  constructor
  · rintro ⟨p, prod, ts, hp, hhead, h, rfl⟩
    obtain rfl := (head_conditionalProds hp).1.1 hhead
    obtain rfl := Option.some.inj hp
    obtain ⟨i, us, v, rfl, rfl, h, hv, hk⟩ := (spans_scan_iff (k := ⟨"cond"⟩) rfl).1 h
    obtain ⟨rfl, rfl, -⟩ := (spans_enter_iff rfl).1 h
    exact ⟨v, rfl, hv, hk, rfl⟩
  · rintro ⟨v, rfl, hv, hk, rfl⟩
    refine ⟨3, _, _, rfl, rfl, (spans_scan_iff (k := ⟨"cond"⟩) rfl).2
      ⟨lo, [], v, rfl, rfl, ?_, hv, hk⟩, rfl⟩
    exact (spans_enter_iff rfl).2 ⟨rfl, rfl, Nat.le_of_lt (List.getElem?_eq_some_iff.1 hv).1⟩

/-- Both kinds of conditionals begin with a condition. -/
lemma spans_condition_iff (hp : p = 0 ∨ p = 1) :
    Spans (conditional (elseConstraint nearest)) w (.item p 3) lo mid ts ↔
      mid = lo + 3 ∧ Condition w lo ts := by
  obtain ⟨prod, hprod, hbody, hperm⟩ : ∃ prod,
      (conditional (elseConstraint nearest)).prods[p]? = some prod ∧
      prod.body.take 3 = [tm "if", nt "E", tm "then"] ∧
      ∀ x, x.elemIndex = 1 → prod.permits x = true := by
    rcases hp with rfl | rfl
    · exact ⟨_, rfl, rfl, fun x _ => rfl⟩
    · refine ⟨_, rfl, rfl, fun x hx => permits_elseConstraint.2 fun _ h => ?_⟩
      rw [hx] at h
      cases h
  have hsym : ∀ i, i < 3 → prod.body[i]? = [tm "if", nt "E", tm "then"][i]? := by
    intro i hi
    rw [← hbody, List.getElem?_take_of_lt hi]
  have hif := (Grammar.symbolAt?_eq hprod).trans (hsym 0 (by decide))
  have hthen := (Grammar.symbolAt?_eq hprod).trans (hsym 2 (by decide))
  rw [spans_scan_iff hthen]
  constructor
  · rintro ⟨i, us, x, rfl, rfl, h, hx, hxk⟩
    obtain ⟨j, vs, t, rfl, h, ht, -⟩ := (spans_resume_iff hprod (hsym 1 (by decide))).1 h
    obtain ⟨k, zs, u, rfl, rfl, h, hu, huk⟩ := (spans_scan_iff hif).1 h
    obtain ⟨rfl, rfl, -⟩ := (spans_enter_iff hprod).1 h
    obtain ⟨v, rfl, hv, hvk, rfl⟩ := derives_condition_iff.1 ht
    exact ⟨rfl, u, v, x, hu, huk, hv, hvk, hx, hxk, rfl⟩
  · rintro ⟨rfl, u, v, x, hu, huk, hv, hvk, hx, hxk, rfl⟩
    refine ⟨lo + 2, [.token lo u, .node ⟨"E"⟩ 3 (lo + 1) (lo + 2) [.token (lo + 1) v]], x, rfl, rfl,
      ?_, hx, hxk⟩
    refine (spans_resume_iff hprod (hsym 1 (by decide))).2 ⟨lo + 1, [.token lo u], _, rfl, ?_,
      derives_condition_iff.2 ⟨v, rfl, hv, hvk, rfl⟩, hperm _ rfl⟩
    refine (spans_scan_iff hif).2 ⟨lo, [], u, rfl, rfl, ?_, hu, huk⟩
    exact (spans_enter_iff hprod).2 ⟨rfl, rfl, Nat.le_of_lt (List.getElem?_eq_some_iff.1 hu).1⟩

lemma spans_other_iff :
    Spans (conditional (elseConstraint nearest)) w (.item 2 1) lo hi ts ↔
      ∃ u, hi = lo + 1 ∧ w[lo]? = some u ∧ u.kind = ⟨"other"⟩ ∧ ts = [.token lo u] := by
  rw [spans_scan_iff (k := ⟨"other"⟩) rfl]
  constructor
  · rintro ⟨i, us, u, rfl, rfl, h, hu, hk⟩
    obtain ⟨rfl, rfl, -⟩ := (spans_enter_iff rfl).1 h
    exact ⟨u, rfl, hu, hk, rfl⟩
  · rintro ⟨u, rfl, hu, hk, rfl⟩
    refine ⟨lo, [], u, rfl, rfl, (spans_enter_iff rfl).2 ⟨rfl, rfl, ?_⟩, hu, hk⟩
    exact Nat.le_of_lt (List.getElem?_eq_some_iff.1 hu).1

lemma spans_ifThen_iff :
    Spans (conditional (elseConstraint nearest)) w (.item 0 4) lo hi ts ↔
      ∃ us t, Condition w lo us ∧ ts = us ++ [t] ∧
        (conditional (elseConstraint nearest)).Derives w ⟨"S"⟩ (lo + 3) hi t := by
  rw [spans_resume_iff (n := ⟨"S"⟩) rfl rfl]
  constructor
  · rintro ⟨mid, us, t, rfl, h, ht, -⟩
    obtain ⟨rfl, hc⟩ := (spans_condition_iff (Or.inl rfl)).1 h
    exact ⟨us, t, hc, rfl, ht⟩
  · rintro ⟨us, t, hc, rfl, ht⟩
    exact ⟨lo + 3, us, t, rfl, (spans_condition_iff (Or.inl rfl)).2 ⟨rfl, hc⟩, ht, rfl⟩

lemma spans_ifThenElse_iff :
    Spans (conditional (elseConstraint nearest)) w (.item 1 6) lo hi ts ↔
      ∃ us t mid u t', Condition w lo us ∧ ts = us ++ [t, .token mid u, t'] ∧
        (conditional (elseConstraint nearest)).Derives w ⟨"S"⟩ (lo + 3) mid t ∧
        (nearest = true → ¬ HasIf w (lo + 3) mid) ∧ w[mid]? = some u ∧ u.kind = ⟨"else"⟩ ∧
        (conditional (elseConstraint nearest)).Derives w ⟨"S"⟩ (mid + 1) hi t' := by
  rw [spans_resume_iff (n := ⟨"S"⟩) rfl rfl]
  constructor
  · rintro ⟨_, us, t', rfl, h, ht', -⟩
    obtain ⟨mid, us, u, rfl, rfl, h, hu, hk⟩ := (spans_scan_iff (k := ⟨"else"⟩) rfl).1 h
    obtain ⟨_, us, t, rfl, h, ht, hperm⟩ := (spans_resume_iff (n := ⟨"S"⟩) rfl rfl).1 h
    obtain ⟨rfl, hc⟩ := (spans_condition_iff (Or.inr rfl)).1 h
    refine ⟨us, t, mid, u, t', hc, by simp, ht, fun hn => ?_, hu, hk, ht'⟩
    exact permits_elseConstraint.1 hperm hn rfl
  · rintro ⟨us, t, mid, u, t', hc, rfl, ht, hv, hu, hk, ht'⟩
    refine ⟨mid + 1, us ++ [t, .token mid u], t', by simp, ?_, ht', ?_⟩
    · refine (spans_scan_iff (k := ⟨"else"⟩) rfl).2 ⟨mid, us ++ [t], u, rfl, by simp, ?_, hu, hk⟩
      refine (spans_resume_iff (n := ⟨"S"⟩) rfl rfl).2 ⟨lo + 3, us, t, rfl,
        (spans_condition_iff (Or.inr rfl)).2 ⟨rfl, hc⟩, ht, ?_⟩
      exact permits_elseConstraint.2 fun hn _ => hv hn
    · exact permits_elseConstraint.2 fun _ h => absurd h (by simp [Production.context])

lemma Condition.childrenOf_append {us : List Tree} (h : Condition w lo us) (ts : List Tree) :
    Tree.childrenOf lo (us ++ ts) = us ++ ts := by
  obtain ⟨u, v, x, -, -, -, -, -, -, rfl⟩ := h
  rfl

lemma statement_of_derives
    (h : (conditional (elseConstraint nearest)).Derives w ⟨"S"⟩ lo hi t) :
    Statement nearest w lo hi t := by
  -- The statements inside of a conditional are shorter.
  induction hlen : hi - lo using Nat.strongRecOn generalizing lo hi t with
  | ind len ih =>
    subst hlen
    obtain ⟨p, prod, ts, hp, hhead, h, rfl⟩ := derives_iff_production.1 h
    rcases (head_conditionalProds hp).2.1 hhead with rfl | rfl | rfl
    · obtain rfl := Option.some.inj hp
      obtain ⟨us, t, hc, rfl, ht⟩ := spans_ifThen_iff.1 h
      have hle := ht.le
      rw [hc.childrenOf_append]
      exact .ifThen hc (ih _ (by omega) ht rfl)
    · obtain rfl := Option.some.inj hp
      obtain ⟨us, t, mid, u, t', hc, rfl, ht, hv, hu, hk, ht'⟩ := spans_ifThenElse_iff.1 h
      have hle := ht.le
      have hle' := ht'.le
      rw [hc.childrenOf_append]
      exact .ifThenElse hc (ih _ (by omega) ht rfl) hv hu hk (ih _ (by omega) ht' rfl)
    · obtain rfl := Option.some.inj hp
      obtain ⟨u, rfl, hu, hk, rfl⟩ := spans_other_iff.1 h
      exact .other hu hk

/-- The statements are the derivations of the start symbol. -/
lemma derives_iff_statement :
    (conditional (elseConstraint nearest)).Derives w ⟨"S"⟩ lo hi t ↔
      Statement nearest w lo hi t := by
  refine ⟨statement_of_derives, fun h => ?_⟩
  induction h with
  | other hu hk =>
    exact derives_iff_production.2 ⟨2, _, _, rfl, rfl, spans_other_iff.2 ⟨_, rfl, hu, hk, rfl⟩, rfl⟩
  | ifThen hc h ih =>
    refine derives_iff_production.2 ⟨0, _, _, rfl, rfl, spans_ifThen_iff.2 ⟨_, _, hc, rfl, ih⟩, ?_⟩
    rw [hc.childrenOf_append]
  | ifThenElse hc h hv hu hk h' ih ih' =>
    refine derives_iff_production.2 ⟨1, _, _, rfl, rfl,
      spans_ifThenElse_iff.2 ⟨_, _, _, _, _, hc, rfl, ih, hv, hu, hk, ih'⟩, ?_⟩
    rw [hc.childrenOf_append]

end Derived

/-! ### Where an `else` may stand -/

/-- The tokens `then other` stand right before the position. -/
def AfterOther (w : List Token) (i : Nat) : Prop :=
  ∃ j u v, i = j + 2 ∧ w[j]? = some u ∧ u.kind = ⟨"then"⟩ ∧ w[j + 1]? = some v ∧
    v.kind = ⟨"other"⟩

/-- Each `else` between the positions comes right after `then other`. -/
def ElsesAfterOther (w : List Token) (lo hi : Nat) : Prop :=
  ∀ i u, lo ≤ i → i < hi → w[i]? = some u → u.kind = ⟨"else"⟩ → AfterOther w i

lemma Condition.kind_ne_else {ts : List Tree} {i : Nat} {u : Token} (hc : Condition w lo ts)
    (hlo : lo ≤ i) (hi : i < lo + 3) (hu : w[i]? = some u) : u.kind ≠ ⟨"else"⟩ := by
  obtain ⟨a, b, c, ha, hak, hb, hbk, hc, hck, -⟩ := hc
  obtain rfl | rfl | rfl : i = lo ∨ i = lo + 1 ∨ i = lo + 2 := by omega
  · cases ha.symm.trans hu
    rw [hak]
    decide
  · cases hb.symm.trans hu
    rw [hbk]
    decide
  · cases hc.symm.trans hu
    rw [hck]
    decide

lemma Condition.unique {ts ts' : List Tree} (h : Condition w lo ts) (h' : Condition w lo ts') :
    ts = ts' := by
  obtain ⟨a, b, c, ha, -, hb, -, hc, -, rfl⟩ := h
  obtain ⟨a', b', c', ha', -, hb', -, hc', -, rfl⟩ := h'
  obtain rfl := Option.some.inj (ha.symm.trans ha')
  obtain rfl := Option.some.inj (hb.symm.trans hb')
  obtain rfl := Option.some.inj (hc.symm.trans hc')
  rfl

namespace Statement

variable {nearest : Bool} {t' : Tree}

/-- A statement is a single token, or begins with `if` and is longer than a condition. -/
lemma first (h : Statement nearest w lo hi t) : ∃ u, w[lo]? = some u ∧
    (u.kind = ⟨"other"⟩ ∧ hi = lo + 1 ∨ u.kind = ⟨"if"⟩ ∧ lo + 3 < hi) := by
  induction h with
  | other hu hk => exact ⟨_, hu, Or.inl ⟨hk, rfl⟩⟩
  | ifThen hc h ih =>
    obtain ⟨u, v, x, hu, hk, -⟩ := hc
    obtain ⟨_, -, hlt⟩ := ih
    exact ⟨u, hu, Or.inr ⟨hk, by omega⟩⟩
  | ifThenElse hc h hv hu' hk' h' ih ih' =>
    obtain ⟨u, v, x, hu, hk, -⟩ := hc
    obtain ⟨_, -, hlt⟩ := ih
    obtain ⟨_, -, hlt'⟩ := ih'
    exact ⟨u, hu, Or.inr ⟨hk, by omega⟩⟩

lemma lt (h : Statement nearest w lo hi t) : lo < hi := by
  obtain ⟨u, -, hlt⟩ := h.first
  omega

/-- A statement without `if` is a single token. -/
lemma hasIf_iff (h : Statement nearest w lo hi t) : HasIf w lo hi ↔ lo + 1 < hi := by
  obtain ⟨u, hu, ⟨hk, rfl⟩ | ⟨hk, hlt⟩⟩ := h.first
  · refine iff_of_false ?_ (Nat.lt_irrefl _)
    rintro ⟨i, u', hlo, hhi, hu', hk'⟩
    obtain rfl : i = lo := by omega
    obtain rfl := Option.some.inj (hu.symm.trans hu')
    rw [hk] at hk'
    exact absurd hk' (by decide)
  · exact iff_of_true ⟨lo, u, Nat.le_refl _, by omega, hu, hk⟩ (by omega)

/-- In a `then` branch without `if` stands a single token. -/
lemma eq_of_not_hasIf (h : Statement nearest w lo hi t) (hv : ¬ HasIf w lo hi) : hi = lo + 1 := by
  rw [h.hasIf_iff] at hv
  have := h.lt
  omega

lemma not_hasIf (h : Statement nearest w lo (lo + 1) t) : ¬ HasIf w lo (lo + 1) := by
  rw [h.hasIf_iff]
  exact Nat.lt_irrefl _

/-- Where no `else` has an `if` before it in its `then` branch, each comes right after
`then other`. -/
lemma elsesAfterOther (h : Statement true w lo hi t) : ElsesAfterOther w lo hi := by
  induction h with
  | @other lo u hu hk =>
    intro i u' hlo hhi hu' hk'
    obtain rfl : i = lo := by omega
    obtain rfl := Option.some.inj (hu.symm.trans hu')
    exact absurd (hk.symm.trans hk') (by decide)
  | @ifThen lo hi ts t hc h ih =>
    intro i u hlo hhi hu hk
    rcases Nat.lt_or_ge i (lo + 3) with hi | hi
    · exact absurd hk (hc.kind_ne_else hlo hi hu)
    · exact ih i u hi hhi hu hk
  | @ifThenElse lo mid hi ts t t' u' hc h hv hu' hk' h' ih ih' =>
    intro i u hlo hhi hu hk
    obtain rfl := h.eq_of_not_hasIf (hv rfl)
    obtain ⟨v, hw, ⟨hvk, -⟩ | ⟨-, hlt⟩⟩ := h.first
    · rcases Nat.lt_trichotomy i (lo + 3 + 1) with hi | rfl | hi
      · rcases Nat.lt_or_ge i (lo + 3) with hi' | hi'
        · exact absurd hk (hc.kind_ne_else hlo hi' hu)
        · exact ih i u hi' hi hu hk
      · obtain ⟨a, b, c, -, -, -, -, hc, hck, -⟩ := hc
        exact ⟨lo + 2, c, v, rfl, hc, hck, hw, hvk⟩
      · exact ih' i u hi hhi hu hk
    · omega

/-- Without the constraint there are only more statements. -/
lemma weaken (h : Statement true w lo hi t) : Statement false w lo hi t := by
  induction h with
  | other hu hk => exact .other hu hk
  | ifThen hc h ih => exact .ifThen hc ih
  | ifThenElse hc h hv hu hk h' ih ih' => exact .ifThenElse hc ih nofun hu hk ih'

/-- If a statement at a position is a single token, so are all. -/
lemma eq_of_single {hi' : Nat} (h : Statement nearest w lo (lo + 1) t)
    (h' : Statement nearest w lo hi' t') : hi' = lo + 1 := by
  obtain ⟨u, hu, ⟨hk, -⟩ | ⟨-, hlt⟩⟩ := h.first
  · obtain ⟨u', hu', ⟨-, rfl⟩ | ⟨hk', -⟩⟩ := h'.first
    · rfl
    · obtain rfl := Option.some.inj (hu.symm.trans hu')
      rw [hk] at hk'
      exact absurd hk' (by decide)
  · omega

/-- A conditional with an `else` is not one without: after the single token of its `then` branch the
other one would be over. -/
lemma not_both {hi' : Nat} {t₁ t₂ : Tree} (h : Statement true w lo hi t)
    (h₁ : Statement true w lo mid t₁) (hv : ¬ HasIf w lo mid)
    (h₂ : Statement true w (mid + 1) hi' t₂) : hi ≠ hi' := by
  obtain rfl := h₁.eq_of_not_hasIf hv
  have heq := h₁.eq_of_single h
  have hlt := h₂.lt
  omega

/-- With the constraint a statement has one tree. -/
lemma unique (h : Statement true w lo hi t) (h' : Statement true w lo hi t') : t = t' := by
  induction h generalizing t' with
  | @other lo u hu hk =>
    cases h' with
    | other hu' hk' =>
      obtain rfl := Option.some.inj (hu.symm.trans hu')
      rfl
    | ifThen hc h =>
      have := h.lt
      omega
    | ifThenElse hc h hv hu hk h' =>
      have := h.lt
      have := h'.lt
      omega
  | ifThen hc h ih =>
    cases h' with
    | other hu hk =>
      have := h.lt
      omega
    | ifThen hc' h' =>
      rw [hc.unique hc', ih h']
    | ifThenElse hc' h₁ hv hu hk h₂ => exact absurd rfl (h.not_both h₁ (hv rfl) h₂)
  | ifThenElse hc h₁ hv hu hk h₂ ih₁ ih₂ =>
    cases h' with
    | other hu' hk' =>
      have := h₁.lt
      have := h₂.lt
      omega
    | ifThen hc' h' => exact absurd rfl (h'.not_both h₁ (hv rfl) h₂)
    | ifThenElse hc' h₁' hv' hu' hk' h₂' =>
      obtain rfl := h₁.eq_of_not_hasIf (hv rfl)
      obtain rfl := h₁'.eq_of_not_hasIf (hv' rfl)
      obtain rfl := Option.some.inj (hu.symm.trans hu')
      rw [hc.unique hc', ih₁ h₁', ih₂ h₂']

/-- A statement that ends with `then other` and is more than the last token of it takes in an `else`
with a statement. -/
lemma absorb {u : Token} (h : Statement true w lo mid t) (hlong : lo + 1 < mid)
    (hafter : AfterOther w mid) (hu : w[mid]? = some u) (hk : u.kind = ⟨"else"⟩)
    (h' : Statement true w (mid + 1) hi t') : ∃ t, Statement true w lo hi t := by
  induction h with
  | other hv hvk => exact absurd hlong (Nat.lt_irrefl _)
  | @ifThen lo mid ts t hc h ih =>
    have hlt := h.lt
    by_cases hlong' : lo + 3 + 1 < mid
    · obtain ⟨t, ht⟩ := ih hlong' hafter hu h'
      exact ⟨_, .ifThen hc ht⟩
    · obtain rfl : mid = lo + 3 + 1 := by omega
      exact ⟨_, .ifThenElse hc h (fun _ => h.not_hasIf) hu hk h'⟩
  | @ifThenElse lo m mid ts t₁ t₂ v hc h₁ hv hvu hvk h₂ ih₁ ih₂ =>
    have hlt := h₂.lt
    by_cases hlong' : m + 1 + 1 < mid
    · obtain ⟨t, ht⟩ := ih₂ hlong' hafter hu h'
      exact ⟨_, .ifThenElse hc h₁ hv hvu hvk ht⟩
    · -- The last token belongs to an `else`, not to a `then`.
      obtain rfl : mid = m + 2 := by omega
      obtain ⟨j, x, y, hj, hx, hxk, -⟩ := hafter
      obtain rfl : m = j := by omega
      obtain rfl := Option.some.inj (hvu.symm.trans hx)
      exact absurd (hvk.symm.trans hxk) (by decide)

/-- If each `else` comes right after `then other`, it can be given to that `then`. -/
lemma strengthen (h : Statement false w lo hi t) (hafter : ElsesAfterOther w lo hi) :
    ∃ t', Statement true w lo hi t' := by
  induction h with
  | other hu hk => exact ⟨_, .other hu hk⟩
  | ifThen hc h ih =>
    obtain ⟨t', ht'⟩ := ih fun i u hlo hhi => hafter i u (by omega) hhi
    exact ⟨_, .ifThen hc ht'⟩
  | @ifThenElse lo mid hi ts t t' u hc h hv hu hk h' ih ih' =>
    have hlt := h.lt
    have hlt' := h'.lt
    obtain ⟨t₁, h₁⟩ := ih fun i u hlo hhi => hafter i u (by omega) (by omega)
    obtain ⟨t₂, h₂⟩ := ih' fun i u hlo hhi => hafter i u (by omega) hhi
    by_cases hlong : lo + 3 + 1 < mid
    · obtain ⟨t₃, h₃⟩ := h₁.absorb hlong (hafter mid u (by omega) (by omega) hu hk) hu hk h₂
      exact ⟨_, .ifThen hc h₃⟩
    · obtain rfl : mid = lo + 3 + 1 := by omega
      exact ⟨_, .ifThenElse hc h₁ (fun _ => h₁.not_hasIf) hu hk h₂⟩

end Statement

/-! ### What is recognized -/

/-- Conditionals are recognized exactly if there is a statement. -/
lemma recognize_conditional_iff (nearest : Bool) (w : List Token) :
    (∃ P, ((conditional (elseConstraint nearest)).recognize w).result = .ok P) ↔
      ∃ t, Statement nearest w 0 w.length t := by
  have hbuild : Grammar.build ⟨"S"⟩
      [⟨⟨"S"⟩,
        [([tm "if", nt "E", tm "then", nt "S"], none),
          ([tm "if", nt "E", tm "then", nt "S", tm "else", nt "S"], elseConstraint nearest),
          ([tm "other"], none)]⟩,
        rule "E" [[tm "cond"]]] = .ok (conditional (elseConstraint nearest)) := by
    cases nearest with
    | true => rfl
    | false => rfl
  rw [(recognize_ok_iff_accepts hbuild w).1]
  exact exists_congr fun t => derives_iff_statement

lemma derives_nearestElse_iff :
    nearestElse.Derives w nearestElse.start lo hi t ↔ Statement true w lo hi t := by
  change (conditional (elseConstraint true)).Derives w ⟨"S"⟩ lo hi t ↔ _
  exact derives_iff_statement

lemma derives_danglingElse_iff :
    danglingElse.Derives w danglingElse.start lo hi t ↔ Statement false w lo hi t := by
  change (conditional (elseConstraint false)).Derives w ⟨"S"⟩ lo hi t ↔ _
  exact derives_iff_statement

/-- The constraint accepts those sentences in which each `else` comes right after `then other`. It
gives each of them one derivation, which is also a derivation without the constraint. -/
theorem nearestElse_ok_iff (w : List Token) :
    ((∃ P, (nearestElse.recognize w).result = .ok P) ↔
      (∃ P, (danglingElse.recognize w).result = .ok P) ∧ ElsesAfterOther w 0 w.length) ∧
    ∀ t, nearestElse.Derives w nearestElse.start 0 w.length t →
      danglingElse.Derives w danglingElse.start 0 w.length t ∧
        ∀ t', nearestElse.Derives w nearestElse.start 0 w.length t' → t' = t := by
  have hnearest : (∃ P, (nearestElse.recognize w).result = .ok P) ↔ _ :=
    recognize_conditional_iff true w
  have hdangling : (∃ P, (danglingElse.recognize w).result = .ok P) ↔ _ :=
    recognize_conditional_iff false w
  constructor
  · rw [hnearest, hdangling]
    constructor
    · rintro ⟨t, ht⟩
      exact ⟨⟨t, ht.weaken⟩, ht.elsesAfterOther⟩
    · rintro ⟨⟨t, ht⟩, hafter⟩
      exact ht.strengthen hafter
  · intro t ht
    rw [derives_nearestElse_iff] at ht
    refine ⟨derives_danglingElse_iff.2 ht.weaken, fun t' ht' => ?_⟩
    exact (derives_nearestElse_iff.1 ht').unique ht

/-- The `else` that may belong to two conditionals without the constraint. -/
theorem nearestElse_ok_iff_inner :
    let w := ["if", "cond", "then", "if", "cond", "then", "other", "else", "other"].map Token.plain
    (∃ P, (nearestElse.recognize w).result = .ok P) ∧ ElsesAfterOther w 0 w.length := by
  intro w
  have hrun : ∃ P, (nearestElse.recognize w).result = .ok P :=
    isSome_toOption_iff.1 (by decide +kernel)
  exact ⟨hrun, ((nearestElse_ok_iff w).1.1 hrun).2⟩

/-- A conditional that has its own `else` cannot be the `then` branch of another one, though only
the outer conditional can take the last `else`. -/
theorem nearestElse_rejects_nested :
    let w := ["if", "cond", "then", "if", "cond", "then", "other", "else", "other", "else",
      "other"].map Token.plain
    (∃ P, (danglingElse.recognize w).result = .ok P) ∧
      ¬ ∃ P, (nearestElse.recognize w).result = .ok P := by
  intro w
  rw [← isSome_toOption_iff, ← isSome_toOption_iff]
  exact ⟨by decide +kernel, by decide +kernel⟩

end ParseForest
