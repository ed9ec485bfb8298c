import ParseForest.Proofs.Recognition.Rules
import ParseForest.Derivation

/-!
# Derivations by productions

What a vertex has behind it is read off its production from right to left, one symbol before the dot
at a time. The body of a production without a constraint can be read from left to right as well:
its symbols have derivations one after the other, `derives_iff_body`.
-/

namespace ParseForest

variable {G : Grammar} {w : List Token} {p dot lo mid hi : Nat} {ts us : List Tree} {t : Tree}
  {n : NonTerminal} {k : Terminal} {prod : Production} {body body' : List Symbol}

/-! ### What stands behind a vertex -/

lemma spans_enter_iff (hp : G.prods[p]? = some prod) :
    Spans G w (.item p 0) lo hi ts ↔ hi = lo ∧ ts = [] ∧ lo ≤ w.length := by
  constructor
  · intro h
    cases h with
    | enter _ hlo => exact ⟨rfl, rfl, hlo⟩
  · rintro ⟨rfl, rfl, hlo⟩
    exact .enter hp hlo

lemma spans_scan_iff {k : Terminal} (hs : G.symbolAt? p dot = some (.terminal k)) :
    Spans G w (.item p (dot + 1)) lo hi ts ↔ ∃ i us u, hi = i + 1 ∧ ts = us ++ [.token i u] ∧
      Spans G w (.item p dot) lo i us ∧ w[i]? = some u ∧ u.kind = k := by
  constructor
  · intro h
    cases h with
    | scan h hs' hu =>
      rw [hs] at hs'
      cases hs'
      exact ⟨_, _, _, rfl, rfl, h, hu, rfl⟩
    | resume h hp hs' hn hc =>
      rw [Grammar.symbolAt?_eq hp, hs'] at hs
      cases hs
  · rintro ⟨i, us, u, rfl, rfl, h, hu, rfl⟩
    exact .scan h hs hu

lemma spans_resume_iff (hp : G.prods[p]? = some prod)
    (hs : prod.body[dot]? = some (.nonterminal n)) :
    Spans G w (.item p (dot + 1)) lo hi ts ↔ ∃ mid us t, ts = us ++ [t] ∧
      Spans G w (.item p dot) lo mid us ∧ G.Derives w n mid hi t ∧
      prod.permits (prod.context p dot n lo mid hi w) = true := by
  constructor
  · intro h
    cases h with
    | scan h hs' hu =>
      rw [Grammar.symbolAt?_eq hp, hs] at hs'
      cases hs'
    | resume h hp' hs' hn hc =>
      obtain rfl := Option.some.inj (hp.symm.trans hp')
      rw [hs] at hs'
      cases hs'
      exact ⟨_, _, _, rfl, h, hn, hc⟩
  · rintro ⟨mid, us, t, rfl, h, hn, hc⟩
    exact .resume h hp hs hn hc

lemma derives_iff_production :
    G.Derives w n lo hi t ↔ ∃ p prod ts, G.prods[p]? = some prod ∧ prod.head = n ∧
      Spans G w (.item p prod.body.length) lo hi ts ∧
      t = .node n p lo hi (Tree.childrenOf lo ts) := by
  constructor
  · intro h
    cases h with
    | exit hp h => exact ⟨_, _, _, hp, rfl, h, rfl⟩
  · rintro ⟨p, prod, ts, hp, rfl, h, rfl⟩
    exact .exit hp h

/-- Without empty bodies, what has symbols behind it is not empty. -/
lemma Spans.lt_of_body_ne_nil {v : Vertex} (hbody : ∀ prod ∈ G.prods, prod.body ≠ [])
    (h : Spans G w v lo hi ts) (hv : ∀ p, v ≠ .item p 0) : lo < hi := by
  induction h with
  | enter => exact absurd rfl (hv _)
  | scan h => exact Nat.lt_succ_of_le h.le.1
  | resume h _ _ _ _ _ ihn => exact Nat.lt_of_le_of_lt h.le.1 (ihn (by simp))
  | exit hp _ ih =>
    refine ih fun q heq => hbody _ (List.mem_of_getElem? hp) ?_
    exact List.length_eq_zero_iff.1 (Vertex.item.inj heq).2

/-! ### Bodies from left to right -/

/-- No production of the grammar has a constraint. -/
def Grammar.Unconstrained (G : Grammar) : Prop :=
  ∀ prod ∈ G.prods, prod.constraint = none

instance (G : Grammar) : Decidable G.Unconstrained :=
  inferInstanceAs (Decidable (∀ prod ∈ G.prods, prod.constraint = none))

lemma Production.permits_of_unconstrained {prod : Production} (h : prod.constraint = none)
    (c : ReturnContext) : prod.permits c = true := by
  simp [Production.permits, Production.verdict, h]

/-- The trees are permitted derivations of the symbols, over contiguous ranges from `lo` to `hi`. -/
inductive Grammar.DerivesAll (G : Grammar) (w : List Token) :
    List Symbol → (lo hi : Nat) → List Tree → Prop where
  | nil {lo : Nat} (hlo : lo ≤ w.length) : DerivesAll G w [] lo lo []
  | terminal {body : List Symbol} {lo hi : Nat} {ts : List Tree} {u : Token} (hu : w[lo]? = some u)
      (h : DerivesAll G w body (lo + 1) hi ts) :
      DerivesAll G w (.terminal u.kind :: body) lo hi (.token lo u :: ts)
  | nonterminal {body : List Symbol} {lo mid hi : Nat} {ts : List Tree} {n : NonTerminal} {t : Tree}
      (ht : G.Derives w n lo mid t) (h : DerivesAll G w body mid hi ts) :
      DerivesAll G w (.nonterminal n :: body) lo hi (t :: ts)

@[simp]
lemma derivesAll_nil_iff : G.DerivesAll w [] lo hi ts ↔ hi = lo ∧ ts = [] ∧ lo ≤ w.length := by
  constructor
  · rintro ⟨hlo⟩
    exact ⟨rfl, rfl, hlo⟩
  · rintro ⟨rfl, rfl, hlo⟩
    exact .nil hlo

@[simp]
lemma derivesAll_terminal_iff :
    G.DerivesAll w (.terminal k :: body) lo hi ts ↔ ∃ u us, w[lo]? = some u ∧ u.kind = k ∧
      ts = .token lo u :: us ∧ G.DerivesAll w body (lo + 1) hi us := by
  constructor
  · intro h
    cases h with
    | terminal hu h => exact ⟨_, _, hu, rfl, rfl, h⟩
  · rintro ⟨u, us, hu, rfl, rfl, h⟩
    exact .terminal hu h

@[simp]
lemma derivesAll_nonterminal_iff :
    G.DerivesAll w (.nonterminal n :: body) lo hi ts ↔ ∃ mid t us, G.Derives w n lo mid t ∧
      ts = t :: us ∧ G.DerivesAll w body mid hi us := by
  constructor
  · intro h
    cases h with
    | nonterminal ht h => exact ⟨_, _, _, ht, rfl, h⟩
  · rintro ⟨mid, t, us, ht, rfl, h⟩
    exact .nonterminal ht h

lemma Grammar.DerivesAll.le (h : G.DerivesAll w body lo hi ts) : lo ≤ hi ∧ hi ≤ w.length := by
  induction h with
  | nil hlo => exact ⟨Nat.le_refl _, hlo⟩
  | terminal _ _ ih => exact ⟨Nat.le_of_succ_le ih.1, ih.2⟩
  | nonterminal ht _ ih => exact ⟨Nat.le_trans ht.le.1 ih.1, ih.2⟩

lemma derivesAll_append_iff :
    G.DerivesAll w (body ++ body') lo hi ts ↔ ∃ mid us vs, ts = us ++ vs ∧
      G.DerivesAll w body lo mid us ∧ G.DerivesAll w body' mid hi vs := by
  constructor
  · intro h
    induction body generalizing lo ts with
    | nil => exact ⟨lo, [], ts, rfl, .nil (Nat.le_trans h.le.1 h.le.2), h⟩
    | cons s body ih =>
      cases h with
      | terminal hu h =>
        obtain ⟨mid, us, vs, rfl, hus, hvs⟩ := ih h
        exact ⟨mid, _, vs, rfl, .terminal hu hus, hvs⟩
      | nonterminal ht h =>
        obtain ⟨mid, us, vs, rfl, hus, hvs⟩ := ih h
        exact ⟨mid, _, vs, rfl, .nonterminal ht hus, hvs⟩
  · rintro ⟨mid, us, vs, rfl, hus, hvs⟩
    induction hus with
    | nil => exact hvs
    | terminal hu _ ih => exact .terminal hu (ih hvs)
    | nonterminal ht _ ih => exact .nonterminal ht (ih hvs)

lemma derivesAll_token_iff :
    G.DerivesAll w [.terminal k] lo hi ts ↔
      ∃ u, w[lo]? = some u ∧ u.kind = k ∧ hi = lo + 1 ∧ ts = [.token lo u] := by
  constructor
  · intro h
    obtain ⟨u, us, hu, hk, rfl, hnil⟩ := derivesAll_terminal_iff.1 h
    obtain ⟨rfl, rfl, -⟩ := derivesAll_nil_iff.1 hnil
    exact ⟨u, hu, hk, rfl, rfl⟩
  · rintro ⟨u, hu, rfl, rfl, rfl⟩
    exact .terminal hu (.nil (List.getElem?_eq_some_iff.1 hu).1)

lemma derivesAll_phrase_iff :
    G.DerivesAll w [.nonterminal n] lo hi ts ↔ ∃ t, G.Derives w n lo hi t ∧ ts = [t] := by
  constructor
  · intro h
    obtain ⟨mid, t, us, ht, rfl, hnil⟩ := derivesAll_nonterminal_iff.1 h
    obtain ⟨rfl, rfl, -⟩ := derivesAll_nil_iff.1 hnil
    exact ⟨t, ht, rfl⟩
  · rintro ⟨t, ht, rfl⟩
    exact .nonterminal ht (.nil ht.le.2)

/-- The operands and the operator of an operation. -/
lemma derivesAll_operation_iff {m : NonTerminal} :
    G.DerivesAll w [.nonterminal n, .terminal k, .nonterminal m] lo hi ts ↔
      ∃ mid u t t', G.Derives w n lo mid t ∧ w[mid]? = some u ∧ u.kind = k ∧
        G.Derives w m (mid + 1) hi t' ∧ ts = [t, .token mid u, t'] := by
  constructor
  · intro h
    obtain ⟨mid, t, us, ht, rfl, hus⟩ := derivesAll_nonterminal_iff.1 h
    obtain ⟨u, vs, hu, hk, rfl, hvs⟩ := derivesAll_terminal_iff.1 hus
    obtain ⟨t', ht', rfl⟩ := derivesAll_phrase_iff.1 hvs
    exact ⟨mid, u, t, t', ht, hu, hk, ht', rfl⟩
  · rintro ⟨mid, u, t, t', ht, hu, rfl, ht', rfl⟩
    exact .nonterminal ht (.terminal hu (derivesAll_phrase_iff.2 ⟨t', ht', rfl⟩))

/-- Terminals match one token each. -/
lemma Grammar.DerivesAll.hi_eq (h : G.DerivesAll w body lo hi ts)
    (hbody : ∀ s ∈ body, s.terminal?.isSome) : hi = lo + body.length := by
  induction h with
  | nil => rfl
  | terminal _ _ ih =>
    rw [ih fun s hs => hbody s (List.mem_cons_of_mem _ hs), List.length_cons]
    omega
  | nonterminal => simp [Symbol.terminal?] at hbody

/-- Without a constraint, the symbols before a dot have derivations one after the other. -/
lemma spans_iff_derivesAll (hp : G.prods[p]? = some prod) (hc : prod.constraint = none)
    (hdot : dot ≤ prod.body.length) :
    Spans G w (.item p dot) lo hi ts ↔ G.DerivesAll w (prod.body.take dot) lo hi ts := by
  induction dot generalizing hi ts with
  | zero => rw [spans_enter_iff hp, List.take_zero, derivesAll_nil_iff]
  | succ dot ih =>
    obtain ⟨s, hs⟩ : ∃ s, prod.body[dot]? = some s := ⟨_, List.getElem?_eq_getElem hdot⟩
    have hsym : G.symbolAt? p dot = some s := by rw [Grammar.symbolAt?_eq hp, hs]
    have ih {hi : Nat} {ts : List Tree} : Spans G w (.item p dot) lo hi ts ↔
        G.DerivesAll w (prod.body.take dot) lo hi ts := ih (Nat.le_of_succ_le hdot)
    rw [List.take_add_one, hs, Option.toList_some, derivesAll_append_iff]
    cases s with
    | terminal k =>
      rw [spans_scan_iff hsym]
      constructor
      · rintro ⟨i, us, u, rfl, rfl, h, hu, rfl⟩
        exact ⟨i, us, _, rfl, ih.1 h,
          .terminal hu (.nil (List.getElem?_eq_some_iff.1 hu).1)⟩
      · rintro ⟨i, us, vs, rfl, h, hvs⟩
        obtain ⟨u, us', hu, hk, rfl, hnil⟩ := derivesAll_terminal_iff.1 hvs
        obtain ⟨rfl, rfl, -⟩ := derivesAll_nil_iff.1 hnil
        exact ⟨i, us, u, rfl, rfl, ih.2 h, hu, hk⟩
    | nonterminal n =>
      rw [spans_resume_iff hp hs]
      constructor
      · rintro ⟨mid, us, t, rfl, h, ht, -⟩
        exact ⟨mid, us, _, rfl, ih.1 h, .nonterminal ht (.nil ht.le.2)⟩
      · rintro ⟨mid, us, vs, rfl, h, hvs⟩
        obtain ⟨hi, t, us', ht, rfl, hnil⟩ := derivesAll_nonterminal_iff.1 hvs
        obtain ⟨rfl, rfl, -⟩ := derivesAll_nil_iff.1 hnil
        exact ⟨mid, us, t, rfl, ih.2 h, ht, prod.permits_of_unconstrained hc _⟩

/-- Without constraints, a nonterminal has the derivations that the bodies of its productions
have. -/
lemma derives_iff_body (hfree : G.Unconstrained) :
    G.Derives w n lo hi t ↔ ∃ p prod ts, G.prods[p]? = some prod ∧ prod.head = n ∧
      G.DerivesAll w prod.body lo hi ts ∧ t = .node n p lo hi (Tree.childrenOf lo ts) := by
  rw [derives_iff_production]
  refine exists_congr fun p => exists_congr fun prod => exists_congr fun ts =>
    and_congr_right fun hp => ?_
  rw [spans_iff_derivesAll hp (hfree prod (List.mem_of_getElem? hp)) (Nat.le_refl _),
    List.take_length]

end ParseForest
