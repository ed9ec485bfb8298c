import ParseForest.Grammar.Samples
import ParseForest.Proofs.Grammar.Faults
import ParseForest.Proofs.Search

/-!
# Rules of declared grammars

The rules of a grammar are the heads that were declared, each with the numbers of its productions,
and a search from the start symbol finds the heads that productions lead to. So building a grammar
checks exactly what it is to check, files each production under its head, and warns of the heads that
no chain of productions leads to, `build_exact`.
-/

namespace ParseForest

open Relation

variable {start n : NonTerminal} {rules : List RuleDecl} {G : Grammar} {e : GrammarError}
  {prod : Production}

namespace Grammar

/-! ### Rules -/

/-- A production that is added goes behind the others of its head. -/
lemma prodsOf_concat {heads : List NonTerminal} {prods : List Production} :
    prodsOf ⟨start, heads, prods ++ [prod]⟩ n =
      if n = prod.head then prodsOf ⟨start, heads, prods⟩ n ++ [prods.length]
      else prodsOf ⟨start, heads, prods⟩ n := by
  have hold : ∀ p ∈ List.range prods.length,
      ((prods ++ [prod])[p]?.any fun prod => prod.head == n) =
        prods[p]?.any fun prod => prod.head == n := by
    intro p hp
    rw [List.getElem?_append_left (List.mem_range.1 hp)]
  simp only [prodsOf, List.length_append, List.length_singleton, List.range_succ,
    List.filter_append, List.filter_congr hold]
  by_cases hn : n = prod.head
  · simp [hn]
  · simp [hn, Ne.symm hn]

/-- Each production goes to the rule of its head, in the order of the productions. -/
lemma rules_eq (hinc : Ordered.Increasing G.heads)
    (hheads : ∀ prod ∈ G.prods, prod.head ∈ G.heads) :
    G.rules = G.heads.map fun n => (n, G.prodsOf n) := by
  obtain ⟨start, heads, prods⟩ := G
  induction prods using List.reverseRecOn with
  | nil => simp [rules, prodsOf]
  | append_singleton prods prod ih =>
    have ih := ih hinc fun q hq => hheads q (List.mem_append_left _ hq)
    have hstep : rules ⟨start, heads, prods ++ [prod]⟩ =
        Ordered.file prod.head prods.length (rules ⟨start, heads, prods⟩) := by
      simp [rules, List.zipIdx_append]
    rw [hstep, ih, Ordered.file_map _ _ hinc (hheads prod (by simp))]
    simp only [prodsOf_concat]

lemma keys_rules (hinc : Ordered.Increasing G.heads)
    (hheads : ∀ prod ∈ G.prods, prod.head ∈ G.heads) : G.rules.map Prod.fst = G.heads := by
  rw [rules_eq hinc hheads, List.map_map]
  exact List.map_id _

lemma mem_rules_iff_prodsOf (hinc : Ordered.Increasing G.heads)
    (hheads : ∀ prod ∈ G.prods, prod.head ∈ G.heads) {q : NonTerminal × List Nat} :
    q ∈ G.rules ↔ q.1 ∈ G.heads ∧ q.2 = G.prodsOf q.1 := by
  rw [rules_eq hinc hheads, List.mem_map]
  constructor
  · rintro ⟨n, hn, rfl⟩
    exact ⟨hn, rfl⟩
  · rintro ⟨hn, hq⟩
    exact ⟨q.1, hn, Prod.ext rfl hq.symm⟩

/-- A production is in the rule of its head only. -/
lemma existsUnique_rule (hinc : Ordered.Increasing G.heads)
    (hheads : ∀ prod ∈ G.prods, prod.head ∈ G.heads) {p : Nat} (hp : G.prods[p]? = some prod) :
    ∃! q, q ∈ G.rules ∧ p ∈ q.2 := by
  refine ⟨(prod.head, G.prodsOf prod.head), ⟨?_, G.mem_prodsOf.2 ⟨prod, hp, rfl⟩⟩, ?_⟩
  · exact (mem_rules_iff_prodsOf hinc hheads).2 ⟨hheads prod (List.mem_of_getElem? hp), rfl⟩
  · rintro q ⟨hq, hmem⟩
    obtain ⟨-, hprods⟩ := (mem_rules_iff_prodsOf hinc hheads).1 hq
    rw [hprods] at hmem
    obtain ⟨prod', hp', hhead⟩ := G.mem_prodsOf.1 hmem
    obtain rfl := Option.some.inj (hp.symm.trans hp')
    exact Prod.ext hhead.symm (hhead ▸ hprods)

lemma increasing_prodsOf (G : Grammar) (n : NonTerminal) : (G.prodsOf n).Pairwise (· < ·) :=
  List.pairwise_lt_range.filter _

/-! ### Reachable nonterminals -/

/-- The second nonterminal is used in a production of the first. -/
def Uses (G : Grammar) (a b : NonTerminal) : Prop :=
  ∃ prod ∈ G.prods, prod.head = a ∧ .nonterminal b ∈ prod.body

lemma mem_mentions {a b : NonTerminal} : b ∈ G.mentions a ↔ G.Uses a b := by
  simp only [mentions, Uses, List.mem_flatMap, List.mem_filter, List.mem_filterMap, beq_iff_eq]
  constructor
  · rintro ⟨prod, ⟨hp, hhead⟩, s, hs, hb⟩
    cases s with
    | terminal => cases hb
    | nonterminal m =>
      cases hb
      exact ⟨prod, hp, hhead, hs⟩
  · rintro ⟨prod, hp, hhead, hb⟩
    exact ⟨prod, ⟨hp, hhead⟩, _, hb, rfl⟩

/-- The search meets what productions lead to from the start symbol. Its bound suffices, as only
heads are met. -/
lemma mem_reachable_iff (hG : G.Closed) : n ∈ G.reachable ↔ ReflTransGen G.Uses G.start n := by
  have hcard : {m | m ∈ G.heads}.ncard < G.heads.length + 1 := by
    rw [← List.coe_toFinset, Set.ncard_coe_finset]
    exact Nat.lt_succ_of_le G.heads.toFinset_card_le
  have hclosed : ∀ a ∈ {m | m ∈ G.heads}, ∀ b ∈ G.mentions a, b ∈ {m | m ∈ G.heads} := by
    intro a _ b hb
    obtain ⟨prod, hp, -, hb⟩ := mem_mentions.1 hb
    exact hG.body_mem prod hp b hb
  rw [reachable, Search.mem_breadthFirst_seen (List.finite_toSet G.heads) hclosed
    (by simpa using hG.start_mem) hcard]
  simp only [List.mem_singleton, exists_eq_left, Search.Reaches, mem_mentions]

lemma mem_unreachable_iff (hG : G.Closed) :
    n ∈ G.unreachable ↔ n ∈ G.heads ∧ ¬ ReflTransGen G.Uses G.start n := by
  simp [unreachable, mem_reachable_iff hG]

end Grammar

/-- A declaration is accepted if its start symbol and all nonterminals that are used head rules, and
refused for the first of them that does not. If it is accepted, the productions are numbered in the
order of the declarations. The rules are the heads that were declared, each with the numbers of its
productions in increasing order, and each number is in one rule. The warnings are about the heads
that productions do not lead to from the start symbol, in the order of their names. -/
theorem build_exact (start : NonTerminal) (rules : List RuleDecl) :
    ((∃ G, Grammar.build start rules = .ok G) ↔ Declares rules start ∧
      ∀ prod ∈ rules.flatMap RuleDecl.productions, ∀ n, .nonterminal n ∈ prod.body →
        Declares rules n) ∧
    (∀ e, Grammar.build start rules = .error e ↔
      ¬ Declares rules start ∧ e = .missingStartRule start ∨
      Declares rules start ∧ ∃ n user, FirstUndefined rules n user ∧
        e = .undefinedNonTerminal n user) ∧
    ∀ G, Grammar.build start rules = .ok G →
      G.start = start ∧ G.prods = rules.flatMap RuleDecl.productions ∧
      Ordered.Increasing (G.rules.map Prod.fst) ∧
      (∀ n, n ∈ G.rules.map Prod.fst ↔ Declares rules n) ∧
      (∀ q ∈ G.rules, q.2.Pairwise (· < ·)) ∧
      (∀ q ∈ G.rules, ∀ p, p ∈ q.2 ↔ ∃ prod, G.prods[p]? = some prod ∧ prod.head = q.1) ∧
      (∀ p prod, G.prods[p]? = some prod → ∃! q, q ∈ G.rules ∧ p ∈ q.2) ∧
      ∃ unreached, Ordered.Increasing unreached ∧
        (∀ n, n ∈ unreached ↔ Declares rules n ∧ ¬ ReflTransGen G.Uses start n) ∧
        G.buildLog = unreached.map fun n =>
          ⟨.warn, "Nonterminal <" ++ n.name ++ "> is unreachable from the start symbol."⟩ := by
  refine ⟨?_, fun e => ?_, fun G hG => ?_⟩
  · simp only [Grammar.build_eq_ok_iff, exists_and_left, exists_eq', and_true,
      Grammar.fault?_eq_none_iff, Grammar.mem_heads_ofRules]
    rfl
  · rw [Grammar.build_eq_error_iff, Grammar.fault?_ofRules_eq_some_iff]
  · have hclosed := Grammar.closed_of_build hG
    obtain ⟨-, rfl⟩ := Grammar.build_eq_ok_iff.1 hG
    have hinc := Ordered.increasing_ofList (rules.map (·.head))
    refine ⟨rfl, rfl, ?_, ?_, ?_, ?_, ?_, _, hinc.filter _, fun n => ?_, rfl⟩
    · rw [Grammar.keys_rules hinc hclosed.head_mem]
      exact hinc
    · intro n
      rw [Grammar.keys_rules hinc hclosed.head_mem, Grammar.mem_heads_ofRules]
    · intro q hq
      rw [((Grammar.mem_rules_iff_prodsOf hinc hclosed.head_mem).1 hq).2]
      exact Grammar.increasing_prodsOf _ _
    · intro q hq p
      rw [((Grammar.mem_rules_iff_prodsOf hinc hclosed.head_mem).1 hq).2]
      exact Grammar.mem_prodsOf _
    · exact fun p prod => Grammar.existsUnique_rule hinc hclosed.head_mem
    · have hhead : n ∈ (Grammar.ofRules start rules).heads ↔ Declares rules n :=
        Grammar.mem_heads_ofRules
      rw [← hhead]
      exact Grammar.mem_unreachable_iff hclosed

/-- A head that is declared twice has one rule, a rule may have no productions, and there is a
warning for one that the start symbol does not lead to. -/
theorem build_exact_repeated :
    let rules := [Samples.rule "S" [[Samples.nt "A"]], Samples.rule "B" [[Samples.nt "S"]],
      Samples.rule "A" [], Samples.rule "S" [[Samples.tm "a"]]]
    ∃ G, Grammar.build ⟨"S"⟩ rules = .ok G ∧
      G.rules = [(⟨"A"⟩, []), (⟨"B"⟩, [1]), (⟨"S"⟩, [0, 2])] ∧
      (∃! q, q ∈ G.rules ∧ 2 ∈ q.2) ∧
      G.buildLog = [⟨.warn, "Nonterminal <B> is unreachable from the start symbol."⟩] ∧
      ∃ n, Declares rules n ∧ ¬ ReflTransGen G.Uses ⟨"S"⟩ n := by
  intro rules
  obtain ⟨-, -, hok⟩ := build_exact ⟨"S"⟩ rules
  obtain ⟨-, -, -, -, -, -, hunique, unreached, -, hunreached, hlog⟩ := hok _ rfl
  have hwarning : (Grammar.ofRules ⟨"S"⟩ rules).buildLog =
      [⟨.warn, "Nonterminal <B> is unreachable from the start symbol."⟩] := by decide
  obtain ⟨n, hn⟩ : ∃ n, n ∈ unreached := by
    refine List.exists_mem_of_ne_nil _ ?_
    rintro rfl
    simp [hwarning] at hlog
  exact ⟨_, rfl, by decide, hunique 2 _ rfl, hwarning, n, (hunreached n).1 hn⟩

end ParseForest
