import ParseForest.Proofs.Grammar.Bodies
import ParseForest.Proofs.Recognition.Ambiguity
import ParseForest.Proofs.Tree.Unique

/-!
# Inputs without a choice

An input in which nothing is locally ambiguous is not reported ambiguous, and its tree is built.
Local ambiguity is about the beginnings of phrases too, whether or not they are ever completed. So
there is none if phrases have one derivation each and the symbols before a nonterminal inside of a
body end at one place, `Grammar.exists_tree_of_derivesUniquely`.
-/

namespace ParseForest

variable {G : Grammar} {w : List Token}

namespace Grammar

/-- No phrase has two derivations. -/
def DerivesUniquely (G : Grammar) (w : List Token) : Prop :=
  ∀ n lo hi t t', G.Derives w n lo hi t → G.Derives w n lo hi t' → t = t'

/-- Where a nonterminal is followed by more of a body, the symbols before it end at one place. -/
def EndsUniquely (G : Grammar) (w : List Token) : Prop :=
  ∀ p prod dot n, G.prods[p]? = some prod → prod.body[dot]? = some (.nonterminal n) →
    dot + 1 < prod.body.length → ∀ lo mid mid' ts ts', Spans G w (.item p dot) lo mid ts →
      Spans G w (.item p dot) lo mid' ts' → mid = mid'

/-- The derivations of two productions of a nonterminal are different. -/
lemma DerivesUniquely.not_completesTwice (h : G.DerivesUniquely w) (j k : Nat) :
    ¬ G.CompletesTwice w j k := by
  rintro ⟨p, q, prod, prod', hne, hp, hq, hhead, hv, hv'⟩
  obtain ⟨-, ts, hts⟩ := (valid_item_iff hp).1 hv
  obtain ⟨-, us, hus⟩ := (valid_item_iff hq).1 hv'
  have ht' : G.Derives w prod'.head j k _ := .exit hq hus
  have heq := h _ _ _ _ _ (.exit hp hts) (hhead ▸ ht')
  simp only [Tree.node.injEq] at heq
  exact hne heq.2.1

/-- A last symbol that begins at two places makes two derivations of the head. -/
lemma DerivesUniquely.not_splitsTwice (h : G.DerivesUniquely w) (hends : G.EndsUniquely w)
    (j k : Nat) : ¬ G.SplitsTwice w j k := by
  rintro ⟨p, dot, m, m', hne, ⟨prod, n, hp, hs, hv, ⟨t, ht⟩, hperm⟩,
    prod', n', hp', hs', hv', ⟨t', ht'⟩, hperm'⟩
  obtain rfl := Option.some.inj (hp.symm.trans hp')
  obtain rfl : n = n' := by simpa [hs] using hs'
  obtain ⟨-, ts, hts⟩ := (valid_item_iff hp).1 hv
  obtain ⟨-, ts', hts'⟩ := (valid_item_iff hp).1 hv'
  have hdot : dot < prod.body.length := (List.getElem?_eq_some_iff.1 hs).1
  by_cases hlast : dot + 1 < prod.body.length
  · exact hne (hends p prod dot n hp hs hlast j m m' ts ts' hts hts')
  · obtain hlen : prod.body.length = dot + 1 := Nat.le_antisymm (Nat.le_of_not_lt hlast) hdot
    have hall := Spans.resume hts hp hs ht hperm
    have hall' := Spans.resume hts' hp hs ht' hperm'
    have heq := h _ _ _ _ _ (.exit hp (hlen ▸ hall)) (.exit hp (hlen ▸ hall'))
    simp only [Tree.node.injEq] at heq
    have hchildren := TreeBuilder.childrenOf_inj
      (by rw [hall.length_eq _ _ rfl, hall'.length_eq _ _ rfl]) heq.2.2.2.2
    obtain rfl : t = t' := List.singleton_inj.1 (List.append_inj_right' hchildren rfl)
    exact hne ((derives_lo_eq ht).symm.trans (derives_lo_eq ht'))

/-- It is enough that the symbols before such a nonterminal are terminals. -/
lemma endsUniquely_of_terminals (hfree : G.Unconstrained)
    (h : ∀ prod ∈ G.prods, ∀ dot < prod.body.length - 1,
      (prod.body[dot]?.bind Symbol.nonterminal?).isSome →
        ∀ s ∈ prod.body.take dot, s.terminal?.isSome) : G.EndsUniquely w := by
  intro p prod dot n hp hs hdot lo mid mid' ts ts' hts hts'
  have hmem := List.mem_of_getElem? hp
  have hterminals := h prod hmem dot (by omega) (by simp [hs, Symbol.nonterminal?])
  rw [spans_iff_derivesAll hp (hfree prod hmem) (by omega)] at hts hts'
  rw [hts.hi_eq hterminals, hts'.hi_eq hterminals]

lemma not_locallyAmbiguous (h : G.DerivesUniquely w) (hends : G.EndsUniquely w) :
    ¬ G.LocallyAmbiguous w := by
  rintro ⟨j, k, -, hcompletes | hsplits⟩
  · exact h.not_completesTwice j k hcompletes
  · exact h.not_splitsTwice hends j k hsplits

end Grammar

/-- If nothing is locally ambiguous the test fails and the tree is built. -/
lemma Parsing.Complete.exists_tree {P : Parsing} (hP : P.Complete)
    (hno : ¬ P.grammar.LocallyAmbiguous P.tokens) :
    P.isAmbiguous = false ∧ ∃ t, P.tree = .ok t ∧
      P.grammar.Derives P.tokens P.grammar.start 0 P.tokens.length t := by
  obtain ⟨t, ht⟩ := hP.accepts
  refine ⟨by rw [← Bool.not_eq_true, hP.isAmbiguous_iff]; exact hno, ?_⟩
  rcases hP.tree_cases ht with ⟨-, t', hne, ht'⟩ | ⟨hok, -⟩
  · exact absurd (Grammar.locallyAmbiguous_of_derives_ne hne ht' ht) hno
  · exact ⟨t, hok, ht⟩

/-- An input that leaves no choice is not reported ambiguous, and its only derivation is built. -/
theorem Grammar.exists_tree_of_derivesUniquely {start : NonTerminal} {rules : List RuleDecl}
    (hG : Grammar.build start rules = .ok G) {P : Parsing} (hP : (G.recognize w).result = .ok P)
    (h : G.DerivesUniquely w) (hends : G.EndsUniquely w) :
    P.isAmbiguous = false ∧ ∃ t, P.tree = .ok t ∧ G.Derives w G.start 0 w.length t := by
  obtain ⟨rfl, rfl, hc⟩ := complete_of_recognize (Grammar.closed_of_build hG) hP
  exact hc.exists_tree (Grammar.not_locallyAmbiguous h hends)

end ParseForest
