import ParseForest.Proofs.Grammar.Bodies
import ParseForest.Proofs.Grammar.Erasing
import ParseForest.Proofs.Recognition.Antecedents

/-!
# Completions over nothing

A derivation that ends where it begins reads no token, so it is made of productions of nonterminals
only, and without constraints any such derivation of productions is permitted. A column therefore
holds the finish of a predicted nonterminal over nothing exactly if the nonterminal is nullable.
-/

namespace ParseForest

variable {G : Grammar} {w : List Token} {n : NonTerminal} {i : Nat}

/-- What a vertex has behind it can be empty: the symbols before the dot of an item are nonterminals
that derive nothing, and so is the nonterminal of a finish. -/
def Vertex.Erased (G : Grammar) : Vertex → Prop
  | .start _ => True
  | .finish n => Erases G.prods n
  | .item p dot =>
    ∀ (i : Nat) (s : Symbol), i < dot → G.symbolAt? p i = some s →
      ∃ n, s = .nonterminal n ∧ Erases G.prods n

/-- What reads no token is made of nonterminals that derive nothing. -/
lemma Spans.erased {v : Vertex} {lo hi : Nat} {ts : List Tree} (h : Spans G w v lo hi ts)
    (hle : hi ≤ lo) : v.Erased G := by
  induction h with
  | enter hp hlo => exact fun i s hi => absurd hi (Nat.not_lt_zero i)
  | scan h hs ht ih =>
    have := h.le.1
    omega
  | @resume p dot lo mid hi prod n ts t h hp hs hn hc ih ihn =>
    have hmid := h.le.1
    have hhi := hn.le.1
    intro i s hi hsym
    rcases Nat.lt_succ_iff_lt_or_eq.1 hi with hlt | rfl
    · exact ih (Nat.le_trans hhi hle) i s hlt hsym
    · rw [Grammar.symbolAt?_eq hp, hs] at hsym
      obtain rfl := Option.some.inj hsym
      exact ⟨n, rfl, ihn (Nat.le_trans hle hmid)⟩
  | @exit p lo hi prod ts hp h ih =>
    have hbody (s : Symbol) (hs : s ∈ prod.body) : ∃ n, s = .nonterminal n ∧ Erases G.prods n := by
      obtain ⟨i, hi⟩ := List.mem_iff_getElem?.1 hs
      refine ih hle i s (List.getElem?_eq_some_iff.1 hi).1 ?_
      rw [Grammar.symbolAt?_eq hp, hi]
    refine .intro (List.mem_of_getElem? hp) (fun t ht => ?_) fun n hn => ?_
    · obtain ⟨n, heq, -⟩ := hbody _ ht
      cases heq
    · obtain ⟨m, heq, hm⟩ := hbody _ hn
      cases heq
      exact hm

/-- If the nonterminals of a body derive nothing somewhere, so do the symbols before each dot. -/
lemma Grammar.matches_of_erases (hfree : G.Unconstrained) {p : Nat} {prod : Production}
    (hp : G.prods[p]? = some prod) (ht : ∀ t, Symbol.terminal t ∉ prod.body)
    (hn : ∀ n, Symbol.nonterminal n ∈ prod.body → ∃ t, G.Derives w n i i t) (hi : i ≤ w.length)
    {dot : Nat} (hdot : dot ≤ prod.body.length) : G.Matches w p dot i i := by
  induction dot with
  | zero => exact ⟨[], .enter hp hi⟩
  | succ dot ih =>
    obtain ⟨ts, hts⟩ := ih (Nat.le_of_succ_le hdot)
    have hs : prod.body[dot]? = some prod.body[dot] := List.getElem?_eq_getElem hdot
    have hmem : prod.body[dot] ∈ prod.body := List.getElem_mem hdot
    cases hsym : prod.body[dot] with
    | terminal t =>
      rw [hsym] at hmem
      exact absurd hmem (ht t)
    | nonterminal n =>
      rw [hsym] at hs hmem
      obtain ⟨t, hd⟩ := hn n hmem
      have hperm := Production.permits_of_unconstrained (hfree prod (List.mem_of_getElem? hp))
      exact ⟨_, .resume hts hp hs hd (hperm _)⟩

/-- Without constraints, a nonterminal that derives nothing has a derivation over nothing at each
position. -/
lemma Erases.exists_derives (hfree : G.Unconstrained) (h : Erases G.prods n) (hi : i ≤ w.length) :
    ∃ t, G.Derives w n i i t := by
  induction h with
  | intro hmem ht _ ih =>
    obtain ⟨p, hp⟩ := List.mem_iff_getElem?.1 hmem
    obtain ⟨ts, hts⟩ := Grammar.matches_of_erases hfree hp ht ih hi (Nat.le_refl _)
    exact ⟨_, .exit hp hts⟩

lemma exists_derives_iff_isNullable (hfree : G.Unconstrained) (hi : i ≤ w.length) :
    (∃ t, G.Derives w n i i t) ↔ G.isNullable (.nonterminal n) = true := by
  rw [Grammar.isNullable_nonterminal_iff]
  constructor
  · rintro ⟨t, hd⟩
    exact Spans.erased hd (Nat.le_refl i)
  · exact fun h => h.exists_derives hfree hi

/-- A column that holds the start of a nonterminal holds its finish over nothing exactly if the
nonterminal has a derivation over nothing there. -/
lemma Parsing.Complete.holds_empty_iff {P : Parsing} (hP : P.Complete) {o : Nat}
    (hstart : P.chart.Holds ⟨.start n, o, i⟩) :
    P.chart.Holds ⟨.finish n, i, i⟩ ↔ ∃ t, P.grammar.Derives P.tokens n i i t := by
  obtain ⟨rfl, hpred⟩ := valid_start_iff.1 (hP.holds_iff.1 hstart)
  rw [hP.holds_iff, valid_finish_iff]
  exact and_iff_right hpred

/-- In a grammar without constraints the nullable set and the charts agree: a column that holds the
start of a nonterminal holds its finish over nothing exactly if the nonterminal is nullable, and the
empty input is recognized exactly if the start symbol is nullable. -/
theorem holds_empty_finish_iff_isNullable {start : NonTerminal} {rules : List RuleDecl}
    (hG : Grammar.build start rules = .ok G) (hfree : G.Unconstrained) :
    (∀ (w : List Token) (P : Parsing), (G.recognize w).result = .ok P →
      ∀ (n : NonTerminal) (o i : Nat), P.chart.Holds ⟨.start n, o, i⟩ →
        (P.chart.Holds ⟨.finish n, i, i⟩ ↔ G.isNullable (.nonterminal n) = true)) ∧
      ((∃ P, (G.recognize []).result = .ok P) ↔ G.isNullable (.nonterminal G.start) = true) := by
  have hclosed := Grammar.closed_of_build hG
  refine ⟨fun w P hP n o i hstart => ?_, ?_⟩
  · obtain ⟨rfl, rfl, hc⟩ := complete_of_recognize hclosed hP
    have hi : i ≤ P.tokens.length := (hc.holds_iff.1 hstart).bounds.2
    rw [hc.holds_empty_iff hstart, exists_derives_iff_isNullable hfree hi]
  · rw [← exists_derives_iff_isNullable (w := []) hfree (Nat.zero_le _)]
    constructor
    · rintro ⟨P, hP⟩
      obtain ⟨hgrammar, htokens, hc⟩ := complete_of_recognize hclosed hP
      have hacc := hc.accepts
      rwa [hgrammar, htokens] at hacc
    · exact exists_recognize_of_accepts hclosed

/-- `S => A B; A => B; B => ε | C; C => c` makes the empty input a phrase, and of the phrases that
are predicted there `B` is complete over nothing and `C` is not. -/
theorem holds_empty_finish_transitiveNullable :
    Grammar.build ⟨"S"⟩
        [Samples.rule "S" [[Samples.nt "A", Samples.nt "B"]], Samples.rule "A" [[Samples.nt "B"]],
          Samples.rule "B" [[], [Samples.nt "C"]], Samples.rule "C" [[Samples.tm "c"]]]
        = .ok Samples.transitiveNullable ∧
      Samples.transitiveNullable.Unconstrained ∧
      ∃ P, (Samples.transitiveNullable.recognize []).result = .ok P ∧
        P.chart.Holds ⟨.start ⟨"C"⟩, 0, 0⟩ ∧ P.chart.Holds ⟨.finish ⟨"B"⟩, 0, 0⟩ ∧
        ¬ P.chart.Holds ⟨.finish ⟨"C"⟩, 0, 0⟩ := by
  have hbuild : Grammar.build ⟨"S"⟩
      [Samples.rule "S" [[Samples.nt "A", Samples.nt "B"]], Samples.rule "A" [[Samples.nt "B"]],
        Samples.rule "B" [[], [Samples.nt "C"]], Samples.rule "C" [[Samples.tm "c"]]]
      = .ok Samples.transitiveNullable := rfl
  have hfree : Samples.transitiveNullable.Unconstrained := by decide
  obtain ⟨hchart, hempty⟩ := holds_empty_finish_iff_isNullable hbuild hfree
  obtain ⟨P, hP⟩ := hempty.2 (by decide +kernel)
  obtain ⟨hgrammar, htokens, hc⟩ := complete_of_recognize (Grammar.closed_of_build hbuild) hP
  have hbegun (p : Nat) (prod : Production) (hp : Samples.transitiveNullable.prods[p]? = some prod) :
      Samples.transitiveNullable.Matches [] p 0 0 0 := ⟨[], .enter hp (Nat.zero_le _)⟩
  have hA : Predicted Samples.transitiveNullable [] ⟨"A"⟩ 0 :=
    .call (p := 0) rfl .start (hbegun 0 _ rfl) rfl
  have hB : Predicted Samples.transitiveNullable [] ⟨"B"⟩ 0 :=
    .call (p := 1) rfl hA (hbegun 1 _ rfl) rfl
  have hC : Predicted Samples.transitiveNullable [] ⟨"C"⟩ 0 :=
    .call (p := 3) rfl hB (hbegun 3 _ rfl) rfl
  have hstart {n : NonTerminal} (hn : Predicted Samples.transitiveNullable [] n 0) :
      P.chart.Holds ⟨.start n, 0, 0⟩ := by
    rw [hc.holds_iff, hgrammar, htokens]
    exact .start hn
  refine ⟨hbuild, hfree, P, hP, hstart hC, ?_, ?_⟩
  · exact (hchart [] P hP ⟨"B"⟩ 0 0 (hstart hB)).2 (by decide +kernel)
  · rw [hchart [] P hP ⟨"C"⟩ 0 0 (hstart hC)]
    decide +kernel

end ParseForest
