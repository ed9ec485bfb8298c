import ParseForest.Proofs.Recognition.Acceptance
import ParseForest.Proofs.Tree.Leaves

/-!
# Errors are exact

A partial derivation has matched some tokens and has not yet expanded the symbols that follow. A
terminal is expected after the first tokens of an input if it is the first of those symbols in a
partial derivation of the start symbol. The main statements are that the columns of a chart await
exactly the expected terminals, `expects_iff_expectedAfter`, and that recognition therefore fails at
the first token that is not expected, or after the input, and reports just what was expected there.
-/

namespace ParseForest

/-! ### Partial derivations -/

/-- A derivation that has matched a part of an input. -/
inductive PartialTree where
  /-- A production with the trees of the symbols before a dot, and the symbols from the dot on. -/
  | stop (prod : Nat) (done : List Tree) (rest : List Symbol)
  /-- A production with the trees of the symbols before a nonterminal, a partial derivation of this
  nonterminal, and the symbols after it. -/
  | inside (prod : Nat) (done : List Tree) (next : PartialTree) (rest : List Symbol)

namespace PartialTree

/-- The kinds of the tokens of some trees. -/
def kinds (ts : List Tree) : List Symbol :=
  (Tree.leavesList ts).map fun leaf => .terminal leaf.1.kind

/-- The kinds of the tokens matched so far and the symbols that are not expanded, from left to
right. -/
def frontier : PartialTree → List Symbol
  | stop _ done rest => kinds done ++ rest
  | inside _ done next rest => kinds done ++ (next.frontier ++ rest)

end PartialTree

/-- Some nonterminals of a list of symbols are replaced by the bodies of their productions. -/
inductive Rewrites (G : Grammar) (s : List Symbol) : List Symbol → Prop where
  /-- Nothing is replaced. -/
  | refl : Rewrites G s s
  /-- One more nonterminal is replaced. -/
  | step {p : Nat} {prod : Production} {l r : List Symbol} (hp : G.prods[p]? = some prod)
      (h : Rewrites G s (l ++ .nonterminal prod.head :: r)) : Rewrites G s (l ++ prod.body ++ r)

/-- A partial derivation of a nonterminal that has matched the tokens from `lo` up to `hi`. What is
completed is permitted by the constraints; what follows the first symbol that is not matched may
have been expanded in any way. -/
inductive PartialTree.Derives (G : Grammar) (w : List Token) :
    NonTerminal → Nat → Nat → PartialTree → Prop where
  /-- The symbol after the dot is not expanded. -/
  | stop {p dot lo hi : Nat} {prod : Production} {ts : List Tree} {s : Symbol}
      {rest : List Symbol} (hp : G.prods[p]? = some prod) (h : Spans G w (.item p dot) lo hi ts)
      (hs : prod.body[dot]? = some s) (hr : Rewrites G (prod.body.drop (dot + 1)) rest) :
      Derives G w prod.head lo hi (.stop p ts (s :: rest))
  /-- The nonterminal after the dot is expanded. -/
  | inside {p dot lo mid hi : Nat} {prod : Production} {ts : List Tree} {n : NonTerminal}
      {next : PartialTree} {rest : List Symbol} (hp : G.prods[p]? = some prod)
      (h : Spans G w (.item p dot) lo mid ts) (hs : prod.body[dot]? = some (.nonterminal n))
      (hn : Derives G w n mid hi next) (hr : Rewrites G (prod.body.drop (dot + 1)) rest) :
      Derives G w prod.head lo hi (.inside p ts next rest)

/-- The terminal is expected after the first `k` tokens: they are followed by it in the frontier of
a partial derivation of the start symbol. -/
def ExpectedAfter (G : Grammar) (w : List Token) (k : Nat) (t : Terminal) : Prop :=
  ∃ T rest, PartialTree.Derives G w G.start 0 k T ∧
    T.frontier = (w.take k).map (fun u => .terminal u.kind) ++ .terminal t :: rest

variable {G : Grammar} {w : List Token}

lemma PartialTree.kinds_eq {v : Vertex} {lo hi : Nat} {ts : List Tree}
    (h : Spans G w v lo hi ts) :
    kinds ts = (slice w lo hi).map fun u => .terminal u.kind := by
  have hfst : (Tree.leavesList ts).map Prod.fst = slice w lo hi := by
    rw [h.leavesList_eq, List.zipIdx_map_fst]
  rw [kinds, ← hfst, List.map_map]
  rfl

/-- The frontier of a partial derivation is what it has matched, and then the symbol that some valid
item has after its dot. -/
lemma PartialTree.Derives.frontier_eq {n : NonTerminal} {lo hi : Nat} {T : PartialTree}
    (h : T.Derives G w n lo hi) (hn : Predicted G w n lo) :
    lo ≤ hi ∧ ∃ s rest, T.frontier = (slice w lo hi).map (fun u => .terminal u.kind) ++ s :: rest ∧
      ∃ p dot j, Valid G w ⟨.item p dot, j, hi⟩ ∧ G.symbolAt? p dot = some s := by
  induction h with
  | @stop p dot lo hi prod ts s rest hp hts hs hr =>
    refine ⟨hts.le.1, s, rest, by rw [frontier, kinds_eq hts], p, dot, lo, ?_, ?_⟩
    · exact .item hp hn ⟨ts, hts⟩
    · rw [Grammar.symbolAt?_eq hp, hs]
  | @inside p dot lo mid hi prod ts m next rest hp hts hs _ hr ih =>
    obtain ⟨hle, s, rest', hf, hitem⟩ := ih (.call hp hn ⟨ts, hts⟩ hs)
    refine ⟨Nat.le_trans hts.le.1 hle, s, rest' ++ rest, ?_, hitem⟩
    rw [frontier, kinds_eq hts, hf, ← slice_append w hts.le.1 hle]
    simp

/-- A partial derivation of a predicted nonterminal is part of one of the start symbol. -/
lemma expectedAfter_of_predicted {n : NonTerminal} {j k : Nat} {t : Terminal}
    (hn : Predicted G w n j) (hj : j ≤ k) {T : PartialTree} (rest : List Symbol)
    (hT : T.Derives G w n j k)
    (hf : T.frontier = (slice w j k).map (fun u => .terminal u.kind) ++ .terminal t :: rest) :
    ExpectedAfter G w k t := by
  induction hn generalizing T rest with
  | start => exact ⟨T, rest, hT, by rw [hf, slice_zero]⟩
  | @call p dot i j prod n hp _ hm hs ih =>
    obtain ⟨ts, hts⟩ := hm
    refine ih (Nat.le_trans hts.le.1 hj) (rest ++ prod.body.drop (dot + 1))
      (.inside hp hts hs hT .refl) ?_
    rw [PartialTree.frontier, PartialTree.kinds_eq hts, hf, ← slice_append w hts.le.1 hj]
    simp

/-- The columns await exactly the terminals that are expected. -/
lemma expects_iff_expectedAfter {k : Nat} {t : Terminal} :
    Expects G w k t ↔ ExpectedAfter G w k t := by
  constructor
  · rintro ⟨p, dot, j, hv, ht⟩
    cases hv with
    | @item _ _ _ _ prod hp hn hm =>
      obtain ⟨ts, hts⟩ := hm
      rw [Grammar.symbolAt?_eq hp] at ht
      refine expectedAfter_of_predicted hn hts.le.1 (prod.body.drop (dot + 1))
        (.stop hp hts ht .refl) ?_
      rw [PartialTree.frontier, PartialTree.kinds_eq hts]
  · rintro ⟨T, rest, hT, hf⟩
    obtain ⟨-, s, rest', hf', p, dot, j, hv, hs⟩ := hT.frontier_eq .start
    rw [hf', slice_zero] at hf
    obtain ⟨rfl, -⟩ := List.cons.inj (List.append_cancel_left hf)
    exact ⟨p, dot, j, hv, hs⟩

/-! ### Errors -/

/-- The token at a position is not expected there. -/
def Unexpected (G : Grammar) (w : List Token) (k : Nat) : Prop :=
  ∃ t, w[k]? = some t ∧ ¬ ExpectedAfter G w k t.kind

lemma Filled.mem_expected_iff_expectedAfter {c : Chart} {k : Nat} (h : Filled G w k c)
    {t : Terminal} : t ∈ c.expected G k ↔ ExpectedAfter G w k t :=
  (h.mem_expected_iff (Nat.le_refl _)).trans expects_iff_expectedAfter

/-- The report of a recognition that fails. -/
lemma recognize_error_cases (hG : G.Closed) (hrej : ¬ G.Accepts w) :
    (∃ p t c, (G.recognize w).result = .error (.unexpectedToken p t (c.expected G p)) ∧
        Filled G w p c ∧ w[p]? = some t ∧ ¬ ExpectedAfter G w p t.kind ∧
        ∀ q < p, ¬ Unexpected G w q) ∨
      (w = [] ∧ (G.recognize w).result = .error .noInput) ∨
      ∃ t c, (G.recognize w).result =
          .error (.prematureEnd (w.length - 1) t (c.expected G w.length)) ∧
        Filled G w w.length c ∧ w.getLast? = some t ∧ ∀ q, ¬ Unexpected G w q := by
  rcases recognize_cases hG w with ⟨p, t, c, hres, hc, ht, hno, hbefore⟩ | ⟨s, hs, hres, hall⟩
  · refine Or.inl ⟨p, t, c, hres, hc, ht, mt expects_iff_expectedAfter.2 hno, fun q hq => ?_⟩
    rintro ⟨u, hu, hu'⟩
    exact hu' (expects_iff_expectedAfter.1 (hbefore q hq u hu))
  · have hnone : s.chart.find? (.finish G.start) 0 w.length = none :=
      hs.indexed.find?_eq_none_iff.2 fun h => hrej (hs.holds_accepting_iff.1 h)
    rw [Grammar.conclude, hnone] at hres
    refine Or.inr ?_
    cases hlast : w.getLast? with
    | none =>
      rw [hlast] at hres
      exact Or.inl ⟨List.getLast?_eq_none_iff.1 hlast, hres⟩
    | some t =>
      rw [hlast] at hres
      refine Or.inr ⟨t, s.chart, hres, hs, rfl, ?_⟩
      rintro q ⟨u, hu, hu'⟩
      exact hu' (expects_iff_expectedAfter.1 (hall q u hu))

/-- Errors are exact. Recognition of an input that is not accepted fails with an unexpected token at
the least position whose token is not expected, for lack of input exactly if there is none, and with
a premature end exactly if there is input and every token is expected at its place; and it reports
the set of the terminals that are expected there. -/
theorem recognize_error_exact {start : NonTerminal} {rules : List RuleDecl}
    (hG : Grammar.build start rules = .ok G)
    (hrej : ¬ ∃ t, G.Derives w G.start 0 w.length t) :
    ∃ e, (G.recognize w).result = .error e ∧
      (∀ p, (∃ t expected, e = .unexpectedToken p t expected) ↔
        Unexpected G w p ∧ ∀ q < p, ¬ Unexpected G w q) ∧
      (e = .noInput ↔ w = []) ∧
      ((∃ p t expected, e = .prematureEnd p t expected) ↔
        w ≠ [] ∧ ∀ q, ¬ Unexpected G w q) ∧
      (∀ p t expected, e = .unexpectedToken p t expected →
        w[p]? = some t ∧ Ordered.Increasing expected ∧
          ∀ u, u ∈ expected ↔ ExpectedAfter G w p u) ∧
      ∀ p t expected, e = .prematureEnd p t expected →
        p + 1 = w.length ∧ w[p]? = some t ∧ Ordered.Increasing expected ∧
          ∀ u, u ∈ expected ↔ ExpectedAfter G w w.length u := by
  rcases recognize_error_cases (Grammar.closed_of_build hG) hrej with
    ⟨p, t, c, hres, hc, ht, hno, hbefore⟩ | ⟨rfl, hres⟩ | ⟨t, c, hres, hc, hlast, hall⟩
  · have hlt : p < w.length := (List.getElem?_eq_some_iff.1 ht).1
    refine ⟨_, hres, fun q => ⟨?_, ?_⟩, ⟨nofun, ?_⟩, ⟨nofun, ?_⟩, ?_, nofun⟩
    · rintro ⟨u, expected, he⟩
      cases he
      exact ⟨⟨t, ht, hno⟩, hbefore⟩
    · -- Two least positions are the same.
      rintro ⟨hq, hleast⟩
      have hpq : p ≤ q := Nat.le_of_not_lt fun h => hbefore q h hq
      have hqp : q ≤ p := Nat.le_of_not_lt fun h => hleast p h ⟨t, ht, hno⟩
      obtain rfl := Nat.le_antisymm hpq hqp
      exact ⟨_, _, rfl⟩
    · rintro rfl
      cases hlt
    · exact fun h => absurd ⟨t, ht, hno⟩ (h.2 p)
    · intro q u expected he
      cases he
      exact ⟨ht, Ordered.increasing_ofList _, fun u =>
        hc.mem_expected_iff_expectedAfter⟩
  · refine ⟨_, hres, fun p => ⟨nofun, ?_⟩, by simp, ⟨nofun, by simp⟩, nofun, nofun⟩
    rintro ⟨⟨t, ht, -⟩, -⟩
    cases ht
  · have hne : w ≠ [] := by
      rintro rfl
      cases hlast
    refine ⟨_, hres, fun p => ⟨nofun, fun h => absurd h.1 (hall p)⟩, ⟨nofun, fun h => absurd h hne⟩,
      ⟨fun _ => ⟨hne, hall⟩, fun _ => ⟨_, _, _, rfl⟩⟩, nofun, ?_⟩
    intro p u expected he
    cases he
    refine ⟨?_, by rw [← hlast, List.getLast?_eq_getElem?], Ordered.increasing_ofList _, fun u =>
      hc.mem_expected_iff_expectedAfter⟩
    have := List.length_pos_of_ne_nil hne
    omega

/-- A token of a kind that the grammar does not know is unexpected at the beginning. -/
theorem recognize_error_abc :
    Grammar.build ⟨"S"⟩ [Samples.rule "S" [[Samples.nt "A"]], Samples.rule "A"
        [[Samples.tm "a", Samples.nt "A", Samples.tm "c"], [Samples.tm "b"]]] = .ok Samples.abc ∧
      (¬ ∃ t, Samples.abc.Derives [.plain "d"] Samples.abc.start 0 1 t) ∧
      ∃ expected, (Samples.abc.recognize [.plain "d"]).result =
          .error (.unexpectedToken 0 (.plain "d") expected) ∧
        ∀ u, u ∈ expected ↔ ExpectedAfter Samples.abc [.plain "d"] 0 u := by
  have hbuild : Grammar.build ⟨"S"⟩ [Samples.rule "S" [[Samples.nt "A"]], Samples.rule "A"
      [[Samples.tm "a", Samples.nt "A", Samples.tm "c"], [Samples.tm "b"]]] = .ok Samples.abc := rfl
  have hno : ¬ Expects Samples.abc [.plain "d"] 0 ⟨"d"⟩ := by
    rintro ⟨p, dot, j, -, hs⟩
    obtain ⟨prod, hp, hs⟩ := Option.bind_eq_some_iff.1 hs
    have hall : ∀ prod ∈ Samples.abc.prods, Symbol.terminal ⟨"d"⟩ ∉ prod.body := by
      simp [Samples.abc, Grammar.ofRules, RuleDecl.productions, Samples.rule, Samples.tm,
        Samples.nt]
    exact hall prod (List.mem_of_getElem? hp) (List.mem_of_getElem? hs)
  have hrej : ¬ ∃ t, Samples.abc.Derives [.plain "d"] Samples.abc.start 0 1 t := fun h =>
    hno (Grammar.Accepts.expects (w := [.plain "d"]) h (k := 0) rfl)
  obtain ⟨e, he, hun, -, -, hset, -⟩ :=
    recognize_error_exact (w := [.plain "d"]) hbuild hrej
  obtain ⟨t, expected, rfl⟩ := (hun 0).2
    ⟨⟨_, rfl, mt expects_iff_expectedAfter.2 hno⟩, fun q hq => absurd hq (Nat.not_lt_zero q)⟩
  obtain ⟨ht, -, hmem⟩ := hset 0 t expected rfl
  obtain rfl := Option.some.inj ht
  exact ⟨hbuild, hrej, expected, he, hmem⟩

end ParseForest
