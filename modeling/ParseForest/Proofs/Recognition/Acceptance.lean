import ParseForest.Proofs.Recognition.Columns
import ParseForest.Grammar.Samples

/-!
# Recognition is sound and complete

An input is recognized if and only if the start symbol has a permitted derivation over it, and the
parse then points at the finish of the start symbol over the whole input.
-/

namespace ParseForest

variable {G : Grammar} {w : List Token}

/-- A derivation of the whole input expects each token at its place. -/
lemma Grammar.Accepts.expects (h : G.Accepts w) {k : Nat} {t : Token} (ht : w[k]? = some t) :
    Expects G w k t.kind := by
  obtain ⟨T, hT⟩ := h
  exact hT.expects rfl .start (Nat.zero_le _) (List.getElem?_eq_some_iff.1 ht).1 ht

/-- A filled chart has the finish of the start symbol if the input has a derivation. -/
lemma Filled.holds_accepting_iff {c : Chart} (h : Filled G w w.length c) :
    c.Holds ⟨.finish G.start, 0, w.length⟩ ↔ G.Accepts w := by
  rw [h.holds_iff, valid_finish_iff]
  constructor
  · exact fun hv => hv.1.2
  · exact fun ht => ⟨⟨.start, ht⟩, Nat.le_refl _⟩

/-- A parse holds a filled chart and the entry of the start symbol over the whole input. -/
structure Parsing.Complete (P : Parsing) : Prop where
  filled : Filled P.grammar P.tokens P.tokens.length P.chart
  accepting : P.chart.place? P.accepting = some ⟨.finish P.grammar.start, 0, P.tokens.length⟩

/-- What the recognition of an input yields. -/
lemma complete_of_recognize (hG : G.Closed) {P : Parsing} (h : (G.recognize w).result = .ok P) :
    P.grammar = G ∧ P.tokens = w ∧ P.Complete := by
  rcases recognize_cases hG w with ⟨p, t, c, hres, -⟩ | ⟨s, hs, hres, -⟩
  · rw [hres] at h
    cases h
  · rw [hres, Grammar.conclude] at h
    split at h
    · next accepting hacc =>
      obtain rfl := Except.ok.inj h
      exact ⟨rfl, rfl, hs, hs.indexed.find?_eq_some_iff.1 hacc⟩
    · split at h <;> cases h

/-- An input that has a derivation is recognized. -/
lemma exists_recognize_of_accepts (hG : G.Closed) (h : G.Accepts w) :
    ∃ P, (G.recognize w).result = .ok P := by
  rcases recognize_cases hG w with ⟨p, t, c, -, -, ht, hno, -⟩ | ⟨s, hs, hres, -⟩
  · exact absurd (h.expects ht) hno
  · obtain ⟨id, hid⟩ := hs.holds_accepting_iff.2 h
    refine ⟨⟨G, w, s.chart, id⟩, ?_⟩
    rw [hres, Grammar.conclude, hs.indexed.find?_eq_some_iff.2 hid]

lemma Parsing.Complete.accepts {P : Parsing} (h : P.Complete) : P.grammar.Accepts P.tokens :=
  h.filled.holds_accepting_iff.1 ⟨_, h.accepting⟩

lemma Parsing.Complete.columns_size {P : Parsing} (h : P.Complete) :
    P.chart.columns.size = P.tokens.length + 1 :=
  h.filled.choose_spec.columns_size

/-- The last column of a complete parse is not empty. -/
lemma Parsing.Complete.finish_eq {P : Parsing} (h : P.Complete) : P.finish = P.tokens.length := by
  have hmem : P.accepting ∈ P.chart.ids P.tokens.length :=
    h.filled.indexed.mem_ids_iff.2 ⟨_, _, h.accepting⟩
  have hne : (P.chart.ids P.tokens.length).isEmpty = false := by
    rw [List.isEmpty_eq_false_iff_exists_mem]
    exact ⟨_, hmem⟩
  rw [Parsing.finish, Chart.lastNonEmpty?, h.columns_size, List.range_succ, List.reverse_append]
  simp [hne]

/-- What a run yields passes a test. -/
lemma any_toOption_iff {ε α : Type} {r : Except ε α} {test : α → Bool} :
    r.toOption.any test = true ↔ ∃ a, r = .ok a ∧ test a = true := by
  cases r with
  | error e => exact iff_of_false nofun nofun
  | ok a => simp [Except.toOption]

lemma isSome_toOption_iff {ε α : Type} {r : Except ε α} :
    r.toOption.isSome = true ↔ ∃ a, r = .ok a := by
  cases r with
  | error e => exact iff_of_false nofun nofun
  | ok a => exact iff_of_true rfl ⟨a, rfl⟩

/-- The cyclic grammar derives one token, by the production that does not call the nonterminal. -/
lemma accepts_cyclic : Samples.cyclic.Accepts [.plain "a"] := by
  have hprod : Samples.cyclic.prods[1]? = some ⟨⟨"A"⟩, [Samples.tm "a"], none⟩ := rfl
  exact ⟨_, .exit hprod (.scan (.enter rfl (Nat.zero_le _)) rfl rfl)⟩

/-- An input is recognized exactly if the start symbol has a permitted derivation over it; the
accepting entry is then the finish of the start symbol with origin 0 in the last column, and the
parse covers the whole input. -/
theorem recognize_ok_iff_accepts {start : NonTerminal} {rules : List RuleDecl}
    (hG : Grammar.build start rules = .ok G) (w : List Token) :
    ((∃ P, (G.recognize w).result = .ok P) ↔ ∃ t, G.Derives w G.start 0 w.length t) ∧
      ∀ P, (G.recognize w).result = .ok P →
        P.finish = w.length ∧ ∃ e, P.chart.entries[P.accepting]? = some e ∧
          e.vertex = .finish G.start ∧ e.origin = 0 ∧ e.column = w.length := by
  have hG := Grammar.closed_of_build hG
  refine ⟨⟨?_, exists_recognize_of_accepts hG⟩, fun P hP => ?_⟩
  · rintro ⟨P, hP⟩
    obtain ⟨rfl, rfl, hc⟩ := complete_of_recognize hG hP
    exact hc.accepts
  · obtain ⟨rfl, rfl, hc⟩ := complete_of_recognize hG hP
    obtain ⟨e, he, hpe⟩ := Chart.place?_eq_some.1 hc.accepting
    simp only [Entry.place, Place.mk.injEq] at hpe
    exact ⟨hc.finish_eq, e, he, hpe⟩

/-- The cyclic grammar recognizes the token that it derives in infinitely many ways. -/
theorem recognize_ok_cyclic :
    Grammar.build ⟨"A"⟩ [Samples.rule "A" [[Samples.nt "A"], [Samples.tm "a"]]]
        = .ok Samples.cyclic ∧
      ∃ P, (Samples.cyclic.recognize [.plain "a"]).result = .ok P ∧ P.finish = 1 := by
  have hbuild : Grammar.build ⟨"A"⟩ [Samples.rule "A" [[Samples.nt "A"], [Samples.tm "a"]]]
      = .ok Samples.cyclic := rfl
  have hspec := recognize_ok_iff_accepts hbuild [.plain "a"]
  have hbase : Spans Samples.cyclic [.plain "a"] (.item 1 1) 0 1 [.token 0 (.plain "a")] :=
    .scan (.enter rfl (Nat.zero_le _)) rfl rfl
  have hprod : Samples.cyclic.prods[1]? = some ⟨⟨"A"⟩, [Samples.tm "a"], none⟩ := rfl
  obtain ⟨P, hP⟩ := hspec.1.2 ⟨_, .exit hprod hbase⟩
  exact ⟨hbuild, P, hP, (hspec.2 P hP).1⟩

end ParseForest
