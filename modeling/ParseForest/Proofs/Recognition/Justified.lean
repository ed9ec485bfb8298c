import ParseForest.Proofs.Recognition.Antecedents

/-!
# What justifies an entry

An entry of a chart is justified by other entries, and which those are can be read off its place
without a look at how the chart came about. The main statement, `antecedents_exact`, says that in
the chart of a recognized input the antecedents of an entry are exactly the entries that justify it,
and that every place that is justified has an entry.
-/

namespace ParseForest

namespace Chart

/-- An entry of the place `y` justifies one of the place `x`, next to the other entries of the
chart. -/
def Justifies (G : Grammar) (w : List Token) (c : Chart) (y : Place) : (x : Place) → Prop
  -- The items that expect a nonterminal justify its start in their column.
  | ⟨.start n, o, k⟩ =>
    o = k ∧ ∃ p dot j, y = ⟨.item p dot, j, k⟩ ∧ G.symbolAt? p dot = some (.nonterminal n)
  -- The complete items of a nonterminal justify its finish.
  | ⟨.finish n, j, k⟩ =>
    ∃ p prod, G.prods[p]? = some prod ∧ prod.head = n ∧ y = ⟨.item p prod.body.length, j, k⟩
  -- The start of the head of a production justifies its first item.
  | ⟨.item p 0, o, k⟩ =>
    o = k ∧ ∃ prod, G.prods[p]? = some prod ∧ y = ⟨.start prod.head, k, k⟩
  | ⟨.item p (dot + 1), j, k⟩ =>
    match G.symbolAt? p dot with
    | none => False
    | some (.terminal _) => ∃ i, k = i + 1 ∧ y = ⟨.item p dot, j, i⟩
    | some (.nonterminal n) =>
      ∃ prod m, G.prods[p]? = some prod ∧ y = ⟨.finish n, m, k⟩ ∧ c.Holds ⟨.item p dot, j, m⟩ ∧
        prod.permits (prod.context p dot n j m k w) = true

end Chart

/-- If the place is behind a terminal, the token before its column is of that kind. -/
def Scanned (G : Grammar) (w : List Token) : Place → Prop
  | ⟨.item p (dot + 1), _, k⟩ =>
    ∀ t, G.symbolAt? p dot = some (.terminal t) →
      ∃ i u, k = i + 1 ∧ w[i]? = some u ∧ u.kind = t
  | _ => True

lemma leads_start_iff {G : Grammar} {w : List Token} {K : Nat → Option Place} {read a o k : Nat}
    {n : NonTerminal} :
    Leads G w K read a ⟨.start n, o, k⟩ ↔
      o = k ∧ ∃ p dot j, K a = some ⟨.item p dot, j, k⟩ ∧
        G.symbolAt? p dot = some (.nonterminal n) := by
  constructor
  · intro h
    cases h with
    | call ha hs => exact ⟨rfl, _, _, _, ha, hs⟩
  · rintro ⟨rfl, p, dot, j, ha, hs⟩
    exact .call ha hs

namespace Parsing.Complete

variable {P : Parsing} {a : Nat} {x : Place}

/-- The rules lead from an entry to the places that it justifies, as far as the tokens allow it. -/
lemma leads_iff_justifies (h : P.Complete) :
    Leads P.grammar P.tokens P.chart.place? P.tokens.length a x ↔
      ∃ y, P.chart.place? a = some y ∧ P.chart.Justifies P.grammar P.tokens y x ∧
        Scanned P.grammar P.tokens x := by
  obtain ⟨v, o, k⟩ := x
  cases v with
  | start n =>
    rw [leads_start_iff]
    constructor
    · rintro ⟨rfl, p, dot, j, ha, hs⟩
      exact ⟨_, ha, ⟨rfl, p, dot, j, rfl, hs⟩, trivial⟩
    · rintro ⟨y, ha, ⟨rfl, p, dot, j, rfl, hs⟩, -⟩
      exact ⟨rfl, p, dot, j, ha, hs⟩
  | finish n =>
    rw [leads_finish_iff]
    constructor
    · rintro ⟨p, prod, hp, hn, ha⟩
      exact ⟨_, ha, ⟨p, prod, hp, hn, rfl⟩, trivial⟩
    · rintro ⟨y, ha, ⟨p, prod, hp, hn, rfl⟩, -⟩
      exact ⟨p, prod, hp, hn, ha⟩
  | item p dot =>
    cases dot with
    | zero =>
      rw [leads_enter_iff]
      constructor
      · rintro ⟨rfl, n, o', ha, hn⟩
        obtain ⟨prod, hp, rfl⟩ := P.grammar.mem_prodsOf.1 hn
        obtain rfl := h.origin_start ha
        exact ⟨_, ha, ⟨rfl, prod, hp, rfl⟩, trivial⟩
      · rintro ⟨y, ha, ⟨rfl, prod, hp, rfl⟩, -⟩
        exact ⟨rfl, _, _, ha, P.grammar.mem_prodsOf.2 ⟨prod, hp, rfl⟩⟩
    | succ dot =>
      simp only [Chart.Justifies, Scanned]
      cases hs : P.grammar.symbolAt? p dot with
      | none =>
        -- No rule leads over the end of a production.
        refine ⟨fun hl => ?_, fun ⟨_, _, hj, _⟩ => hj.elim⟩
        cases hl with
        | resume ha hb hp hs' hc =>
          rw [Grammar.symbolAt?_eq hp, hs'] at hs
          cases hs
        | scan ha hs' hu hi =>
          rw [hs] at hs'
          cases hs'
      | some s =>
        cases s with
        | terminal t =>
          rw [leads_scan_iff hs]
          constructor
          · rintro ⟨i, u, rfl, ha, hu, hk, hi⟩
            refine ⟨_, ha, ⟨i, rfl, rfl⟩, fun t' ht' => ?_⟩
            cases ht'
            exact ⟨i, u, rfl, hu, hk⟩
          · rintro ⟨y, ha, ⟨i, rfl, rfl⟩, hsc⟩
            obtain ⟨i', u, hi', hu, hk⟩ := hsc t rfl
            obtain rfl := Nat.succ.inj hi'
            exact ⟨i, u, rfl, ha, hu, hk, (List.getElem?_eq_some_iff.1 hu).1⟩
        | nonterminal n =>
          constructor
          · intro hl
            obtain ⟨prod, hp, hs⟩ := Option.bind_eq_some_iff.1 hs
            obtain ⟨m, b, ha, hb, hc⟩ := (leads_resume_iff hp hs).1 hl
            exact ⟨_, ha, ⟨prod, m, hp, rfl, ⟨b, hb⟩, hc⟩, nofun⟩
          · rintro ⟨y, ha, ⟨prod, m, hp, rfl, ⟨b, hb⟩, hc⟩, -⟩
            rw [Grammar.symbolAt?_eq hp] at hs
            exact (leads_resume_iff hp hs).2 ⟨m, b, ha, hb, hc⟩

/-- An entry behind a terminal is in the chart only if the token before it is of that kind. -/
lemma scanned (h : P.Complete) (hx : P.chart.Holds x) : Scanned P.grammar P.tokens x := by
  obtain ⟨id, hx⟩ := hx
  obtain ⟨v, o, k⟩ := x
  cases v with
  | start n => trivial
  | finish n => trivial
  | item p dot =>
    cases dot with
    | zero => trivial
    | succ dot =>
      intro t hs
      obtain ⟨i, u, hk, hu, hkind, -⟩ := h.holds_item_of_scan hs hx
      exact ⟨i, u, hk, hu, hkind⟩

/-- The antecedents of an entry are the entries that justify it. -/
lemma mem_antecedents_iff_justifies (h : P.Complete) {id : Nat} (hx : P.chart.place? id = some x) :
    a ∈ P.chart.antecedents id ↔
      ∃ y, P.chart.place? a = some y ∧ P.chart.Justifies P.grammar P.tokens y x := by
  rw [h.filled.mem_antecedents_iff hx, h.leads_iff_justifies]
  constructor
  · rintro ⟨y, ha, hj, -⟩
    exact ⟨y, ha, hj⟩
  · rintro ⟨y, ha, hj⟩
    exact ⟨y, ha, hj, h.scanned ⟨id, hx⟩⟩

lemma holds_of_justifies (h : P.Complete) {y : Place} (hy : P.chart.Holds y)
    (hj : P.chart.Justifies P.grammar P.tokens y x) (hx : Scanned P.grammar P.tokens x) :
    P.chart.Holds x := by
  obtain ⟨a, ha⟩ := hy
  exact h.filled.holds_of_leads (h.leads_iff_justifies.2 ⟨y, ha, hj, hx⟩)

end Parsing.Complete

/-- The chart of a recognized input is saturated and its antecedents are exact. No entry has an
antecedent twice, its antecedents are exactly the entries of the chart that justify it, and every
place that an entry justifies, with the token before it where it is behind a terminal, has an entry
itself. -/
theorem antecedents_exact {G : Grammar} {w : List Token} {start : NonTerminal}
    {rules : List RuleDecl} (hG : Grammar.build start rules = .ok G) {P : Parsing}
    (hP : (G.recognize w).result = .ok P) :
    (∀ (id : Nat) (e : Entry), P.chart.entries[id]? = some e →
      e.antecedents.Nodup ∧
        ∀ a, a ∈ e.antecedents ↔
          ∃ f : Entry, P.chart.entries[a]? = some f ∧
            P.chart.Justifies G w f.place e.place) ∧
      ∀ y x, P.chart.Holds y → P.chart.Justifies G w y x → Scanned G w x → P.chart.Holds x := by
  obtain ⟨rfl, rfl, hc⟩ := complete_of_recognize (Grammar.closed_of_build hG) hP
  refine ⟨fun id e he => ⟨hc.filled.deduped id e he, fun a => ?_⟩, fun y x hy hj hx =>
    hc.holds_of_justifies hy hj hx⟩
  rw [← Chart.antecedents_eq he,
    hc.mem_antecedents_iff_justifies (Chart.place?_eq_some.2 ⟨e, he, rfl⟩)]
  constructor
  · rintro ⟨y, ha, hj⟩
    obtain ⟨f, hf, rfl⟩ := Chart.place?_eq_some.1 ha
    exact ⟨f, hf, hj⟩
  · rintro ⟨f, hf, hj⟩
    exact ⟨_, Chart.place?_eq_some.2 ⟨f, hf, rfl⟩, hj⟩

/-- In the chart of the cyclic grammar the finish of the only nonterminal justifies the item that
calls it, and both complete items are antecedents of the finish. -/
theorem antecedents_exact_cyclic :
    Grammar.build ⟨"A"⟩ [Samples.rule "A" [[Samples.nt "A"], [Samples.tm "a"]]]
        = .ok Samples.cyclic ∧
      ∃ P, (Samples.cyclic.recognize [.plain "a"]).result = .ok P ∧
        ∃ (id : Nat) (e : Entry), P.chart.entries[id]? = some e ∧
          e.place = ⟨.finish ⟨"A"⟩, 0, 1⟩ ∧
          ∀ a, a ∈ e.antecedents ↔ ∃ f : Entry, P.chart.entries[a]? = some f ∧
            (f.place = ⟨.item 0 1, 0, 1⟩ ∨ f.place = ⟨.item 1 1, 0, 1⟩) := by
  have hbuild : Grammar.build ⟨"A"⟩ [Samples.rule "A" [[Samples.nt "A"], [Samples.tm "a"]]]
      = .ok Samples.cyclic := rfl
  have hG := Grammar.closed_of_build hbuild
  obtain ⟨P, hP⟩ := exists_recognize_of_accepts hG accepts_cyclic
  obtain ⟨hgrammar, htokens, hc⟩ := complete_of_recognize hG hP
  obtain ⟨e, he, hplace⟩ := Chart.place?_eq_some.1 hc.accepting
  have hplace : e.place = ⟨.finish ⟨"A"⟩, 0, 1⟩ := by rw [hplace, hgrammar, htokens]; rfl
  refine ⟨hbuild, P, hP, P.accepting, e, he, hplace, fun a => ?_⟩
  rw [((antecedents_exact hbuild hP).1 P.accepting e he).2 a, hplace]
  refine exists_congr fun f => and_congr_right fun _ => ⟨?_, ?_⟩
  · rintro ⟨p, prod, hp, -, hf⟩
    match p, hp with
    | 0, hp =>
      cases hp
      exact Or.inl hf
    | 1, hp =>
      cases hp
      exact Or.inr hf
  · rintro (hf | hf)
    · exact ⟨0, _, rfl, rfl, hf⟩
    · exact ⟨1, _, rfl, rfl, hf⟩

end ParseForest
