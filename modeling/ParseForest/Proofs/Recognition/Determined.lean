import ParseForest.Proofs.Chart.Columns
import ParseForest.Proofs.Recognition.Empty
import ParseForest.Proofs.Recognition.Total

/-!
# Columns are determined by what is to their left

Without constraints a step does not ask for the tokens, so two inputs with tokens of the same kinds
up to a position give rise to the same columns up to that position, `columns_determined`. Two
recognitions are compared while they fill the same column: their charts have the same entries. Once
a column is filled, steps reach later columns only, and insertion into one column leaves the
others as they are.
-/

namespace ParseForest

open Relation

variable {G : Grammar} {w w' rest rest' : List Token} {c c' : Chart} {s s' s₁ s₁' : Progress}
  {start column i k id : Nat} {t t' : Token} {P P' : Parsing}

/-! ### Steps without constraints -/

namespace Grammar.Unconstrained

variable (hfree : G.Unconstrained)

include hfree

lemma puts?_returnStep? (he : c.entries = c'.entries) (caller completed : Nat) :
    (G.returnStep? w c column caller completed).map Step.puts? =
      (G.returnStep? w' c' column caller completed).map Step.puts? := by
  unfold returnStep?
  rw [he]
  split
  · split
    · next p dot callee _ _ =>
      cases hp : G.prods[p]? with
      | none => rfl
      | some prod =>
        have hnone := hfree prod (List.mem_of_getElem? hp)
        simp [Step.puts?, Step.isVetoed, Step.return?, Step.place, Production.verdict, hnone]
    · rfl
  · rfl

/-- The steps from an entry put the same into charts with the same entries, whatever the tokens. -/
lemma puts?_steps (h : c.Indexed) (h' : c'.Indexed) (he : c.entries = c'.entries)
    (horigin : ∀ (id : Nat) (e : Entry), c.entries[id]? = some e →
      e.origin < c.columns.size ∧ e.origin < c'.columns.size) :
    (G.steps w c column id).map Step.puts? = (G.steps w' c' column id).map Step.puts? := by
  unfold steps
  rw [← he]
  cases hid : c.entries[id]? with
  | none => rfl
  | some e =>
    dsimp only
    cases e.vertex with
    | start n => rfl
    | finish n =>
      obtain ⟨ho, ho'⟩ := horigin id e hid
      have hsame := Chart.sameUpTo_of_entries_eq h h' he ho ho'
      dsimp only
      rw [List.map_filterMap, List.map_filterMap, hsame.awaiting_eq (Nat.le_refl _)]
      apply List.filterMap_congr
      intro caller _
      exact hfree.puts?_returnStep? he caller id
    | item p dot =>
      dsimp only
      cases G.prods[p]? with
      | none => rfl
      | some prod =>
        dsimp only
        cases prod.body[dot]? with
        | none => rfl
        | some a =>
          cases a with
          | terminal t => rfl
          | nonterminal callee =>
            dsimp only
            rw [Chart.find?_congr h h' he]
            cases c'.find? (.finish callee) column column with
            | none => rfl
            | some done =>
              rw [Option.bind_some, Option.bind_some, List.map_cons, List.map_cons,
                ← Option.toList_map, ← Option.toList_map, hfree.puts?_returnStep? he id done]

/-! ### Filling a column of two charts -/

/-- Saturation gives charts with the same entries the same entries. -/
lemma entries_saturate {bound next : Nat} (h : Filling G w column start next s.chart)
    (h' : Filling G w' column start next s'.chart) (he : s.chart.entries = s'.chart.entries) :
    (G.saturate w column bound next s).chart.entries =
      (G.saturate w' column bound next s').chart.entries := by
  induction bound generalizing next s s' with
  | zero => exact he
  | succ bound ih =>
    by_cases hlt : next < s.chart.entries.size
    · have hlt' : next < s'.chart.entries.size := he ▸ hlt
      have horigin : ∀ (id : Nat) (e : Entry), s.chart.entries[id]? = some e →
          e.origin ≤ column := fun id e he =>
        h.origin_le_of_place? (Chart.place?_eq_some.2 ⟨e, he, rfl⟩)
      have hsteps : (G.steps w s.chart column next).map Step.puts? =
          (G.steps w' s'.chart column next).map Step.puts? :=
        hfree.puts?_steps h.indexed h'.indexed he fun id e hid =>
          ⟨Nat.lt_of_le_of_lt (horigin id e hid) h.column_lt,
            Nat.lt_of_le_of_lt (horigin id e hid) h'.column_lt⟩
      rw [saturate, saturate, if_pos hlt, if_pos hlt']
      apply ih
      · rw [Progress.chart_foldl_perform]
        exact h.process hlt
      · rw [Progress.chart_foldl_perform]
        exact h'.process hlt'
      · rw [Progress.chart_foldl_perform, Progress.chart_foldl_perform]
        apply Chart.entries_performAll_congr h.indexed h'.indexed he hsteps
        · intro step hstep
          rw [Chart.column_of_mem_steps hstep]
          exact h.column_lt
        · intro step hstep
          rw [Chart.column_of_mem_steps hstep]
          exact h'.column_lt
    · have hlt' : ¬ next < s'.chart.entries.size := he ▸ hlt
      rw [saturate, saturate, if_neg hlt, if_neg hlt']
      exact he

end Grammar.Unconstrained

/-- Reading tokens of the same kind gives charts with the same entries the same entries. -/
lemma Grammar.entries_read (h : Filling G w column start s.chart.entries.size s.chart)
    (h' : Filling G w' column start s'.chart.entries.size s'.chart)
    (he : s.chart.entries = s'.chart.entries) (ht : w[column]? = some t)
    (ht' : w'[column]? = some t') (hkind : t.kind = t'.kind)
    (hread : G.read column t s = (s₁, none)) (hread' : G.read column t' s' = (s₁', none)) :
    s₁.chart.entries = s₁'.chart.entries := by
  have hsame := Chart.sameUpTo_of_entries_eq h.indexed h'.indexed he h.column_lt h'.column_lt
  have hscan : s.chart.scanStep? column = s'.chart.scanStep? column := by
    funext id
    rw [Chart.scanStep?, Chart.scanStep?, he]
  rw [chart_of_read hread, chart_of_read hread', hkind, hscan,
    hsame.awaiting_eq (Nat.le_refl column)]
  apply Chart.entries_performAll_congr h.indexed h'.indexed he rfl
  · intro step hstep
    obtain ⟨id, p, dot, j, -, -, rfl⟩ := (Chart.mem_scanSteps_iff h'.indexed).1 hstep
    exact h.succ_lt ht
  · intro step hstep
    obtain ⟨id, p, dot, j, -, -, rfl⟩ := (Chart.mem_scanSteps_iff h'.indexed).1 hstep
    exact h'.succ_lt ht'

/-! ### After a column is saturated -/

namespace Machine

variable {σ σ' : State}

/-- All entries of the column have been taken up, those of the columns before it included. -/
def State.Saturated (σ : State) (i : Nat) : Prop :=
  i < σ.column ∨ i = σ.column ∧ (σ.chart.ids i).length ≤ σ.taken

lemma Stands.saturated_iff (h : Stands G w start σ) :
    σ.Saturated i ↔ i < σ.column ∨ i = σ.column ∧ Full G w start σ := by
  have hnext := h.filling.next_le
  have hfull : Full G w start σ ↔ σ.chart.entries.size - start ≤ σ.taken := by
    refine ⟨fun hfull => by have := hfull.taken_eq; omega, fun hle => ⟨h, by omega⟩⟩
  refine or_congr_right (and_congr_right ?_)
  rintro rfl
  rw [h.filling.ids_eq, List.length_range', hfull]

/-- A move leaves the saturated columns as they are. -/
lemma Stands.sameUpTo_of_goes (hG : G.Closed) (h : Stands G w start σ) (hs : σ.Saturated i)
    (hgoes : Goes G w σ σ') :
    Chart.SameUpTo i σ.chart σ'.chart ∧ σ'.Saturated i ∧ ∃ start', Stands G w start' σ' := by
  have hi := h.saturated_iff.1 hs
  rcases h.next_cases hG with ⟨σ'', hnext, hmoved⟩ | ⟨r, hstop, -⟩
  · cases hnext.symm.trans hgoes
    cases hmoved with
    | taken steps hlt hcolumn hchart hsteps hstands =>
      have hi : i < σ.column := by
        rcases hi with hi | ⟨-, hfull⟩
        · exact hi
        · exact absurd hfull.taken_eq (Nat.ne_of_lt hlt)
      refine ⟨?_, Or.inl (hcolumn ▸ hi), _, hstands⟩
      rw [hchart]
      apply h.filling.indexed.sameUpTo_performAll
      intro step hstep
      rw [hsteps step hstep]
      exact ⟨hi, h.filling.column_lt⟩
    | read steps _ hcolumn hchart hsteps hstands =>
      have hi : i < σ.column + 1 := by
        rcases hi with hi | ⟨rfl, -⟩
        · exact Nat.lt_succ_of_lt hi
        · exact Nat.lt_succ_self _
      refine ⟨?_, Or.inl (hcolumn ▸ hi), _, hstands⟩
      have hsize := hstands.filling.column_lt
      rw [hchart]
      apply h.filling.indexed.sameUpTo_performAll
      intro step hstep
      rw [hsteps step hstep]
      refine ⟨hi, ?_⟩
      rw [← hcolumn, h.filling.columns_size, ← hstands.filling.columns_size]
      exact hsize
  · cases hstop.symm.trans hgoes

/-- A run leaves the saturated columns as they are. -/
lemma Stands.sameUpTo_of_reaches (hG : G.Closed) (h : Stands G w start σ) (hs : σ.Saturated i)
    (hreach : ReflTransGen (Goes G w) σ σ') : Chart.SameUpTo i σ.chart σ'.chart := by
  induction hreach using ReflTransGen.head_induction_on generalizing start with
  | refl => exact .refl
  | head hgoes _ ih =>
    obtain ⟨hsame, hs', start', h'⟩ := h.sameUpTo_of_goes hG hs hgoes
    exact hsame.trans (ih h' hs')

/-- A recognition that fills a column and succeeds has the column in its chart. -/
lemma Stands.sameUpTo_of_outcome (hG : G.Closed) (h : Stands G w start ⟨column, 0, rest, s⟩)
    (hP : (outcome G w (G.advance w rest column start s)).result = .ok P) :
    Chart.SameUpTo column (G.fill w column start s).chart P.chart := by
  obtain ⟨taken, σ, -, hfull, hreach, hstop⟩ := h.reaches_outcome hG
  have hsaturated := hfull.stands.saturated_iff.2 (Or.inr ⟨rfl, hfull⟩)
  have hsame := hfull.stands.sameUpTo_of_reaches hG hsaturated hreach
  obtain ⟨start', hend⟩ := hfull.stands.of_reaches hG hreach
  rcases hend.next_cases hG with ⟨σ', hnext, -⟩ | ⟨r, hnext, hr⟩
  · cases hnext.symm.trans hstop
  · cases hnext.symm.trans hstop
    rw [hr P hP]
    exact hsame

/-- A recognition that succeeds reads the next token. -/
lemma exists_read_of_outcome
    (hP : (outcome G w (G.advance w (t :: rest) column start s)).result = .ok P) :
    ∃ s', G.read column t (G.fill w column start s) = (s', none) ∧
      (outcome G w (G.advance w rest (column + 1)
        (G.fill w column start s).chart.entries.size s')).result = .ok P := by
  rw [Grammar.advance] at hP
  cases hread : G.read column t (G.fill w column start s) with
  | mk s' e =>
    rw [hread] at hP
    cases e with
    | some e => cases hP
    | none => exact ⟨s', rfl, hP⟩

/-- Two recognitions that begin a column with the same entries fill it with the same entries. -/
lemma Stands.fill_congr (hG : G.Closed) (hfree : G.Unconstrained)
    (h : Stands G w start ⟨column, 0, rest, s⟩) (h' : Stands G w' start ⟨column, 0, rest', s'⟩)
    (he : s.chart.entries = s'.chart.entries) :
    Filling G w column start (G.fill w column start s).chart.entries.size
        (G.fill w column start s).chart ∧
      Filling G w' column start (G.fill w' column start s').chart.entries.size
        (G.fill w' column start s').chart ∧
      (G.fill w column start s).chart.entries = (G.fill w' column start s').chart.entries :=
  ⟨fill_filled hG h.filling, fill_filled hG h'.filling,
    hfree.entries_saturate h.filling h'.filling he⟩

/-- While the tokens have the same kinds, two recognitions fill the same columns. -/
lemma Stands.sameUpTo_of_kinds (hG : G.Closed) (hfree : G.Unconstrained)
    (h : Stands G w start ⟨column, 0, rest, s⟩) (h' : Stands G w' start ⟨column, 0, rest', s'⟩)
    (he : s.chart.entries = s'.chart.entries)
    (hP : (outcome G w (G.advance w rest column start s)).result = .ok P)
    (hP' : (outcome G w' (G.advance w' rest' column start s')).result = .ok P')
    (hk : k ≤ rest.length) (hk' : k ≤ rest'.length)
    (hkinds : (rest.take k).map Token.kind = (rest'.take k).map Token.kind) :
    Chart.SameUpTo (column + k) P.chart P'.chart := by
  induction k generalizing column start rest rest' s s' with
  | zero =>
    obtain ⟨hfill, hfill', hentries⟩ := h.fill_congr hG hfree h' he
    have hsame := Chart.sameUpTo_of_entries_eq hfill.indexed hfill'.indexed hentries
      hfill.column_lt hfill'.column_lt
    exact (h.sameUpTo_of_outcome hG hP).symm.trans (hsame.trans (h'.sameUpTo_of_outcome hG hP'))
  | succ k ih =>
    cases rest with
    | nil => cases hk
    | cons t rest =>
    cases rest' with
    | nil => cases hk'
    | cons t' rest' =>
    rw [List.take_succ_cons, List.take_succ_cons, List.map_cons, List.map_cons,
      List.cons.injEq] at hkinds
    obtain ⟨hfill, hfill', hentries⟩ := h.fill_congr hG hfree h' he
    obtain ⟨s₁, hread, hP⟩ := exists_read_of_outcome hP
    obtain ⟨s₁', hread', hP'⟩ := exists_read_of_outcome hP'
    have he := Grammar.entries_read hfill hfill' hentries (getElem?_of_cons_eq_drop h.rest_eq)
      (getElem?_of_cons_eq_drop h'.rest_eq) hkinds.1 hread hread'
    have hnext := Stands.of_read hfill h.rest_eq hread
    have hnext' := Stands.of_read hfill' h'.rest_eq hread'
    rw [← hentries] at hnext' hP'
    have hsame := ih hnext hnext' he hP hP' (Nat.le_of_succ_le_succ hk)
      (Nat.le_of_succ_le_succ hk') hkinds.2
    rwa [Nat.add_right_comm] at hsame

end Machine

open Relation in
/-- Columns depend only on the input to their left. Without constraints, two accepted inputs whose
first tokens have the same kinds lead to the same columns up to the position behind these tokens:
the same entries in the same order, with the same antecedents, and the same entries that await a
symbol. And once a column is saturated, no later move changes it or a column before it. -/
theorem columns_determined {G : Grammar} {start : NonTerminal} {rules : List RuleDecl}
    (hG : Grammar.build start rules = .ok G) (hfree : G.Unconstrained) :
    (∀ (i : Nat) (w w' : List Token) (P P' : Parsing), (G.recognize w).result = .ok P →
      (G.recognize w').result = .ok P' → i ≤ w.length → i ≤ w'.length →
      (w.take i).map Token.kind = (w'.take i).map Token.kind →
      ∀ k ≤ i, P.chart.ids k = P'.chart.ids k ∧
        (∀ id ∈ P.chart.ids k, ∃ e, P.chart.entries[id]? = some e ∧
          P'.chart.entries[id]? = some e) ∧
        (∀ a, P.chart.awaiting G a k = P'.chart.awaiting G a k) ∧
        P.chart.expected G k = P'.chart.expected G k ∧
        P.chart.awaited G k = P'.chart.awaited G k) ∧
      ∀ (i : Nat) (w : List Token) (σ₀ σ σ' : Machine.State), Machine.initial G w = .ok σ₀ →
        ReflTransGen (Machine.Goes G w) σ₀ σ → σ.Saturated i →
        ReflTransGen (Machine.Goes G w) σ σ' →
        ∀ k ≤ i, σ'.chart.ids k = σ.chart.ids k ∧
          ∀ id ∈ σ.chart.ids k, ∃ e, σ.chart.entries[id]? = some e ∧
            σ'.chart.entries[id]? = some e := by
  have hclosed := Grammar.closed_of_build hG
  constructor
  · intro i w w' P P' hP hP' hi hi' hkinds k hk
    have he : (G.initialChart w).entries = (G.initialChart w').entries := by
      rw [initialChart_eq, initialChart_eq]
    have hsame := Machine.stands_initial.sameUpTo_of_kinds hclosed hfree Machine.stands_initial he
      hP hP' hi hi' hkinds
    rw [Nat.zero_add] at hsame
    obtain ⟨-, -, hc⟩ := complete_of_recognize hclosed hP
    refine ⟨(hsame k hk).1, fun id hid => ?_, hsame.awaiting_eq hk, hsame.expected_eq hk,
      hsame.awaited_eq hk⟩
    obtain ⟨e, he, -⟩ := hc.filled.indexed.mem_ids.1 hid
    exact ⟨e, he, (hsame k hk).2 id hid ▸ he⟩
  · intro i w σ₀ σ σ' hinitial hreach hs hreach' k hk
    cases hinitial.symm.trans (Machine.initial_eq hclosed)
    obtain ⟨start, h⟩ := Machine.stands_initial.of_reaches hclosed hreach
    obtain ⟨hids, hentries⟩ := h.sameUpTo_of_reaches hclosed hs hreach' k hk
    refine ⟨hids.symm, fun id hid => ?_⟩
    obtain ⟨e, he, -⟩ := h.filling.indexed.mem_ids.1 hid
    exact ⟨e, he, hentries id hid ▸ he⟩

/-- Two tokens and three tokens that are split into pairs and singles have the same columns up to
the position behind the second token, where the one input ends and the other goes on. -/
theorem columns_determined_splitAmbiguity :
    Grammar.build ⟨"S"⟩ [Samples.rule "S" [[Samples.nt "A", Samples.nt "A"]],
        Samples.rule "A" [[Samples.tm "a"], [Samples.tm "a", Samples.tm "a"]]] =
        .ok Samples.splitAmbiguity ∧ Samples.splitAmbiguity.Unconstrained ∧
      ∃ P P', (Samples.splitAmbiguity.recognize [.plain "a", .plain "a"]).result = .ok P ∧
        (Samples.splitAmbiguity.recognize [⟨⟨"a"⟩, "x"⟩, ⟨⟨"a"⟩, "y"⟩, ⟨⟨"a"⟩, "z"⟩]).result =
          .ok P' ∧
        P.chart.ids 2 = P'.chart.ids 2 ∧
        P.chart.expected Samples.splitAmbiguity 2 = P'.chart.expected Samples.splitAmbiguity 2 := by
  have hbuild : Grammar.build ⟨"S"⟩ [Samples.rule "S" [[Samples.nt "A", Samples.nt "A"]],
      Samples.rule "A" [[Samples.tm "a"], [Samples.tm "a", Samples.tm "a"]]] =
        .ok Samples.splitAmbiguity := rfl
  have hfree : Samples.splitAmbiguity.Unconstrained := by decide
  let w : List Token := [.plain "a", .plain "a"]
  let w' : List Token := [⟨⟨"a"⟩, "x"⟩, ⟨⟨"a"⟩, "y"⟩, ⟨⟨"a"⟩, "z"⟩]
  have hrun : (Samples.splitAmbiguity.recognize w).result.toOption.isSome = true ∧
      (Samples.splitAmbiguity.recognize w').result.toOption.isSome = true := by decide +kernel
  cases hP : (Samples.splitAmbiguity.recognize w).result with
  | error e => simp [hP, Except.toOption] at hrun
  | ok P =>
    cases hP' : (Samples.splitAmbiguity.recognize w').result with
    | error e => simp [hP', Except.toOption] at hrun
    | ok P' =>
      obtain ⟨hids, -, -, hexpected, -⟩ := (columns_determined hbuild hfree).1 2 w w' P P' hP hP'
        (by decide) (by decide) (by decide) 2 (Nat.le_refl 2)
      exact ⟨hbuild, hfree, P, P', rfl, rfl, hids, hexpected⟩

end ParseForest
