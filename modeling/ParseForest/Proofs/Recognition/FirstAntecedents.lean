import ParseForest.Proofs.Recognition.Antecedents
import Mathlib.Logic.Relation

/-!
# First antecedents

The antecedents that an entry gains later may well be younger than the entry, and in a cyclic
grammar they lead back to it. Its first antecedent is the one it was created for: the rule that
created the entry saw older entries only. This is the invariant of a chart, `Aged`; each step keeps
it, as it creates an entry at the end of the chart or adds an antecedent behind the others. So a
derivation that is read off by following first antecedents goes from entry to older entry and comes
to an end, `first_antecedents_older`.
-/

namespace ParseForest

open Relation

variable {G : Grammar} {w : List Token}

/-- The first antecedent of the entry of a number. -/
def Chart.first? (c : Chart) (id : Nat) : Option Nat :=
  (c.antecedents id).head?

/-! ### The invariant of a chart -/

/-- The chart was built up entry by entry: each entry but the initial one was created for its first
antecedent, by a rule that saw only entries of smaller numbers. -/
structure Aged (G : Grammar) (w : List Token) (c : Chart) : Prop where
  initial : c.place? 0 = some ⟨.start G.start, 0, 0⟩
  created : ∀ id x, c.place? id = some x → 0 < id →
    ∃ a, c.first? id = some a ∧ Leads G w (below id c.place?) w.length a x

/-- An antecedent that is gained is not the first one. -/
lemma Entry.head?_gain {e : Entry} {a b : Nat} (h : e.antecedents.head? = some a) :
    (e.gain (some b)).antecedents.head? = some a := by
  simp only [Entry.gain, Option.elim_some, Entry.addAntecedent]
  split
  · exact h
  · simp [h]

namespace Chart

variable {c : Chart} {a b id : Nat} {x : Place} {v : Vertex} {origin column : Nat}

lemma first?_eq_some_iff : c.first? id = some a ↔
    ∃ e : Entry, c.entries[id]? = some e ∧ e.antecedents.head? = some a := by
  cases he : c.entries[id]? with
  | none => simp [first?, antecedents, he]
  | some e => simp [first?, antecedents, he]

/-- Entries keep their first antecedents. -/
lemma first?_insert (h : c.first? id = some a) :
    (c.insert v origin column (some b)).1.first? id = some a := by
  obtain ⟨e, he, ha⟩ := first?_eq_some_iff.1 h
  cases hf : c.find? v origin column with
  | none =>
    refine first?_eq_some_iff.2 ⟨e, ?_, ha⟩
    rw [getElem?_insert_of_find?_eq_none hf,
      if_neg (Nat.ne_of_lt (Array.getElem?_eq_some_iff.1 he).1), he]
  | some j =>
    refine first?_eq_some_iff.2 ⟨_, by rw [getElem?_insert_of_find?_eq_some hf, he]; rfl, ?_⟩
    split
    · exact Entry.head?_gain ha
    · exact ha

/-- An entry after an insertion was there before, or it was created for its only antecedent. -/
lemma place?_insert_cases (h : (c.insert v origin column (some b)).1.place? id = some x) :
    c.place? id = some x ∨ id = c.entries.size ∧ x = ⟨v, origin, column⟩ ∧
      (c.insert v origin column (some b)).1.first? id = some b := by
  cases hf : c.find? v origin column with
  | none =>
    have hentry : (c.insert v origin column (some b)).1.entries[id]? =
        if id = c.entries.size then some ⟨v, origin, column, [b]⟩ else c.entries[id]? :=
      getElem?_insert_of_find?_eq_none hf id
    split at hentry
    · next hid =>
      rw [place?, hentry] at h
      exact Or.inr ⟨hid, (Option.some.inj h).symm, first?_eq_some_iff.2 ⟨_, hentry, rfl⟩⟩
    · rw [place?, hentry] at h
      exact Or.inl h
  | some j => exact Or.inl (place?_insert_of_find?_eq_some hf id ▸ h)

lemma place?_perform {s : Step} (h : c.place? id = some x) :
    (s.perform c).place? id = some x := by
  rw [Step.perform]
  split
  · exact h
  · rw [place?_insert_of_lt (lt_size_of_place? h), h]

end Chart

/-- A rule leads from an entry that the table has. -/
lemma Leads.lt_of_below {K : Nat → Option Place} {bound read a : Nat} {x : Place}
    (h : Leads G w (below bound K) read a x) : a < bound := by
  cases h with
  | start ha hp => exact (below_eq_some.1 ha).1
  | call ha hs => exact (below_eq_some.1 ha).1
  | exit hp ha => exact (below_eq_some.1 ha).1
  | resume ha hb hp hs hc => exact (below_eq_some.1 ha).1
  | scan ha hs ht hi => exact (below_eq_some.1 ha).1

namespace Aged

variable {c : Chart} {column start next : Nat} {t : Token} {s s' : Progress}
  {e : Option ParseError}

/-- Every entry but the initial one has a first antecedent, which is older. -/
lemma exists_first_lt (h : Aged G w c) {id : Nat} (hid : 0 < id) (hlt : id < c.entries.size) :
    ∃ a, c.first? id = some a ∧ a < id := by
  obtain ⟨x, hx⟩ := Chart.exists_place? hlt
  obtain ⟨a, ha, hl⟩ := h.created id x hx hid
  exact ⟨a, ha, hl.lt_of_below⟩

/-- An entry that is not at the place of the initial one was created for its first antecedent. -/
lemma exists_leads (h : Aged G w c) {id : Nat} {x : Place} (hx : c.place? id = some x)
    (hne : x ≠ ⟨.start G.start, 0, 0⟩) :
    ∃ a, c.first? id = some a ∧ Leads G w (below id c.place?) w.length a x := by
  refine h.created id x hx (Nat.pos_of_ne_zero ?_)
  rintro rfl
  exact hne (Option.some.inj (hx.symm.trans h.initial))

/-- A step that follows a rule keeps the invariant. -/
lemma perform (h : Aged G w c) {s : Step}
    (hs : s.isVetoed = false → Leads G w c.place? w.length s.source s.place) :
    Aged G w (s.perform c) := by
  cases hv : s.isVetoed with
  | true => simpa [Step.perform, hv] using h
  | false =>
    have hold : ∀ {bound id y}, below bound c.place? id = some y →
        below bound (s.perform c).place? id = some y := by
      intro bound id y hy
      obtain ⟨hid, hy⟩ := below_eq_some.1 hy
      exact below_eq_some.2 ⟨hid, Chart.place?_perform hy⟩
    have hperform : s.perform c = (c.insert s.vertex s.origin s.column (some s.source)).1 := by
      simp [Step.perform, hv]
    refine ⟨Chart.place?_perform h.initial, fun id x hx hid => ?_⟩
    rw [hperform] at hx
    rcases Chart.place?_insert_cases hx with hx | ⟨rfl, rfl, hfirst⟩
    · obtain ⟨a, ha, hl⟩ := h.created id x hx hid
      exact ⟨a, hperform ▸ Chart.first?_insert ha, hl.mono (fun _ _ => hold) (Nat.le_refl _)⟩
    · refine ⟨s.source, hperform ▸ hfirst, (hs hv).mono (fun b y hb => ?_) (Nat.le_refl _)⟩
      exact below_eq_some.2 ⟨Chart.lt_size_of_place? hb, Chart.place?_perform hb⟩

lemma performAll (h : Aged G w c) {steps : List Step}
    (hsteps : ∀ s ∈ steps, s.isVetoed = false → Leads G w c.place? w.length s.source s.place) :
    Aged G w (c.performAll steps) := by
  induction steps generalizing c with
  | nil => exact h
  | cons s steps ih =>
    obtain ⟨hs, hsteps⟩ := List.forall_mem_cons.1 hsteps
    refine ih (h.perform hs) fun s' hs' hv => ?_
    exact (hsteps s' hs' hv).mono (fun _ _ => Chart.place?_perform) (Nat.le_refl _)

/-! ### Whole runs -/

/-- The steps from an entry keep the invariant. -/
lemma process (hfilling : Filling G w column start next s.chart)
    (hnext : next < s.chart.entries.size) (h : Aged G w s.chart) :
    Aged G w ((G.steps w s.chart column next).foldl Progress.perform s).chart := by
  obtain ⟨⟨v, o, i⟩, hid⟩ := Chart.exists_place? hnext
  obtain rfl : i = column := hfilling.current _ _ hid hfilling.start_le
  rw [Progress.chart_foldl_perform]
  exact h.performAll fun _ hs hv =>
    Chart.leads_of_mem_steps hfilling.indexed hfilling.itemsOf hid hs hv

lemma fill (hG : G.Closed) (hfilling : Filling G w column start start s.chart)
    (h : Aged G w s.chart) : Aged G w (G.fill w column start s).chart := by
  rw [Grammar.fill, Progress.chart_note]
  exact saturate_induction (I := fun _ s => Aged G w s.chart) hG process hfilling h
    (Nat.le_of_eq (Nat.add_comm _ _))

/-- Reading a token keeps the invariant. -/
lemma read (hfilling : Filling G w column start s.chart.entries.size s.chart)
    (ht : w[column]? = some t) (h : Aged G w s.chart) (hread : G.read column t s = (s', e)) :
    Aged G w s'.chart := by
  cases e with
  | some e => exact Grammar.chart_of_read_error hread ▸ h
  | none =>
    rw [Grammar.chart_of_read hread]
    refine h.performAll fun step hstep _ => ?_
    obtain ⟨id, p, dot, j, hx, hn, rfl⟩ := (Chart.mem_scanSteps_iff hfilling.indexed).1 hstep
    exact .scan hx hn ht (List.getElem?_eq_some_iff.1 ht).1

lemma initialChart : Aged G w (G.initialChart w) := by
  refine ⟨by rw [initialChart_eq]; rfl, fun id x hx hid => ?_⟩
  have := Chart.lt_size_of_place? hx
  simp only [initialChart_eq, List.size_toArray, List.length_singleton] at this
  omega

/-- The chart of a parse keeps the invariant. -/
lemma of_recognize (hG : G.Closed) {P : Parsing} (hP : (G.recognize w).result = .ok P) :
    Aged G w P.chart := by
  obtain ⟨i, -, h⟩ := advance_induction (I := fun _ s => Aged G w s.chart)
    (s := ⟨G.initialChart w, #[]⟩) hG (fill hG) read filling_initialChart List.drop_zero.symm
    initialChart
  rw [chart_eq_of_recognize hP]
  exact h

end Aged

/-! ### Reading off -/

/-- Reading a derivation off goes on from an entry to another: from a finish and from an item to the
first antecedent, and from an item behind a nonterminal also to the item before the nonterminal. -/
inductive Chart.GoesOn (c : Chart) : Nat → Nat → Prop where
  | exit {id a j k : Nat} {n : NonTerminal} (hx : c.place? id = some ⟨.finish n, j, k⟩)
      (ha : c.first? id = some a) : GoesOn c id a
  | back {id a p dot j k : Nat} (hx : c.place? id = some ⟨.item p (dot + 1), j, k⟩)
      (ha : c.first? id = some a) : GoesOn c id a
  | before {id a b p dot j k m : Nat} {n : NonTerminal}
      (hx : c.place? id = some ⟨.item p (dot + 1), j, k⟩) (ha : c.first? id = some a)
      (hn : c.place? a = some ⟨.finish n, m, k⟩) (hb : c.place? b = some ⟨.item p dot, j, m⟩) :
      GoesOn c id b

/-- The trees that are read off behind an entry by always following first antecedents. -/
inductive Parsing.ReadsOff (P : Parsing) : Nat → List Tree → Prop where
  | enter {id p j k : Nat} (hx : P.chart.place? id = some ⟨.item p 0, j, k⟩) : ReadsOff P id []
  | scan {id a p dot j k : Nat} {t : Terminal} {u : Token} {ts : List Tree}
      (hx : P.chart.place? id = some ⟨.item p (dot + 1), j, k + 1⟩)
      (hs : P.grammar.symbolAt? p dot = some (.terminal t)) (ha : P.chart.first? id = some a)
      (hu : P.tokens[k]? = some u) (h : ReadsOff P a ts) : ReadsOff P id (ts ++ [.token k u])
  | resume {id a b p dot j m k : Nat} {n : NonTerminal} {t : Tree} {ts : List Tree}
      (hx : P.chart.place? id = some ⟨.item p (dot + 1), j, k⟩)
      (hs : P.grammar.symbolAt? p dot = some (.nonterminal n)) (ha : P.chart.first? id = some a)
      (hn : P.chart.place? a = some ⟨.finish n, m, k⟩)
      (hb : P.chart.place? b = some ⟨.item p dot, j, m⟩) (h : ReadsOff P b ts)
      (h' : ReadsOff P a [t]) : ReadsOff P id (ts ++ [t])
  | exit {id a p dot j k : Nat} {n : NonTerminal} {ts : List Tree}
      (hx : P.chart.place? id = some ⟨.finish n, j, k⟩) (ha : P.chart.first? id = some a)
      (hp : P.chart.place? a = some ⟨.item p dot, j, k⟩) (h : ReadsOff P a ts) :
      ReadsOff P id [.node n p j k (Tree.childrenOf j ts)]

namespace Parsing.Complete

variable {P : Parsing} {id a b j k p dot : Nat} {v : Vertex}

/-- What is read off is determined by the entry. -/
lemma readsOff_unique (h : P.Complete) {ts ts' : List Tree} (hts : P.ReadsOff id ts)
    (hts' : P.ReadsOff id ts') : ts = ts' := by
  induction hts generalizing ts' with
  | enter hx =>
    cases hts' with
    | enter => rfl
    | scan hx' => simp [hx] at hx'
    | resume hx' => simp [hx] at hx'
    | exit hx' => simp [hx] at hx'
  | scan hx hs ha hu _ ih =>
    cases hts' with
    | enter hx' => simp [hx] at hx'
    | scan hx' hs' ha' hu' h' =>
      cases hx.symm.trans hx'
      cases ha.symm.trans ha'
      cases hu.symm.trans hu'
      rw [ih h']
    | resume hx' hs' =>
      cases hx.symm.trans hx'
      cases hs.symm.trans hs'
    | exit hx' => simp [hx] at hx'
  | resume hx hs ha hn hb _ _ ih ihn =>
    cases hts' with
    | enter hx' => simp [hx] at hx'
    | scan hx' hs' =>
      cases hx.symm.trans hx'
      cases hs.symm.trans hs'
    | resume hx' hs' ha' hn' hb' h' hn'' =>
      cases hx.symm.trans hx'
      cases ha.symm.trans ha'
      cases hn.symm.trans hn'
      cases h.filled.indexed.place?_inj hb hb'
      rw [ih h', List.cons.inj (ihn hn'') |>.1]
    | exit hx' => simp [hx] at hx'
  | exit hx ha hp _ ih =>
    cases hts' with
    | enter hx' => simp [hx] at hx'
    | scan hx' => simp [hx] at hx'
    | resume hx' => simp [hx] at hx'
    | exit hx' ha' hp' h' =>
      cases hx.symm.trans hx'
      cases ha.symm.trans ha'
      cases hp.symm.trans hp'
      rw [ih h']

/-- A derivation is read off behind every entry that is not a start. -/
lemma exists_readsOff (h : P.Complete) (haged : Aged P.grammar P.tokens P.chart)
    (hx : P.chart.place? id = some ⟨v, j, k⟩) (hv : ∀ n, v ≠ .start n) :
    ∃ ts, P.ReadsOff id ts ∧ Spans P.grammar P.tokens v j k ts := by
  induction id using Nat.strongRecOn generalizing v j k with
  | _ id ih =>
    obtain ⟨a, ha, hl⟩ := haged.exists_leads hx fun heq => hv _ (Place.mk.inj heq).1
    cases hl with
    | start hstart hp =>
      cases h.valid hx with
      | item _ _ hm =>
        obtain ⟨ts, hts⟩ := hm
        cases hts with
        | enter hp hlo => exact ⟨[], .enter hx, .enter hp hlo⟩
    | call => exact absurd rfl (hv _)
    | exit hp hitem =>
      obtain ⟨hlt, hitem⟩ := below_eq_some.1 hitem
      obtain ⟨ts, hread, hts⟩ := ih a hlt hitem nofun
      exact ⟨_, .exit hx ha hitem hread, .exit hp hts⟩
    | scan hitem hs hu _ =>
      obtain ⟨hlt, hitem⟩ := below_eq_some.1 hitem
      obtain ⟨ts, hread, hts⟩ := ih a hlt hitem nofun
      exact ⟨_, .scan hx hs ha hu hread, .scan hts hs hu⟩
    | resume hfinish hitem hp hs hperm =>
      obtain ⟨hlt, hfinish⟩ := below_eq_some.1 hfinish
      obtain ⟨hlt', hitem⟩ := below_eq_some.1 hitem
      obtain ⟨ts, hread, hts⟩ := ih _ hlt' hitem nofun
      obtain ⟨us, hread', hus⟩ := ih a hlt hfinish nofun
      obtain ⟨t, rfl⟩ := hus.eq_singleton
      have hs' := (Grammar.symbolAt?_eq hp).trans hs
      exact ⟨_, .resume hx hs' ha hfinish hitem hread hread', .resume hts hp hs hus hperm⟩

/-- The item before an antecedent: for a terminal it is the antecedent, for a nonterminal it ends
where the antecedent begins. -/
lemma exists_item_before (h : P.Complete) (haged : Aged P.grammar P.tokens P.chart)
    (hx : P.chart.place? id = some ⟨.item p (dot + 1), j, k⟩) (ha : a ∈ P.chart.antecedents id) :
    ∃ m b, P.chart.place? b = some ⟨.item p dot, j, m⟩ ∧
      (P.chart.first? id = some a → b < id) ∧
      match P.grammar.symbolAt? p dot with
      | some (.terminal _) => k = m + 1
      | some (.nonterminal n) => P.chart.place? a = some ⟨.finish n, m, k⟩
      | none => False := by
  obtain ⟨prod, hp, hdot⟩ := h.prod_of_item hx
  obtain ⟨a', ha', hl⟩ := haged.exists_leads hx nofun
  cases hs : P.grammar.symbolAt? p dot with
  | none =>
    rw [Grammar.symbolAt?_eq hp, List.getElem?_eq_none_iff] at hs
    omega
  | some s =>
    cases s with
    | terminal t =>
      obtain ⟨i, u, rfl, hitem, -⟩ := (leads_scan_iff hs).1 ((h.filled.mem_antecedents_iff hx).1 ha)
      refine ⟨i, a, hitem, fun hfirst => ?_, rfl⟩
      cases ha'.symm.trans hfirst
      exact hl.lt_of_below
    | nonterminal n =>
      obtain ⟨m, hfinish, b, hb⟩ := h.exists_finish_of_mem hx hs ha
      refine ⟨m, b, hb, fun hfirst => ?_, hfinish⟩
      cases ha'.symm.trans hfirst
      rw [Grammar.symbolAt?_eq hp] at hs
      obtain ⟨m', b', hfinish', hb', -⟩ := (leads_resume_iff hp hs).1 hl
      cases hfinish.symm.trans (below_eq_some.1 hfinish').2
      cases h.filled.indexed.place?_inj hb (below_eq_some.1 hb').2
      exact (below_eq_some.1 hb').1

/-- Reading off goes on to older entries. -/
lemma lt_of_goesOn (h : P.Complete) (haged : Aged P.grammar P.tokens P.chart)
    (hgoes : P.chart.GoesOn id b) : b < id := by
  cases hgoes with
  | exit hx ha =>
    obtain ⟨a, hfirst, hl⟩ := haged.exists_leads hx nofun
    exact Option.some.inj (ha.symm.trans hfirst) ▸ hl.lt_of_below
  | back hx ha =>
    obtain ⟨a, hfirst, hl⟩ := haged.exists_leads hx nofun
    exact Option.some.inj (ha.symm.trans hfirst) ▸ hl.lt_of_below
  | before hx ha hn hb =>
    obtain ⟨a, hfirst, hl⟩ := haged.exists_leads hx nofun
    cases ha.symm.trans hfirst
    cases hl with
    | scan hitem => cases hn.symm.trans (below_eq_some.1 hitem).2
    | resume hfinish hitem =>
      cases hn.symm.trans (below_eq_some.1 hfinish).2
      obtain ⟨hlt, hitem⟩ := below_eq_some.1 hitem
      exact h.filled.indexed.place?_inj hb hitem ▸ hlt

end Parsing.Complete

/-! ### The chart of an accepted input -/

/-- In the chart of an accepted input every entry but the initial one has a first antecedent of a
smaller number. Before an item whose dot is not in front there is for each antecedent the item with
the dot one to the left that ends where the symbol before the dot starts, also of a smaller number
if the antecedent is the first. So following first antecedents goes from entry to older entry, and
behind every finish exactly one derivation is read off. -/
theorem first_antecedents_older {G : Grammar} {w : List Token} {start : NonTerminal}
    {rules : List RuleDecl} (hG : Grammar.build start rules = .ok G) {P : Parsing}
    (hP : (G.recognize w).result = .ok P) :
    P.chart.place? 0 = some ⟨.start G.start, 0, 0⟩ ∧
      (∀ id, 0 < id → id < P.chart.entries.size → ∃ a, P.chart.first? id = some a ∧ a < id) ∧
      (∀ id p dot j k a, P.chart.place? id = some ⟨.item p (dot + 1), j, k⟩ →
        a ∈ P.chart.antecedents id →
        ∃ m b, P.chart.place? b = some ⟨.item p dot, j, m⟩ ∧
          (P.chart.first? id = some a → b < id) ∧
          match G.symbolAt? p dot with
          | some (.terminal _) => k = m + 1
          | some (.nonterminal n) => P.chart.place? a = some ⟨.finish n, m, k⟩
          | none => False) ∧
      (∀ id b, TransGen P.chart.GoesOn id b → b < id) ∧
      ∀ id n j k, P.chart.place? id = some ⟨.finish n, j, k⟩ →
        ∃ t, G.Derives w n j k t ∧ ∀ ts, P.ReadsOff id ts ↔ ts = [t] := by
  have hclosed := Grammar.closed_of_build hG
  have haged := Aged.of_recognize hclosed hP
  obtain ⟨rfl, rfl, hc⟩ := complete_of_recognize hclosed hP
  refine ⟨haged.initial, fun id => haged.exists_first_lt,
    fun id p dot j k a => hc.exists_item_before haged, fun id b hgoes => ?_, fun id n j k hx => ?_⟩
  · induction hgoes with
    | single h => exact hc.lt_of_goesOn haged h
    | tail _ h ih => exact Nat.lt_trans (hc.lt_of_goesOn haged h) ih
  · obtain ⟨ts, hread, hts⟩ := hc.exists_readsOff haged hx nofun
    obtain ⟨t, rfl⟩ := hts.eq_singleton
    refine ⟨t, hts, fun ts' => ⟨fun h' => hc.readsOff_unique h' hread, ?_⟩⟩
    rintro rfl
    exact hread

/-- In the chart of the cyclic grammar the finish of the whole input has two antecedents. The second
one is younger and leads back to the finish, but one derivation is read off. -/
theorem first_antecedents_older_cyclic :
    Grammar.build ⟨"A"⟩ [Samples.rule "A" [[Samples.nt "A"], [Samples.tm "a"]]]
        = .ok Samples.cyclic ∧
      ∃ P, (Samples.cyclic.recognize [.plain "a"]).result = .ok P ∧
        P.chart.place? 4 = some ⟨.finish ⟨"A"⟩, 0, 1⟩ ∧ P.chart.antecedents 4 = [3, 5] ∧
        P.chart.antecedents 5 = [4] ∧ (∀ b, TransGen P.chart.GoesOn 4 b → b < 4) ∧
        ∃ t, ∀ ts, P.ReadsOff 4 ts ↔ ts = [t] := by
  have hbuild : Grammar.build ⟨"A"⟩ [Samples.rule "A" [[Samples.nt "A"], [Samples.tm "a"]]]
      = .ok Samples.cyclic := rfl
  have hrun : (Samples.cyclic.recognize [.plain "a"]).result.toOption.any fun P =>
      P.chart.place? 4 = some ⟨.finish ⟨"A"⟩, 0, 1⟩ ∧ P.chart.antecedents 4 = [3, 5] ∧
        P.chart.antecedents 5 = [4] := by
    decide +kernel
  obtain ⟨P, hP, hchart⟩ := any_toOption_iff.1 hrun
  obtain ⟨hx, h4, h5⟩ := of_decide_eq_true hchart
  obtain ⟨-, -, -, holder, hreads⟩ := first_antecedents_older hbuild hP
  obtain ⟨t, -, ht⟩ := hreads 4 _ _ _ hx
  exact ⟨hbuild, P, hP, hx, h4, h5, holder 4, t, ht⟩

end ParseForest
