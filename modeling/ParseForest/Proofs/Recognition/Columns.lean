import ParseForest.Proofs.Recognition.Saturation

/-!
# Filled columns

A filled column holds exactly the valid entries (`Filled.holds_iff`), and an entry has exactly the
antecedents that the rules give it (`Filled.records_iff`). The terminals that it awaits are
therefore those that may come next after the tokens before it. `recognize_cases` sums up what
recognition comes to: it stops at the first token that is not expected, or it fills all columns.
-/

namespace ParseForest

variable {G : Grammar} {w : List Token} {c : Chart}

/-- Some valid item has the terminal after its dot. -/
def Expects (G : Grammar) (w : List Token) (k : Nat) (t : Terminal) : Prop :=
  ∃ p dot j, Valid G w ⟨.item p dot, j, k⟩ ∧ G.symbolAt? p dot = some (.terminal t)

namespace Filled

variable {i k : Nat}

lemma indexed (h : Filled G w i c) : c.Indexed := h.choose_spec.indexed

lemma deduped (h : Filled G w i c) : c.Deduped := h.choose_spec.deduped

lemma valid (h : Filled G w i c) {x : Place} (hx : c.Holds x) : Valid G w x := by
  obtain ⟨start, h⟩ := h
  obtain ⟨id, hx⟩ := hx
  exact h.valid id x hx

lemma column_le (h : Filled G w i c) {x : Place} (hx : c.Holds x) : x.column ≤ i := by
  obtain ⟨start, h⟩ := h
  obtain ⟨id, hx⟩ := hx
  exact h.column_le_of_place? hx

/-- An entry has the antecedents that the rules give it. -/
lemma records_iff (h : Filled G w i c) {a : Nat} {x : Place} :
    c.Records a x ↔ Leads G w c.place? i a x := by
  obtain ⟨start, h⟩ := h
  constructor
  · exact h.sound a x
  · intro hl
    refine h.closed a x (hl.mono (fun id y hy => ?_) (Nat.le_refl _))
    exact below_eq_some.2 ⟨Chart.lt_size_of_place? hy, hy⟩

lemma holds_of_leads (h : Filled G w i c) {a : Nat} {x : Place}
    (hl : Leads G w c.place? i a x) : c.Holds x :=
  (h.records_iff.2 hl).holds

/-! ### Completeness -/

/-- What matches from where its nonterminal starts is held. -/
lemma holds_of_spans (h : Filled G w i c) {v : Vertex} {lo hi : Nat} {ts : List Tree}
    (hs : Spans G w v lo hi ts) (hhi : hi ≤ i) {n : NonTerminal} (hn : G.headOf? v = some n)
    (hstart : c.Holds ⟨.start n, lo, lo⟩) : c.Holds ⟨v, lo, hi⟩ := by
  induction hs generalizing n with
  | enter hp hlo =>
    obtain ⟨a, ha⟩ := hstart
    refine h.holds_of_leads (.start ha (G.mem_prodsOf.2 ⟨_, hp, ?_⟩))
    simpa [Grammar.headOf?, hp] using hn
  | scan _ hsym ht ih =>
    obtain ⟨a, ha⟩ := ih (Nat.le_of_succ_le hhi) hn hstart
    exact h.holds_of_leads (.scan ha hsym ht hhi)
  | resume hm hp hsym hc hperm ih ihn =>
    obtain ⟨b, hb⟩ := ih (Nat.le_trans hc.le.1 hhi) hn hstart
    obtain ⟨a, ha⟩ := ihn hhi rfl
      (h.holds_of_leads (.call hb (by rw [Grammar.symbolAt?_eq hp, hsym])))
    exact h.holds_of_leads (.resume ha hb hp hsym hperm)
  | exit hp _ ih =>
    obtain ⟨a, ha⟩ := ih hhi (by simpa [Grammar.headOf?, hp] using hn) hstart
    exact h.holds_of_leads (.exit hp ha)

lemma holds_start (h : Filled G w i c) {n : NonTerminal} (hn : Predicted G w n k) (hk : k ≤ i) :
    c.Holds ⟨.start n, k, k⟩ := by
  induction hn with
  | start =>
    obtain ⟨start, h⟩ := h
    exact h.initial
  | call hp _ hm hs ih =>
    obtain ⟨ts, hts⟩ := hm
    obtain ⟨b, hb⟩ := h.holds_of_spans hts hk (by simp [Grammar.headOf?, hp])
      (ih (Nat.le_trans hts.le.1 hk))
    exact h.holds_of_leads (.call hb (by rw [Grammar.symbolAt?_eq hp, hs]))

/-- A filled column holds exactly the valid entries. -/
lemma holds_iff (h : Filled G w i c) {x : Place} : c.Holds x ↔ Valid G w x ∧ x.column ≤ i := by
  constructor
  · exact fun hx => ⟨h.valid hx, h.column_le hx⟩
  · rintro ⟨hx, hi⟩
    cases hx with
    | start hn => exact h.holds_start hn hi
    | item hp hn hm =>
      obtain ⟨ts, hts⟩ := hm
      exact h.holds_of_spans hts hi (by simp [Grammar.headOf?, hp])
        (h.holds_start hn (Nat.le_trans hts.le.1 hi))
    | finish hn hd =>
      exact h.holds_of_spans hd hi rfl (h.holds_start hn (Nat.le_trans hd.le.1 hi))

/-! ### Expected terminals -/

lemma mem_awaiting_iff (h : Filled G w i c) (hk : k ≤ i) {t : Terminal} :
    (∃ id, id ∈ c.awaiting G (.terminal t) k) ↔ Expects G w k t := by
  simp only [h.indexed.mem_awaiting_iff]
  constructor
  · rintro ⟨id, p, dot, j, hx, ht⟩
    exact ⟨p, dot, j, h.valid ⟨id, hx⟩, ht⟩
  · rintro ⟨p, dot, j, hx, ht⟩
    obtain ⟨id, hid⟩ := h.holds_iff.2 ⟨hx, hk⟩
    exact ⟨id, p, dot, j, hid, ht⟩

lemma awaiting_eq_nil_iff (h : Filled G w i c) (hk : k ≤ i) {t : Terminal} :
    c.awaiting G (.terminal t) k = [] ↔ ¬ Expects G w k t := by
  rw [← h.mem_awaiting_iff hk, List.eq_nil_iff_forall_not_mem, not_exists]

/-- The terminals that a filled column is reported to expect. -/
lemma mem_expected_iff (h : Filled G w i c) (hk : k ≤ i) {t : Terminal} :
    t ∈ c.expected G k ↔ Expects G w k t := by
  rw [← h.mem_awaiting_iff hk, Chart.expected, Ordered.mem_ofList, List.mem_filterMap]
  refine exists_congr fun id => ?_
  rw [Chart.awaiting, List.mem_filter]
  refine and_congr_right fun _ => ?_
  cases c.nextOf? G id with
  | none => simp
  | some s => cases s <;> simp [Symbol.terminal?]

end Filled

/-! ### The whole input -/

/-- A token inside a derivation is expected at its place. -/
lemma Spans.expects {v : Vertex} {lo hi : Nat} {ts : List Tree} (h : Spans G w v lo hi ts)
    {n : NonTerminal} (hn : G.headOf? v = some n) (hp : Predicted G w n lo) {k : Nat}
    (hlo : lo ≤ k) (hhi : k < hi) {t : Token} (ht : w[k]? = some t) : Expects G w k t.kind := by
  induction h generalizing n with
  | enter _ _ => omega
  | @scan p dot lo hi ts t' hm hs ht' ih =>
    rcases Nat.lt_succ_iff_lt_or_eq.1 hhi with hk | rfl
    · exact ih hn hp hlo hk
    · obtain ⟨prod, hprod, -⟩ := Option.bind_eq_some_iff.1 hs
      obtain rfl := Option.some.inj (ht.symm.trans ht')
      obtain rfl : prod.head = n := by simpa [Grammar.headOf?, hprod] using hn
      exact ⟨p, dot, lo, .item hprod hp ⟨ts, hm⟩, hs⟩
  | @resume p dot lo mid hi prod m ts t' hm hprod hs hc hperm ih ihn =>
    rcases Nat.lt_or_ge k mid with hk | hk
    · exact ih hn hp hlo hk
    · obtain rfl : prod.head = n := by simpa [Grammar.headOf?, hprod] using hn
      exact ihn rfl (.call hprod hp ⟨ts, hm⟩ hs) hk hhi
  | exit hprod hm ih =>
    exact ih (by simpa [Grammar.headOf?, hprod] using hn) hp hlo hhi

/-- Reading on from a column ends at a token that is not expected, or fills all columns. -/
lemma advance_spec (hG : G.Closed) {rest : List Token} {column start : Nat} {s : Progress}
    (h : Filling G w column start start s.chart) (hrest : rest = w.drop column)
    (hbefore : ∀ q < column, ∀ t, w[q]? = some t → Expects G w q t.kind) :
    (∃ s' p t c, G.advance w rest column start s =
        (s', some (.unexpectedToken p t (c.expected G p))) ∧ Filled G w p c ∧ w[p]? = some t ∧
        ¬ Expects G w p t.kind ∧ ∀ q < p, ∀ t, w[q]? = some t → Expects G w q t.kind) ∨
      ∃ s', G.advance w rest column start s = (s', none) ∧ Filled G w w.length s'.chart ∧
        ∀ q t, w[q]? = some t → Expects G w q t.kind := by
  induction rest generalizing column start s with
  | nil =>
    have hlen := congrArg List.length hrest
    rw [List.length_nil, List.length_drop] at hlen
    obtain rfl : column = w.length := Nat.le_antisymm h.column_le (by omega)
    refine Or.inr ⟨_, rfl, ⟨start, fill_filled hG h⟩, fun q t ht => ?_⟩
    exact hbefore q (List.getElem?_eq_some_iff.1 ht).1 t ht
  | cons t rest ih =>
    have ht := getElem?_of_cons_eq_drop hrest
    have hfill := fill_filled hG h
    set s' := G.fill w column start s
    have hfilled : Filled G w column s'.chart := ⟨start, hfill⟩
    rw [Grammar.advance, Grammar.read]
    cases hw : s'.chart.awaiting G (.terminal t.kind) column with
    | nil =>
      have hno := (hfilled.awaiting_eq_nil_iff (Nat.le_refl _)).1 hw
      exact Or.inl ⟨s'.note (.noneAwaits t.kind column), column, t, s'.chart, rfl, hfilled, ht,
        hno, hbefore⟩
    | cons id ids =>
      have hex : Expects G w column t.kind :=
        (hfilled.mem_awaiting_iff (Nat.le_refl _)).1 ⟨id, hw ▸ List.mem_cons_self⟩
      refine ih ?_ (by rw [← List.tail_drop, ← hrest]; rfl) fun q hq u hu => ?_
      · rw [Progress.chart_foldl_perform, ← hw]
        exact hfill.scan ht
      · rcases Nat.lt_succ_iff_lt_or_eq.1 hq with hq | rfl
        · exact hbefore q hq u hu
        · obtain rfl := Option.some.inj (ht.symm.trans hu)
          exact hex

/-- What recognition comes to. -/
lemma recognize_cases (hG : G.Closed) (w : List Token) :
    (∃ p t c, (G.recognize w).result = .error (.unexpectedToken p t (c.expected G p)) ∧
        Filled G w p c ∧ w[p]? = some t ∧ ¬ Expects G w p t.kind ∧
        ∀ q < p, ∀ t, w[q]? = some t → Expects G w q t.kind) ∨
      ∃ s, Filled G w w.length s.chart ∧ (G.recognize w).result = (G.conclude w s).2 ∧
        ∀ q t, w[q]? = some t → Expects G w q t.kind := by
  have hstart : Filling G w 0 0 0 (Progress.mk (G.initialChart w) #[]).chart :=
    filling_initialChart
  rcases advance_spec hG hstart (List.drop_zero).symm (fun q hq => absurd hq (Nat.not_lt_zero q))
    with ⟨s, p, t, c, heq, hc⟩ | ⟨s, heq, hs, hall⟩
  · exact Or.inl ⟨p, t, c, by rw [Grammar.recognize, heq], hc⟩
  · exact Or.inr ⟨s, hs, by rw [Grammar.recognize, heq], hall⟩

/-- What is under way when the recognition of an input stops. -/
def Grammar.lastProgress (G : Grammar) (w : List Token) : Progress :=
  (G.advance w w 0 0 ⟨G.initialChart w, #[]⟩).1

/-- The chart of a parse is the one at which recognition stopped. -/
lemma chart_eq_of_recognize {P : Parsing} (hP : (G.recognize w).result = .ok P) :
    P.chart = (G.lastProgress w).chart := by
  rw [Grammar.recognize] at hP
  rw [Grammar.lastProgress]
  split at hP
  · cases hP
  · next s hs =>
    rw [hs]
    exact chart_of_conclude hP

end ParseForest
