import ParseForest.Proofs.Recognition.Acceptance

/-!
# The antecedents of entries

In a complete parse an entry has exactly the antecedents that the rules give it, each of them once.
What they are is read off the place of the entry: the complete items of its productions for a
finish, and for an item behind a nonterminal the finishes that fit between an item before the
nonterminal and its own column. An entry behind something always has one.
-/

namespace ParseForest

/-- The antecedents of the entry of a number. -/
def Chart.antecedents (c : Chart) (id : Nat) : List Nat :=
  (c.entries[id]?.map Entry.antecedents).getD []

lemma Chart.antecedents_eq {c : Chart} {id : Nat} {e : Entry} (he : c.entries[id]? = some e) :
    c.antecedents id = e.antecedents := by
  simp [Chart.antecedents, he]

/-- Whether the entry of a number has more than one antecedent. -/
def Chart.branches (c : Chart) (id : Nat) : Bool :=
  c.entries[id]?.any Entry.isBranching

lemma Chart.branches_eq (c : Chart) (id : Nat) :
    c.branches id = decide (1 < (c.antecedents id).length) := by
  cases he : c.entries[id]? with
  | none => simp [Chart.branches, Chart.antecedents, he]
  | some e => simp [Chart.branches, Chart.antecedents, he, Entry.isBranching]

lemma Chart.branches_eq_isBranching {c : Chart} {id : Nat} {e : Entry}
    (he : c.entries[id]? = some e) : c.branches id = e.isBranching := by
  simp [Chart.branches, he]

/-- An entry branches exactly if it has antecedents besides the first one. -/
lemma Chart.branches_iff {c : Chart} {id a : Nat} {untried : List Nat}
    (ha : c.antecedents id = a :: untried) : c.branches id = true ↔ untried ≠ [] := by
  rw [Chart.branches_eq, ha, List.length_cons, decide_eq_true_iff, Nat.lt_add_left_iff_pos,
    List.length_pos_iff]

lemma Chart.branches_eq_false_iff {c : Chart} {id a : Nat} {untried : List Nat}
    (ha : c.antecedents id = a :: untried) : c.branches id = false ↔ untried = [] := by
  rw [← Bool.not_eq_true, Chart.branches_iff ha, not_not]

/-- The only antecedent of an entry that does not branch. -/
lemma Chart.antecedents_eq_singleton {c : Chart} {id a : Nat} (h : c.branches id = false)
    (ha : a ∈ c.antecedents id) : c.antecedents id = [a] := by
  obtain ⟨a', untried, hcons⟩ := List.exists_cons_of_ne_nil (List.ne_nil_of_mem ha)
  obtain rfl := (Chart.branches_eq_false_iff hcons).1 h
  rw [hcons, List.mem_singleton] at ha
  rw [hcons, ha]

variable {G : Grammar} {w : List Token} {K : Nat → Option Place} {read a j k : Nat}

/-! ### Inversion of the rules -/

lemma leads_enter_iff {p : Nat} :
    Leads G w K read a ⟨.item p 0, j, k⟩ ↔
      j = k ∧ ∃ n o, K a = some ⟨.start n, o, k⟩ ∧ p ∈ G.prodsOf n := by
  constructor
  · intro h
    cases h with
    | start ha hp => exact ⟨rfl, _, _, ha, hp⟩
  · rintro ⟨rfl, n, o, ha, hp⟩
    exact .start ha hp

lemma leads_finish_iff {n : NonTerminal} :
    Leads G w K read a ⟨.finish n, j, k⟩ ↔
      ∃ p prod, G.prods[p]? = some prod ∧ prod.head = n ∧
        K a = some ⟨.item p prod.body.length, j, k⟩ := by
  constructor
  · intro h
    cases h with
    | exit hp ha => exact ⟨_, _, hp, rfl, ha⟩
  · rintro ⟨p, prod, hp, rfl, ha⟩
    exact .exit hp ha

lemma leads_scan_iff {p dot : Nat} {t : Terminal} (hs : G.symbolAt? p dot = some (.terminal t)) :
    Leads G w K read a ⟨.item p (dot + 1), j, k⟩ ↔
      ∃ i u, k = i + 1 ∧ K a = some ⟨.item p dot, j, i⟩ ∧ w[i]? = some u ∧ u.kind = t ∧
        i < read := by
  constructor
  · intro h
    cases h with
    | resume ha hb hp hn hc =>
      rw [Grammar.symbolAt?_eq hp, hn] at hs
      cases hs
    | scan ha hs' hu hi =>
      rw [hs] at hs'
      cases hs'
      exact ⟨_, _, rfl, ha, hu, rfl, hi⟩
  · rintro ⟨i, u, rfl, ha, hu, rfl, hi⟩
    exact .scan ha hs hu hi

lemma leads_resume_iff {p dot : Nat} {prod : Production} {n : NonTerminal}
    (hp : G.prods[p]? = some prod) (hs : prod.body[dot]? = some (.nonterminal n)) :
    Leads G w K read a ⟨.item p (dot + 1), j, k⟩ ↔
      ∃ m b, K a = some ⟨.finish n, m, k⟩ ∧ K b = some ⟨.item p dot, j, m⟩ ∧
        prod.permits (prod.context p dot n j m k w) = true := by
  constructor
  · intro h
    cases h with
    | resume ha hb hp' hs' hc =>
      obtain rfl := Option.some.inj (hp.symm.trans hp')
      rw [hs] at hs'
      cases hs'
      exact ⟨_, _, ha, hb, hc⟩
    | scan ha hs' hu hi =>
      rw [Grammar.symbolAt?_eq hp, hs] at hs'
      cases hs'
  · rintro ⟨m, b, ha, hb, hc⟩
    exact .resume ha hb hp hs hc

/-! ### Antecedents in a filled chart -/

namespace Filled

variable {c : Chart} {i id : Nat} {x : Place}

lemma mem_antecedents_iff (h : Filled G w i c) (hx : c.place? id = some x) :
    a ∈ c.antecedents id ↔ Leads G w c.place? i a x := by
  obtain ⟨e, he, rfl⟩ := Chart.place?_eq_some.1 hx
  rw [Chart.antecedents_eq he, ← h.records_iff]
  constructor
  · exact fun ha => ⟨id, e, he, rfl, ha⟩
  · rintro ⟨id', e', he', hplace, ha⟩
    obtain rfl := h.indexed.place?_inj hx (Chart.place?_eq_some.2 ⟨e', he', hplace⟩)
    obtain rfl := Option.some.inj (he.symm.trans he')
    exact ha

lemma antecedents_nodup (h : Filled G w i c) (id : Nat) : (c.antecedents id).Nodup := by
  unfold Chart.antecedents
  cases he : c.entries[id]? with
  | none => exact List.nodup_nil
  | some e => exact h.deduped id e he

lemma lt_size_of_mem_antecedents (h : Filled G w i c) (hx : c.place? id = some x)
    (ha : a ∈ c.antecedents id) : a < c.entries.size := by
  have hplace : ∃ y, c.place? a = some y := by
    cases (h.mem_antecedents_iff hx).1 ha with
    | start ha hp => exact ⟨_, ha⟩
    | call ha hs => exact ⟨_, ha⟩
    | exit hp ha => exact ⟨_, ha⟩
    | resume ha hb hp hs hc => exact ⟨_, ha⟩
    | scan ha hs ht hi => exact ⟨_, ha⟩
  obtain ⟨y, hy⟩ := hplace
  exact Chart.lt_size_of_place? hy

lemma length_antecedents_le (h : Filled G w i c) (hx : c.place? id = some x) :
    (c.antecedents id).length ≤ c.entries.size := by
  have hsub : c.antecedents id ⊆ List.range c.entries.size := fun a ha =>
    List.mem_range.2 (h.lt_size_of_mem_antecedents hx ha)
  simpa using (h.antecedents_nodup id).length_le_of_subset hsub

/-- A branching entry has an antecedent besides any given one. -/
lemma exists_ne_of_branches (h : Filled G w i c) (hb : c.branches id = true) (a : Nat) :
    ∃ a' ∈ c.antecedents id, a' ≠ a := by
  have hnodup := h.antecedents_nodup id
  rw [Chart.branches_eq] at hb
  match hl : c.antecedents id with
  | [] => simp [hl] at hb
  | [a'] => simp [hl] at hb
  | a₁ :: a₂ :: l =>
    by_cases h₁ : a₁ = a
    · refine ⟨a₂, by simp, ?_⟩
      rw [hl, List.nodup_cons] at hnodup
      rintro rfl
      exact hnodup.1 (by simp [h₁])
    · exact ⟨a₁, by simp, h₁⟩

/-- An entry whose antecedents are all the same does not branch. -/
lemma branches_eq_false (h : Filled G w i c)
    (hall : ∀ a ∈ c.antecedents id, ∀ a' ∈ c.antecedents id, a = a') : c.branches id = false := by
  rw [Bool.eq_false_iff]
  intro hb
  obtain ⟨a, ha, -⟩ := h.exists_ne_of_branches hb 0
  obtain ⟨a', ha', hne⟩ := h.exists_ne_of_branches hb a
  exact hne (hall a' ha' a ha)

end Filled

/-! ### Antecedents in a complete parse -/

lemma derives_lo_eq {G : Grammar} {w : List Token} {n : NonTerminal} {lo hi : Nat} {t : Tree}
    (h : G.Derives w n lo hi t) : t.lo = lo := by
  cases h with
  | exit => rfl

namespace Parsing.Complete

variable {P : Parsing} {id : Nat}

lemma holds_iff (h : P.Complete) {x : Place} :
    P.chart.Holds x ↔ Valid P.grammar P.tokens x := by
  rw [h.filled.holds_iff]
  exact and_iff_left_of_imp fun hx => hx.bounds.2

lemma valid (h : P.Complete) {x : Place} (hx : P.chart.place? id = some x) :
    Valid P.grammar P.tokens x :=
  h.filled.valid ⟨id, hx⟩

/-- A start is at its own column. -/
lemma origin_start (h : P.Complete) {n : NonTerminal}
    (hx : P.chart.place? id = some ⟨.start n, j, k⟩) : j = k :=
  (valid_start_iff.1 (h.valid hx)).1

/-- What an item is an item of. -/
lemma prod_of_item (h : P.Complete) {p dot : Nat}
    (hx : P.chart.place? id = some ⟨.item p dot, j, k⟩) :
    ∃ prod, P.grammar.prods[p]? = some prod ∧ dot ≤ prod.body.length := by
  cases h.valid hx with
  | item hp hn hm =>
    obtain ⟨ts, hts⟩ := hm
    exact hts.prod_of_item

/-- Before the first symbol of a production stands the start of its head. -/
lemma holds_start_of_enter (h : P.Complete) {p : Nat} {prod : Production}
    (hp : P.grammar.prods[p]? = some prod)
    (hx : P.chart.place? id = some ⟨.item p 0, j, k⟩) :
    j = k ∧ P.chart.Holds ⟨.start prod.head, k, k⟩ := by
  obtain ⟨hn, ts, hts⟩ := (valid_item_iff hp).1 (h.valid hx)
  cases hts with
  | enter hp' hlo => exact ⟨rfl, h.holds_iff.2 (.start hn)⟩

/-- Behind a terminal stands a token of its kind. -/
lemma holds_item_of_scan (h : P.Complete) {p dot : Nat} {t : Terminal}
    (hs : P.grammar.symbolAt? p dot = some (.terminal t))
    (hx : P.chart.place? id = some ⟨.item p (dot + 1), j, k⟩) :
    ∃ i u, k = i + 1 ∧ P.tokens[i]? = some u ∧ u.kind = t ∧
      P.chart.Holds ⟨.item p dot, j, i⟩ := by
  obtain ⟨prod, hp, -⟩ := h.prod_of_item hx
  obtain ⟨hn, ts, hts⟩ := (valid_item_iff hp).1 (h.valid hx)
  cases hts with
  | scan hm hs' hu =>
    rw [hs] at hs'
    cases hs'
    exact ⟨_, _, rfl, hu, rfl, h.holds_iff.2 (.item hp hn ⟨_, hm⟩)⟩
  | resume hm hp' hs' hc hperm =>
    rw [Grammar.symbolAt?_eq hp', hs'] at hs
    cases hs

lemma mem_antecedents_finish_iff (h : P.Complete) {n : NonTerminal}
    (hx : P.chart.place? id = some ⟨.finish n, j, k⟩) :
    a ∈ P.chart.antecedents id ↔
      ∃ p prod, P.grammar.prods[p]? = some prod ∧ prod.head = n ∧
        P.chart.place? a = some ⟨.item p prod.body.length, j, k⟩ := by
  rw [h.filled.mem_antecedents_iff hx, leads_finish_iff]

lemma mem_antecedents_resume_iff (h : P.Complete) {p dot : Nat} {prod : Production}
    {n : NonTerminal} (hp : P.grammar.prods[p]? = some prod)
    (hs : prod.body[dot]? = some (.nonterminal n))
    (hx : P.chart.place? id = some ⟨.item p (dot + 1), j, k⟩) :
    a ∈ P.chart.antecedents id ↔
      ∃ m, P.chart.place? a = some ⟨.finish n, m, k⟩ ∧ P.chart.Holds ⟨.item p dot, j, m⟩ ∧
        prod.permits (prod.context p dot n j m k P.tokens) = true := by
  rw [h.filled.mem_antecedents_iff hx, leads_resume_iff hp hs]
  constructor
  · rintro ⟨m, b, ha, hb, hc⟩
    exact ⟨m, ha, ⟨b, hb⟩, hc⟩
  · rintro ⟨m, ha, ⟨b, hb⟩, hc⟩
    exact ⟨m, b, ha, hb, hc⟩

/-- An antecedent of an item behind a nonterminal is a finish of it that begins where the item
before it ends. -/
lemma exists_finish_of_mem (h : P.Complete) {p dot : Nat} {n : NonTerminal}
    (hx : P.chart.place? id = some ⟨.item p (dot + 1), j, k⟩)
    (hs : P.grammar.symbolAt? p dot = some (.nonterminal n)) (ha : a ∈ P.chart.antecedents id) :
    ∃ m, P.chart.place? a = some ⟨.finish n, m, k⟩ ∧ P.chart.Holds ⟨.item p dot, j, m⟩ := by
  obtain ⟨prod, hp, -⟩ := h.prod_of_item hx
  rw [Grammar.symbolAt?_eq hp] at hs
  obtain ⟨m, ha, hb, -⟩ := (h.mem_antecedents_resume_iff hp hs hx).1 ha
  exact ⟨m, ha, hb⟩

section

variable {p dot lo mid hi : Nat} {prod : Production} {n : NonTerminal} {ts : List Tree} {t : Tree}

lemma exists_mem_antecedents_exit (h : P.Complete)
    (hx : P.chart.place? id = some ⟨.finish n, lo, hi⟩) (hp : P.grammar.prods[p]? = some prod)
    (hhead : prod.head = n) (hm : Spans P.grammar P.tokens (.item p prod.body.length) lo hi ts) :
    ∃ a ∈ P.chart.antecedents id, P.chart.place? a = some ⟨.item p prod.body.length, lo, hi⟩ := by
  obtain ⟨hpred, -⟩ := valid_finish_iff.1 (h.valid hx)
  obtain ⟨a, ha⟩ := h.holds_iff.2 (.item hp (hhead ▸ hpred) ⟨_, hm⟩)
  exact ⟨a, (h.mem_antecedents_finish_iff hx).2 ⟨p, prod, hp, hhead, ha⟩, ha⟩

lemma exists_mem_antecedents_resume (h : P.Complete)
    (hx : P.chart.place? id = some ⟨.item p (dot + 1), lo, hi⟩)
    (hp : P.grammar.prods[p]? = some prod) (hs : prod.body[dot]? = some (.nonterminal n))
    (hm : Spans P.grammar P.tokens (.item p dot) lo mid ts)
    (hn : P.grammar.Derives P.tokens n mid hi t)
    (hperm : prod.permits (prod.context p dot n lo mid hi P.tokens) = true) :
    ∃ a ∈ P.chart.antecedents id, P.chart.place? a = some ⟨.finish n, mid, hi⟩ ∧
      P.chart.Holds ⟨.item p dot, lo, mid⟩ := by
  obtain ⟨hpred, -⟩ := (valid_item_iff hp).1 (h.valid hx)
  have hb : P.chart.Holds ⟨.item p dot, lo, mid⟩ := h.holds_iff.2 (.item hp hpred ⟨_, hm⟩)
  obtain ⟨a, ha⟩ := h.holds_iff.2 (.finish (.call hp hpred ⟨_, hm⟩ hs) hn)
  exact ⟨a, (h.mem_antecedents_resume_iff hp hs hx).2 ⟨mid, ha, hb, hperm⟩, ha, hb⟩

end

lemma exists_antecedent_finish (h : P.Complete) {n : NonTerminal}
    (hx : P.chart.place? id = some ⟨.finish n, j, k⟩) : ∃ a, a ∈ P.chart.antecedents id := by
  obtain ⟨hn, t, ht⟩ := valid_finish_iff.1 (h.valid hx)
  cases ht with
  | exit hp hm =>
    obtain ⟨a, ha, -⟩ := h.exists_mem_antecedents_exit hx hp rfl hm
    exact ⟨a, ha⟩

lemma exists_antecedent_resume (h : P.Complete) {p dot : Nat} {prod : Production}
    {n : NonTerminal} (hp : P.grammar.prods[p]? = some prod)
    (hs : prod.body[dot]? = some (.nonterminal n))
    (hx : P.chart.place? id = some ⟨.item p (dot + 1), j, k⟩) :
    ∃ a, a ∈ P.chart.antecedents id := by
  obtain ⟨hn, ts, hts⟩ := (valid_item_iff hp).1 (h.valid hx)
  cases hts with
  | scan hm hs' hu =>
    rw [Grammar.symbolAt?_eq hp, hs] at hs'
    cases hs'
  | resume hm hp' hs' hc hperm =>
    obtain rfl := Option.some.inj (hp.symm.trans hp')
    rw [hs] at hs'
    cases hs'
    obtain ⟨a, ha, -⟩ := h.exists_mem_antecedents_resume hx hp hs hm hc hperm
    exact ⟨a, ha⟩

/-! ### Entries that do not branch -/

lemma branches_enter (h : P.Complete) {p : Nat}
    (hx : P.chart.place? id = some ⟨.item p 0, j, k⟩) : P.chart.branches id = false := by
  refine h.filled.branches_eq_false fun a ha a' ha' => ?_
  rw [h.filled.mem_antecedents_iff hx, leads_enter_iff] at ha ha'
  obtain ⟨-, n, o, ha, hn⟩ := ha
  obtain ⟨-, n', o', ha', hn'⟩ := ha'
  obtain ⟨prod, hp, rfl⟩ := P.grammar.mem_prodsOf.1 hn
  obtain ⟨prod', hp', rfl⟩ := P.grammar.mem_prodsOf.1 hn'
  obtain rfl := Option.some.inj (hp.symm.trans hp')
  obtain rfl := h.origin_start ha
  obtain rfl := h.origin_start ha'
  exact h.filled.indexed.place?_inj ha ha'

lemma branches_scan (h : P.Complete) {p dot : Nat} {t : Terminal}
    (hx : P.chart.place? id = some ⟨.item p (dot + 1), j, k⟩)
    (hs : P.grammar.symbolAt? p dot = some (.terminal t)) : P.chart.branches id = false := by
  refine h.filled.branches_eq_false fun a ha a' ha' => ?_
  rw [h.filled.mem_antecedents_iff hx, leads_scan_iff hs] at ha ha'
  obtain ⟨i, u, rfl, ha, -⟩ := ha
  obtain ⟨i', u', heq, ha', -⟩ := ha'
  obtain rfl : i = i' := by omega
  exact h.filled.indexed.place?_inj ha ha'

/-! ### Branching and derivations -/

variable {p dot lo mid hi : Nat} {prod : Production} {n : NonTerminal} {ts : List Tree} {t : Tree}

/-- A branching finish has a derivation besides any given one: another antecedent is a complete item
of another production. -/
lemma exists_derives_ne (h : P.Complete) (hx : P.chart.place? id = some ⟨.finish n, lo, hi⟩)
    (hbr : P.chart.branches id = true) (ht : P.grammar.Derives P.tokens n lo hi t) :
    ∃ t', t' ≠ t ∧ P.grammar.Derives P.tokens n lo hi t' := by
  cases ht with
  | @exit p _ _ prod ts hp hm =>
    obtain ⟨a, -, ha⟩ := h.exists_mem_antecedents_exit hx hp rfl hm
    obtain ⟨a', ha', hne⟩ := h.filled.exists_ne_of_branches hbr a
    obtain ⟨q, prod', hq, heq, hq'⟩ := (h.mem_antecedents_finish_iff hx).1 ha'
    obtain ⟨-, us, hus⟩ := (valid_item_iff hq).1 (h.valid hq')
    have ht' : P.grammar.Derives P.tokens prod.head lo hi
        (.node prod'.head q lo hi (Tree.childrenOf lo us)) := by
      rw [← heq]
      exact .exit hq hus
    refine ⟨_, fun hnode => ?_, ht'⟩
    simp only [Tree.node.injEq] at hnode
    obtain ⟨-, rfl, -⟩ := hnode
    obtain rfl := Option.some.inj (hq.symm.trans hp)
    exact hne (h.filled.indexed.place?_inj hq' ha)

/-- Behind a branching item there are trees besides any given ones: another antecedent splits the
input at another place. -/
lemma exists_spans_ne (h : P.Complete)
    (hx : P.chart.place? id = some ⟨.item p (dot + 1), lo, hi⟩)
    (hbr : P.chart.branches id = true) (hp : P.grammar.prods[p]? = some prod)
    (hs : prod.body[dot]? = some (.nonterminal n))
    (ha : P.chart.place? a = some ⟨.finish n, mid, hi⟩)
    (hn : P.grammar.Derives P.tokens n mid hi t) (ts : List Tree) :
    ∃ ts', ts' ≠ ts ++ [t] ∧ Spans P.grammar P.tokens (.item p (dot + 1)) lo hi ts' := by
  obtain ⟨a', ha', hne⟩ := h.filled.exists_ne_of_branches hbr a
  obtain ⟨m, hm', ⟨b', hb'⟩, hperm'⟩ := (h.mem_antecedents_resume_iff hp hs hx).1 ha'
  obtain ⟨-, u, hu⟩ := valid_finish_iff.1 (h.valid hm')
  obtain ⟨-, us, hus⟩ := (valid_item_iff hp).1 (h.valid hb')
  refine ⟨us ++ [u], fun heq => ?_, .resume hus hp hs hu hperm'⟩
  obtain rfl : u = t := by simpa using congrArg List.getLast? heq
  obtain rfl := (derives_lo_eq hn).symm.trans (derives_lo_eq hu)
  exact hne (h.filled.indexed.place?_inj hm' ha)

/-- A finish with one antecedent has one derivation, if there is one choice of trees behind the
antecedent. -/
lemma derives_eq_of_singleton (h : P.Complete)
    (hx : P.chart.place? id = some ⟨.finish prod.head, lo, hi⟩)
    (hsingle : P.chart.antecedents id = [a]) (hp : P.grammar.prods[p]? = some prod)
    (ha : P.chart.place? a = some ⟨.item p prod.body.length, lo, hi⟩)
    (huniq : ∀ ts', Spans P.grammar P.tokens (.item p prod.body.length) lo hi ts' → ts' = ts)
    (ht : P.grammar.Derives P.tokens prod.head lo hi t) :
    t = .node prod.head p lo hi (Tree.childrenOf lo ts) := by
  generalize hn : prod.head = n at ht
  cases ht with
  | exit hq hus =>
    obtain ⟨a', ha', hplace⟩ := h.exists_mem_antecedents_exit hx hq hn.symm hus
    rw [hsingle, List.mem_singleton] at ha'
    subst ha'
    rw [ha] at hplace
    simp only [Option.some.injEq, Place.mk.injEq, Vertex.item.injEq] at hplace
    obtain ⟨⟨rfl, -⟩, -⟩ := hplace
    obtain rfl := Option.some.inj (hq.symm.trans hp)
    rw [huniq _ hus]

/-- Behind an item with one antecedent there is one choice of trees, if there is one before the
nonterminal and one for the nonterminal. -/
lemma spans_eq_of_singleton (h : P.Complete)
    (hx : P.chart.place? id = some ⟨.item p (dot + 1), lo, hi⟩)
    (hsingle : P.chart.antecedents id = [a]) (hp : P.grammar.prods[p]? = some prod)
    (hs : prod.body[dot]? = some (.nonterminal n))
    (ha : P.chart.place? a = some ⟨.finish n, mid, hi⟩)
    (huniq : ∀ ts', Spans P.grammar P.tokens (.item p dot) lo mid ts' → ts' = ts)
    (huniqn : ∀ t', P.grammar.Derives P.tokens n mid hi t' → t' = t) {ts' : List Tree}
    (hts : Spans P.grammar P.tokens (.item p (dot + 1)) lo hi ts') : ts' = ts ++ [t] := by
  cases hts with
  | scan hm hs' hu =>
    rw [Grammar.symbolAt?_eq hp, hs] at hs'
    cases hs'
  | resume hm hp' hs' hn hperm =>
    obtain rfl := Option.some.inj (hp.symm.trans hp')
    rw [hs] at hs'
    cases hs'
    obtain ⟨a', hmem, ha', -⟩ := h.exists_mem_antecedents_resume hx hp hs hm hn hperm
    rw [hsingle, List.mem_singleton] at hmem
    subst hmem
    have hplace := ha.symm.trans ha'
    simp only [Option.some.injEq, Place.mk.injEq] at hplace
    obtain ⟨-, rfl, -⟩ := hplace
    rw [huniq _ hm, huniqn _ hn]

end Parsing.Complete

end ParseForest
