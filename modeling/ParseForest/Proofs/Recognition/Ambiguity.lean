import ParseForest.Proofs.Recognition.Antecedents
import ParseForest.Recognition.Ambiguity
import Mathlib.Data.List.Nodup
import Mathlib.Data.List.Pairwise
import Mathlib.Tactic.Push

/-!
# Local ambiguities

The test for ambiguity counts: the complete items of one nonterminal and origin in a column, and the
antecedents of an item behind a nonterminal. The main statement, `isAmbiguous_iff_locally`, says
what it finds: two productions that make the same phrase, or two places where the last nonterminal
of a matched prefix may begin. An input without such a choice has at most one derivation,
`Spans.unique`, so the test succeeds on all inputs with several.
-/

namespace ParseForest

/-- Two productions make a phrase of one nonterminal between the same positions. -/
def Grammar.CompletesTwice (G : Grammar) (w : List Token) (j k : Nat) : Prop :=
  ∃ p q prod prod', p ≠ q ∧ G.prods[p]? = some prod ∧ G.prods[q]? = some prod' ∧
    prod.head = prod'.head ∧ Valid G w ⟨.item p prod.body.length, j, k⟩ ∧
    Valid G w ⟨.item q prod'.body.length, j, k⟩

/-- An item can go on over a nonterminal that lies between `m` and `k`. -/
def Grammar.Passes (G : Grammar) (w : List Token) (p dot j m k : Nat) : Prop :=
  ∃ prod n, G.prods[p]? = some prod ∧ prod.body[dot]? = some (.nonterminal n) ∧
    Valid G w ⟨.item p dot, j, m⟩ ∧ (∃ t, G.Derives w n m k t) ∧
    prod.permits (prod.context p dot n j m k w) = true

/-- The nonterminal behind which an item stands may begin at two positions. -/
def Grammar.SplitsTwice (G : Grammar) (w : List Token) (j k : Nat) : Prop :=
  ∃ p dot m m', m ≠ m' ∧ G.Passes w p dot j m k ∧ G.Passes w p dot j m' k

/-- Some phrase, or some beginning of a phrase, is matched in two ways. -/
def Grammar.LocallyAmbiguous (G : Grammar) (w : List Token) : Prop :=
  ∃ j k, j ≤ k ∧ (G.CompletesTwice w j k ∨ G.SplitsTwice w j k)

variable {G : Grammar} {w : List Token} {j k : Nat}

lemma Grammar.CompletesTwice.le (h : G.CompletesTwice w j k) : j ≤ k ∧ k ≤ w.length := by
  obtain ⟨p, q, prod, prod', -, -, -, -, hv, -⟩ := h
  exact hv.bounds

lemma Grammar.SplitsTwice.le (h : G.SplitsTwice w j k) : j ≤ k ∧ k ≤ w.length := by
  obtain ⟨p, dot, m, m', -, ⟨prod, n, -, -, hv, ⟨t, ht⟩, -⟩, -⟩ := h
  exact ⟨Nat.le_trans hv.bounds.1 ht.le.1, ht.le.2⟩

/-! ### Inputs without a choice -/

/-- Where nothing is locally ambiguous, what a vertex has behind it is unique. -/
lemma Spans.unique (hG : ¬ G.LocallyAmbiguous w) {v : Vertex} {lo hi : Nat} {ts : List Tree}
    (h : Spans G w v lo hi ts) {n : NonTerminal} (hv : G.headOf? v = some n)
    (hn : Predicted G w n lo) {ts' : List Tree} (h' : Spans G w v lo hi ts') : ts' = ts := by
  induction h generalizing n ts' with
  | enter hp hlo =>
    cases h'
    rfl
  | scan hm hs ht ih =>
    cases h' with
    | scan hm' hs' ht' =>
      obtain rfl := Option.some.inj (ht.symm.trans ht')
      rw [ih hv hn hm']
    | resume hm' hp hs' hc hperm =>
      rw [Grammar.symbolAt?_eq hp, hs'] at hs
      cases hs
  | @resume p dot lo mid hi prod callee ts t hm hp hs hc hperm ih ihc =>
    cases h' with
    | scan hm' hs' ht' =>
      rw [Grammar.symbolAt?_eq hp, hs] at hs'
      cases hs'
    | @resume _ _ _ mid' _ _ _ ts' t' hm' hp' hs' hc' hperm' =>
      obtain rfl := Option.some.inj (hp.symm.trans hp')
      obtain rfl : callee = _ := by simpa [hs] using hs'
      obtain rfl : prod.head = n := by simpa [Grammar.headOf?, hp] using hv
      by_cases hmid : mid = mid'
      · subst hmid
        have hcallee := ihc rfl (.call hp hn ⟨_, hm⟩ hs) hc'
        rw [List.singleton_inj.1 hcallee, ih hv hn hm']
      · refine absurd ⟨lo, hi, Nat.le_trans hm.le.1 hc.le.1, Or.inr ?_⟩ hG
        exact ⟨p, dot, mid, mid', hmid, ⟨prod, callee, hp, hs, .item hp hn ⟨_, hm⟩, ⟨t, hc⟩, hperm⟩,
          ⟨prod, callee, hp, hs, .item hp hn ⟨_, hm'⟩, ⟨t', hc'⟩, hperm'⟩⟩
  | @exit p lo hi prod ts hp hm ih =>
    generalize hhead : prod.head = m at h'
    cases h' with
    | @exit q _ _ prod' us hq hm' =>
      obtain rfl : prod.head = n := Option.some.inj hv
      by_cases hpq : p = q
      · subst hpq
        obtain rfl := Option.some.inj (hp.symm.trans hq)
        rw [ih (by simp [Grammar.headOf?, hp]) hn hm']
      · refine absurd ⟨lo, hi, hm.le.1, Or.inl ?_⟩ hG
        exact ⟨p, q, prod, prod', hpq, hp, hq, hhead, .item hp hn ⟨_, hm⟩,
          .item hq (hhead ▸ hn) ⟨_, hm'⟩⟩

/-- An input with two derivations is locally ambiguous. -/
lemma Grammar.locallyAmbiguous_of_derives_ne {hi : Nat} {t t' : Tree} (hne : t ≠ t')
    (h : G.Derives w G.start 0 hi t) (h' : G.Derives w G.start 0 hi t') :
    G.LocallyAmbiguous w := by
  by_contra hno
  exact hne (List.singleton_inj.1 (Spans.unique hno h' rfl .start h))

/-! ### What the test counts -/

namespace Parsing

lemma hasRepetition_iff {α : Type} [BEq α] [LawfulBEq α] {l : List α} :
    hasRepetition l = true ↔ ¬ l.Nodup := by
  induction l with
  | nil => simp [hasRepetition]
  | cons a l ih =>
    rw [hasRepetition, Bool.or_eq_true, List.contains_iff_mem, ih, List.nodup_cons, not_and_or,
      not_not]

/-- The values of a function on a list without repetitions repeat only if two of its elements have
the same value. -/
lemma nodup_filterMap_iff {α β : Type} {f : α → Option β} {l : List α} (hl : l.Nodup) :
    (l.filterMap f).Nodup ↔
      ∀ a ∈ l, ∀ b ∈ l, a ≠ b → ∀ y, f a = some y → ∀ y', f b = some y' → y ≠ y' := by
  rw [List.Nodup, List.pairwise_filterMap]
  constructor
  · intro h a ha b hb hne
    have hsymm : Std.Symm fun a b => ∀ y, f a = some y → ∀ y', f b = some y' → y ≠ y' :=
      ⟨fun a b h y hb y' ha heq => h y' ha y hb heq.symm⟩
    exact h.forall ha hb hne
  · exact fun h => hl.pairwise_of_forall_ne h

variable {P : Parsing}

namespace Complete

lemma mem_column_iff (hP : P.Complete) {i : Nat} {e : Entry} :
    e ∈ P.column i ↔ ∃ id : Nat, P.chart.entries[id]? = some e ∧ e.column = i := by
  rw [column, List.mem_filterMap]
  constructor
  · rintro ⟨id, hid, he⟩
    obtain ⟨e', he', hi⟩ := hP.filled.indexed.mem_ids.1 hid
    obtain rfl := Option.some.inj (he.symm.trans he')
    exact ⟨id, he, hi⟩
  · rintro ⟨id, he, hi⟩
    exact ⟨id, hP.filled.indexed.mem_ids.2 ⟨e, he, hi⟩, he⟩

/-- The passes of an item are its antecedents. -/
lemma passes_iff (hP : P.Complete) {p dot m id : Nat}
    (hx : P.chart.place? id = some ⟨.item p (dot + 1), j, k⟩) :
    P.grammar.Passes P.tokens p dot j m k ↔
      ∃ n, P.grammar.symbolAt? p dot = some (.nonterminal n) ∧
        ∃ a ∈ P.chart.antecedents id, P.chart.place? a = some ⟨.finish n, m, k⟩ := by
  constructor
  · rintro ⟨prod, n, hp, hs, hv, ⟨t, ht⟩, hperm⟩
    obtain ⟨-, ts, hts⟩ := (valid_item_iff hp).1 hv
    obtain ⟨a, hmem, ha, -⟩ := hP.exists_mem_antecedents_resume hx hp hs hts ht hperm
    exact ⟨n, by rw [Grammar.symbolAt?_eq hp, hs], a, hmem, ha⟩
  · rintro ⟨n, hs, a, hmem, ha⟩
    obtain ⟨prod, hp, -⟩ := hP.prod_of_item hx
    rw [Grammar.symbolAt?_eq hp] at hs
    obtain ⟨m', ha', hb, hperm⟩ := (hP.mem_antecedents_resume_iff hp hs hx).1 hmem
    obtain ⟨-, rfl, -⟩ : Vertex.finish n = .finish n ∧ m = m' ∧ k = k := by
      simpa using ha.symm.trans ha'
    exact ⟨prod, n, hp, hs, hP.holds_iff.1 hb, (valid_finish_iff.1 (hP.valid ha)).2, hperm⟩

/-- An item behind a symbol branches exactly if the symbol is a nonterminal that may begin at two
positions. -/
lemma branches_iff_passes (hP : P.Complete) {p dot id : Nat}
    (hx : P.chart.place? id = some ⟨.item p (dot + 1), j, k⟩) :
    P.chart.branches id = true ↔ ∃ m m', m ≠ m' ∧
      P.grammar.Passes P.tokens p dot j m k ∧ P.grammar.Passes P.tokens p dot j m' k := by
  constructor
  · intro hbr
    obtain ⟨prod, hp, hdot⟩ := hP.prod_of_item hx
    obtain ⟨s, hs⟩ : ∃ s, prod.body[dot]? = some s := ⟨_, List.getElem?_eq_getElem hdot⟩
    have hsym : P.grammar.symbolAt? p dot = some s := by rw [Grammar.symbolAt?_eq hp, hs]
    cases s with
    | terminal t =>
      rw [hP.branches_scan hx hsym] at hbr
      cases hbr
    | nonterminal n =>
      obtain ⟨a, ha, -⟩ := hP.filled.exists_ne_of_branches hbr 0
      obtain ⟨a', ha', hne⟩ := hP.filled.exists_ne_of_branches hbr a
      obtain ⟨m, hm, -⟩ := hP.exists_finish_of_mem hx hsym ha
      obtain ⟨m', hm', -⟩ := hP.exists_finish_of_mem hx hsym ha'
      refine ⟨m, m', ?_, (hP.passes_iff hx).2 ⟨n, hsym, a, ha, hm⟩,
        (hP.passes_iff hx).2 ⟨n, hsym, a', ha', hm'⟩⟩
      rintro rfl
      exact hne (hP.filled.indexed.place?_inj hm' hm)
  · rintro ⟨m, m', hne, hm, hm'⟩
    obtain ⟨n, hs, a, ha, hplace⟩ := (hP.passes_iff hx).1 hm
    obtain ⟨n', hs', a', ha', hplace'⟩ := (hP.passes_iff hx).1 hm'
    cases hbr : P.chart.branches id with
    | true => rfl
    | false =>
      rw [Chart.antecedents_eq_singleton hbr ha, List.mem_singleton] at ha'
      subst ha'
      simp only [hplace, Option.some.injEq, Place.mk.injEq] at hplace'
      exact absurd hplace'.2.1 hne

/-- An item that passes a nonterminal has an entry behind it. -/
lemma exists_place?_of_passes (hP : P.Complete) {p dot m : Nat}
    (h : P.grammar.Passes P.tokens p dot j m k) :
    ∃ id, P.chart.place? id = some ⟨.item p (dot + 1), j, k⟩ := by
  obtain ⟨prod, n, hp, hs, hv, ⟨t, ht⟩, hperm⟩ := h
  obtain ⟨hn, ts, hts⟩ := (valid_item_iff hp).1 hv
  exact hP.holds_iff.2 (.item hp hn ⟨_, .resume hts hp hs ht hperm⟩)

/-- Entries of a column that are counted as splits. -/
lemma any_isSplit_iff (hP : P.Complete) {i : Nat} :
    (P.column i).any isSplit = true ↔ ∃ j, P.grammar.SplitsTwice P.tokens j i := by
  rw [List.any_eq_true]
  constructor
  · rintro ⟨e, he, hsplit⟩
    obtain ⟨id, hid, rfl⟩ := hP.mem_column_iff.1 he
    unfold isSplit at hsplit
    split at hsplit
    · next p dot hv =>
      have hx : P.chart.place? id = some ⟨.item p (dot + 1), e.origin, e.column⟩ :=
        Chart.place?_eq_some.2 ⟨e, hid, by simp [Entry.place, hv]⟩
      rw [← Chart.branches_eq_isBranching hid, hP.branches_iff_passes hx] at hsplit
      obtain ⟨m, m', hne, hm, hm'⟩ := hsplit
      exact ⟨e.origin, p, dot, m, m', hne, hm, hm'⟩
    · cases hsplit
  · rintro ⟨j, p, dot, m, m', hne, hm, hm'⟩
    obtain ⟨id, hx⟩ := hP.exists_place?_of_passes hm
    obtain ⟨e, he, hplace⟩ := Chart.place?_eq_some.1 hx
    have hbr := (hP.branches_iff_passes hx).2 ⟨m, m', hne, hm, hm'⟩
    simp only [Entry.place, Place.mk.injEq] at hplace
    refine ⟨e, hP.mem_column_iff.2 ⟨id, he, hplace.2.2⟩, ?_⟩
    rw [isSplit, hplace.1]
    exact Chart.branches_eq_isBranching he ▸ hbr

/-- The completions of entries are those of complete items. -/
lemma completion_eq_some_iff {id i o : Nat} {n : NonTerminal} (hid : id ∈ P.chart.ids i)
    (hP : P.Complete) :
    (P.chart.entries[id]?).bind P.completion? = some (n, o) ↔
      ∃ p prod, P.grammar.prods[p]? = some prod ∧ prod.head = n ∧
        P.chart.place? id = some ⟨.item p prod.body.length, o, i⟩ := by
  obtain ⟨e, he, rfl⟩ := hP.filled.indexed.mem_ids.1 hid
  rw [he, Option.bind_some, completion?, Chart.place?, he, Option.map_some, Entry.place]
  cases hv : e.vertex with
  | start m => simp [Grammar.isComplete]
  | finish m => simp [Grammar.isComplete]
  | item p dot =>
    cases hp : P.grammar.prods[p]? with
    | none => simp [Grammar.isComplete, hp]
    | some prod =>
      have hcomplete : P.grammar.isComplete (.item p dot) = (prod.body.length == dot) := by
        rw [Grammar.isComplete, hp, Option.any_some]
      have hhead : P.grammar.headOf? (.item p dot) = some prod.head := by
        rw [Grammar.headOf?, hp, Option.map_some]
      rw [hcomplete, hhead]
      constructor
      · intro h
        split at h
        · next hdot =>
          cases h
          exact ⟨p, prod, hp, rfl, by rw [beq_iff_eq.1 hdot]⟩
        · cases h
      · rintro ⟨q, prod', hq, rfl, hplace⟩
        simp only [Option.some.injEq, Place.mk.injEq, Vertex.item.injEq] at hplace
        obtain ⟨⟨rfl, rfl⟩, rfl, -⟩ := hplace
        obtain rfl := Option.some.inj (hp.symm.trans hq)
        rw [if_pos (beq_self_eq_true _), Option.map_some]

/-- Entries of a column that have the same completion. -/
lemma hasRepetition_completions_iff (hP : P.Complete) {i : Nat} :
    hasRepetition ((P.column i).filterMap P.completion?) = true ↔
      ∃ j, P.grammar.CompletesTwice P.tokens j i := by
  have hids : (P.chart.ids i).Nodup := (hP.filled.indexed.ids_pairwise i).imp Nat.ne_of_lt
  rw [hasRepetition_iff, column, List.filterMap_filterMap, nodup_filterMap_iff hids]
  push Not
  constructor
  · rintro ⟨a, ha, b, hb, hne, ⟨n, j⟩, hna, _, hnb, rfl⟩
    obtain ⟨p, prod, hp, rfl, hx⟩ := (completion_eq_some_iff ha hP).1 hna
    obtain ⟨q, prod', hq, heq, hy⟩ := (completion_eq_some_iff hb hP).1 hnb
    refine ⟨j, p, q, prod, prod', ?_, hp, hq, heq.symm, hP.valid hx, hP.valid hy⟩
    rintro rfl
    obtain rfl := Option.some.inj (hp.symm.trans hq)
    exact hne (hP.filled.indexed.place?_inj hx hy)
  · rintro ⟨j, p, q, prod, prod', hne, hp, hq, heq, hv, hv'⟩
    obtain ⟨a, ha⟩ := hP.holds_iff.2 hv
    obtain ⟨b, hb⟩ := hP.holds_iff.2 hv'
    have hma : a ∈ P.chart.ids i := hP.filled.indexed.mem_ids_iff.2 ⟨_, _, ha⟩
    have hmb : b ∈ P.chart.ids i := hP.filled.indexed.mem_ids_iff.2 ⟨_, _, hb⟩
    refine ⟨a, hma, b, hmb, ?_, (prod.head, j),
      (completion_eq_some_iff hma hP).2 ⟨p, prod, hp, rfl, ha⟩, _,
      (completion_eq_some_iff hmb hP).2 ⟨q, prod', hq, heq.symm, hb⟩, rfl⟩
    rintro rfl
    rw [ha, Option.some.injEq, Place.mk.injEq, Vertex.item.injEq] at hb
    exact hne hb.1.1

/-- The test succeeds exactly if some part of the input is locally ambiguous. -/
lemma isAmbiguous_iff (hP : P.Complete) :
    P.isAmbiguous = true ↔ P.grammar.LocallyAmbiguous P.tokens := by
  simp only [isAmbiguous, List.any_eq_true, List.mem_range, Bool.or_eq_true, hP.any_isSplit_iff,
    hP.hasRepetition_completions_iff, hP.columns_size]
  constructor
  · rintro ⟨k, -, ⟨j, h⟩ | ⟨j, h⟩⟩
    · exact ⟨j, k, h.le.1, Or.inr h⟩
    · exact ⟨j, k, h.le.1, Or.inl h⟩
  · rintro ⟨j, k, -, h | h⟩
    · exact ⟨k, Nat.lt_succ_of_le h.le.2, Or.inr ⟨j, h⟩⟩
    · exact ⟨k, Nat.lt_succ_of_le h.le.2, Or.inl ⟨j, h⟩⟩

end Complete

end Parsing

/-- The test for ambiguity finds exactly the local ambiguities: in some part of the input two
productions of one nonterminal are complete, or an item is reached through two beginnings of the
nonterminal before its dot. So it succeeds whenever the input has more than one derivation. -/
theorem isAmbiguous_iff_locally {start : NonTerminal} {rules : List RuleDecl}
    (hG : Grammar.build start rules = .ok G) {P : Parsing}
    (hP : (G.recognize w).result = .ok P) :
    (P.isAmbiguous = true ↔ G.LocallyAmbiguous w) ∧
      ∀ t t', t ≠ t' → G.Derives w G.start 0 w.length t → G.Derives w G.start 0 w.length t' →
        P.isAmbiguous = true := by
  obtain ⟨rfl, rfl, hc⟩ := complete_of_recognize (Grammar.closed_of_build hG) hP
  have hiff := hc.isAmbiguous_iff
  exact ⟨hiff, fun t t' hne h h' => hiff.2 (Grammar.locallyAmbiguous_of_derives_ne hne h h')⟩

/-- The phrases of three tokens that are split into two phrases of one or two tokens. -/
theorem isAmbiguous_iff_locally_splitAmbiguity :
    Grammar.build ⟨"S"⟩ [Samples.rule "S" [[Samples.nt "A", Samples.nt "A"]],
        Samples.rule "A" [[Samples.tm "a"], [Samples.tm "a", Samples.tm "a"]]]
          = .ok Samples.splitAmbiguity ∧
      ∃ P, (Samples.splitAmbiguity.recognize [.plain "a", .plain "a", .plain "a"]).result = .ok P ∧
        P.isAmbiguous = true ∧
        Samples.splitAmbiguity.LocallyAmbiguous [.plain "a", .plain "a", .plain "a"] := by
  have hbuild : Grammar.build ⟨"S"⟩ [Samples.rule "S" [[Samples.nt "A", Samples.nt "A"]],
      Samples.rule "A" [[Samples.tm "a"], [Samples.tm "a", Samples.tm "a"]]]
        = .ok Samples.splitAmbiguity := rfl
  have hrun : (Samples.splitAmbiguity.recognize [.plain "a", .plain "a", .plain "a"]).result
      |>.toOption.any Parsing.isAmbiguous := by decide +kernel
  obtain ⟨P, hP, hamb⟩ := any_toOption_iff.1 hrun
  exact ⟨hbuild, P, hP, hamb, (isAmbiguous_iff_locally hbuild hP).1.1 hamb⟩

end ParseForest
