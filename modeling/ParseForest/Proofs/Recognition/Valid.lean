import ParseForest.Derivation
import ParseForest.Proofs.Grammar.Faults
import ParseForest.Proofs.Recognition.Rules

/-!
# What the entries of a chart mean

A nonterminal is predicted at a position if some production that is itself predicted can go on with
it there. An entry is valid if what it starts from is predicted and what it has behind it matches
the input. The main statement is that the rules lead from valid entries to valid entries only,
`Valid.of_leads`.
-/

namespace ParseForest

variable (G : Grammar) (w : List Token)

/-- A nonterminal may begin at a position, as far as the tokens before the position tell. -/
inductive Predicted : NonTerminal → Nat → Prop where
  /-- The input is to be a phrase of the start symbol. -/
  | start : Predicted G.start 0
  /-- A production that has matched up to a nonterminal predicts it. -/
  | call {p dot j k : Nat} {prod : Production} {n : NonTerminal} (hp : G.prods[p]? = some prod)
      (h : Predicted prod.head j) (hm : G.Matches w p dot j k)
      (hs : prod.body[dot]? = some (.nonterminal n)) : Predicted n k

/-- What an entry of a place says about the input. -/
inductive Valid : Place → Prop where
  /-- A start says that its nonterminal is predicted. -/
  | start {n : NonTerminal} {i : Nat} (h : Predicted G w n i) : Valid ⟨.start n, i, i⟩
  /-- An item says that its head is predicted and the symbols before its dot match. -/
  | item {p dot j i : Nat} {prod : Production} (hp : G.prods[p]? = some prod)
      (h : Predicted G w prod.head j) (hm : G.Matches w p dot j i) : Valid ⟨.item p dot, j, i⟩
  /-- A finish says that its nonterminal is predicted and has a derivation. -/
  | finish {n : NonTerminal} {j i : Nat} {t : Tree} (h : Predicted G w n j)
      (hd : G.Derives w n j i t) : Valid ⟨.finish n, j, i⟩

variable {G w}

/-! ### Inversion -/

lemma valid_start_iff {n : NonTerminal} {o i : Nat} :
    Valid G w ⟨.start n, o, i⟩ ↔ o = i ∧ Predicted G w n i := by
  constructor
  · rintro ⟨h⟩
    exact ⟨rfl, h⟩
  · rintro ⟨rfl, h⟩
    exact .start h

lemma valid_item_iff {p dot j i : Nat} {prod : Production} (hp : G.prods[p]? = some prod) :
    Valid G w ⟨.item p dot, j, i⟩ ↔ Predicted G w prod.head j ∧ G.Matches w p dot j i := by
  constructor
  · intro h
    cases h with
    | item hp' h hm =>
      obtain rfl := Option.some.inj (hp.symm.trans hp')
      exact ⟨h, hm⟩
  · rintro ⟨h, hm⟩
    exact .item hp h hm

lemma valid_finish_iff {n : NonTerminal} {j i : Nat} :
    Valid G w ⟨.finish n, j, i⟩ ↔ Predicted G w n j ∧ ∃ t, G.Derives w n j i t := by
  constructor
  · rintro ⟨⟩
    exact ⟨‹_›, _, ‹_›⟩
  · rintro ⟨h, t, hd⟩
    exact .finish h hd

/-! ### Bounds -/

lemma Predicted.le {n : NonTerminal} {i : Nat} (h : Predicted G w n i) : i ≤ w.length := by
  cases h with
  | start => exact Nat.zero_le _
  | call hp h hm hs =>
    obtain ⟨ts, hts⟩ := hm
    exact hts.le.2

lemma Valid.bounds {x : Place} (h : Valid G w x) :
    x.origin ≤ x.column ∧ x.column ≤ w.length := by
  cases h with
  | start h => exact ⟨Nat.le_refl _, h.le⟩
  | item hp h hm =>
    obtain ⟨ts, hts⟩ := hm
    exact hts.le
  | finish h hd => exact Spans.le hd

/-- The first item of a production begins where it is. -/
lemma Valid.origin_eq_of_item_zero {p o i : Nat} (h : Valid G w ⟨.item p 0, o, i⟩) : o = i := by
  cases h with
  | item hp h hm =>
    obtain ⟨ts, hts⟩ := hm
    cases hts
    rfl

/-- The items behind which something matches are items of productions. -/
lemma Spans.prod_of_item {p dot lo hi : Nat} {ts : List Tree}
    (h : Spans G w (.item p dot) lo hi ts) :
    ∃ prod, G.prods[p]? = some prod ∧ dot ≤ prod.body.length := by
  cases h with
  | enter hp hlo => exact ⟨_, hp, Nat.zero_le _⟩
  | scan h hs ht =>
    obtain ⟨prod, hp, hs⟩ := Option.bind_eq_some_iff.1 hs
    exact ⟨prod, hp, (List.getElem?_eq_some_iff.1 hs).1⟩
  | resume h hp hs hn hc => exact ⟨_, hp, (List.getElem?_eq_some_iff.1 hs).1⟩

/-! ### Rules -/

/-- The rules lead from valid entries to valid entries. -/
lemma Valid.of_leads {K : Nat → Option Place} {read a : Nat} {x : Place}
    (h : Leads G w K read a x) (hK : ∀ id y, K id = some y → Valid G w y) : Valid G w x := by
  cases h with
  | start ha hp =>
    obtain ⟨rfl, h⟩ := valid_start_iff.1 (hK _ _ ha)
    obtain ⟨prod, hprod, rfl⟩ := G.mem_prodsOf.1 hp
    exact .item hprod h ⟨[], .enter hprod h.le⟩
  | call ha hs =>
    obtain ⟨prod, hp, hs⟩ := Option.bind_eq_some_iff.1 hs
    obtain ⟨h, hm⟩ := (valid_item_iff hp).1 (hK _ _ ha)
    exact .start (.call hp h hm hs)
  | exit hp ha =>
    obtain ⟨h, ts, hm⟩ := (valid_item_iff hp).1 (hK _ _ ha)
    exact .finish h (.exit hp hm)
  | resume ha hb hp hs hc =>
    obtain ⟨-, t, hn⟩ := valid_finish_iff.1 (hK _ _ ha)
    obtain ⟨h, ts, hm⟩ := (valid_item_iff hp).1 (hK _ _ hb)
    exact .item hp h ⟨_, .resume hm hp hs hn hc⟩
  | scan ha hs ht hi =>
    obtain ⟨prod, hp, -⟩ := Option.bind_eq_some_iff.1 hs
    obtain ⟨h, ts, hm⟩ := (valid_item_iff hp).1 (hK _ _ ha)
    exact .item hp h ⟨_, .scan hm hs ht⟩

/-! ### Vertices -/

lemma Predicted.mem_heads (hG : G.Closed) {n : NonTerminal} {i : Nat}
    (h : Predicted G w n i) : n ∈ G.heads := by
  cases h with
  | start => exact hG.start_mem
  | call hp h hm hs => exact hG.body_mem _ (List.mem_of_getElem? hp) n (List.mem_of_getElem? hs)

/-- The vertex of a valid entry is a vertex of the flow graph. -/
lemma Valid.vertex_mem (hG : G.Closed) {x : Place} (h : Valid G w x) :
    x.vertex ∈ G.vertices := by
  simp only [Grammar.vertices, List.mem_append, List.mem_flatMap]
  cases h with
  | start h => exact Or.inl ⟨_, h.mem_heads hG, by simp⟩
  | finish h hd => exact Or.inl ⟨_, h.mem_heads hG, by simp⟩
  | @item p dot j i prod hp h hm =>
    obtain ⟨ts, hts⟩ := hm
    obtain ⟨prod', hp', hdot⟩ := hts.prod_of_item
    obtain rfl := Option.some.inj (hp.symm.trans hp')
    refine Or.inr ⟨(prod, p), List.mem_zipIdx_iff_getElem?.2 hp, ?_⟩
    exact List.mem_map.2 ⟨dot, List.mem_range.2 (Nat.lt_succ_of_le hdot), rfl⟩

end ParseForest
