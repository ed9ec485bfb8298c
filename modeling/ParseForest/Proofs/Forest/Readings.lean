import ParseForest.Forest.Basic
import ParseForest.Walk
import ParseForest.Proofs.Recognition.Antecedents

/-!
# Readings

A reading of a phrase is a production of its symbol together with the pieces that the symbols of the
production match. A forest is exhaustive if each of its nonterminal nodes stores all readings of its
phrase, each of them once.

A thread is a set of readings that have a last part in common: the pieces behind the dot of an item
are chosen, and those before it are not. Following an antecedent chooses one more piece. The threads
of the antecedents of an entry have no reading in common, and together they have all readings that
the entry stands for: `yields_resume_iff`, `reads_iff` and the statements on uniqueness after them.
-/

namespace ParseForest

/-- A nonterminal over a range. -/
structure Phrase where
  symbol : NonTerminal
  lo : Nat
  hi : Nat
deriving DecidableEq

/-- What a child of a node stands for: the token of an index, nothing at a position, or a phrase. -/
inductive Piece where
  | token (index : Nat)
  | epsilon (position : Nat)
  | phrase (x : Phrase)
deriving DecidableEq

/-- A production and the pieces that its body matches. -/
structure Reading where
  prod : Nat
  pieces : List Piece
deriving DecidableEq

/-- The pieces of a production; a production without symbols has one piece that stands for
nothing. -/
def Piece.sequenceOf (lo : Nat) : List Piece → List Piece
  | [] => [.epsilon lo]
  | ss => ss

namespace Grammar

variable (G : Grammar) (w : List Token)

/-- The first `dot` symbols of a production match pieces of the input from `lo` to `hi`: a terminal
matches one token of its kind, and a nonterminal a phrase that has a permitted derivation and whose
return the production permits. -/
inductive Splits (p : Nat) : (dot lo hi : Nat) → List Piece → Prop where
  /-- Before its first symbol a production has no pieces. -/
  | enter {prod : Production} {lo : Nat} (hp : G.prods[p]? = some prod) (hlo : lo ≤ w.length) :
      Splits p 0 lo lo []
  /-- A terminal matches a token of its kind. -/
  | scan {dot lo hi : Nat} {ss : List Piece} {t : Token} (h : Splits p dot lo hi ss)
      (hs : G.symbolAt? p dot = some (.terminal t.kind)) (ht : w[hi]? = some t) :
      Splits p (dot + 1) lo (hi + 1) (ss ++ [.token hi])
  /-- A nonterminal matches a phrase. -/
  | resume {dot lo mid hi : Nat} {prod : Production} {n : NonTerminal} {ss : List Piece} {t : Tree}
      (h : Splits p dot lo mid ss) (hp : G.prods[p]? = some prod)
      (hs : prod.body[dot]? = some (.nonterminal n)) (hn : G.Derives w n mid hi t)
      (hc : prod.permits (prod.context p dot n lo mid hi w) = true) :
      Splits p (dot + 1) lo hi (ss ++ [.phrase ⟨n, mid, hi⟩])

/-- The phrase can be derived by the production of the reading from its pieces. -/
def Reads (x : Phrase) (r : Reading) : Prop :=
  ∃ prod ss, G.prods[r.prod]? = some prod ∧ prod.head = x.symbol ∧
    G.Splits w r.prod prod.body.length x.lo x.hi ss ∧ r.pieces = Piece.sequenceOf x.lo ss

end Grammar

/-! ### Readings in a forest -/

/-- What a node stands for as a child. -/
def ForestNode.piece? : ForestNode → Option Piece
  | .token index _ => some (.token index)
  | .epsilon position => some (.epsilon position)
  | .nonterminal n lo hi _ _ => some (.phrase ⟨n, lo, hi⟩)
  | .alternative _ _ _ _ _ => none

def piecesOf (nodes : Array ForestNode) (ids : List Nat) : List (Option Piece) :=
  ids.map fun id => nodes[id]?.bind ForestNode.piece?

namespace Forest

variable (F : Forest)

/-- The readings that a node of a nonterminal stores: the one that its children spell, or those of
its alternatives. -/
def Stores (ambiguous : Bool) (children : List Nat) (rs : List Reading) : Prop :=
  if ambiguous then
    List.Forall₂ (fun id r => ∃ n lo hi ids,
      F.nodes[id]? = some (.alternative n r.prod lo hi ids) ∧
        piecesOf F.nodes ids = r.pieces.map some) children rs
  else
    ∃ r, rs = [r] ∧ piecesOf F.nodes children = r.pieces.map some

/-- Each node of a nonterminal stores all readings of its phrase, and each of them once. -/
def Exhaustive (G : Grammar) (w : List Token) : Prop :=
  ∀ (id : Nat) (n : NonTerminal) (lo hi : Nat) (ambiguous : Bool) (children : List Nat),
    F.nodes[id]? = some (.nonterminal n lo hi ambiguous children) →
      ∃ rs : List Reading, rs.Nodup ∧ F.Stores ambiguous children rs ∧
        ∀ r, r ∈ rs ↔ G.Reads w ⟨n, lo, hi⟩ r

end Forest

variable {G : Grammar} {w : List Token} {p dot lo hi k : Nat}

/-! ### Splits -/

lemma splits_zero_iff {ss : List Piece} :
    G.Splits w p 0 lo hi ss ↔
      (∃ prod, G.prods[p]? = some prod) ∧ lo = hi ∧ lo ≤ w.length ∧ ss = [] := by
  constructor
  · rintro ⟨hp, hlo⟩
    exact ⟨⟨_, hp⟩, rfl, hlo, rfl⟩
  · rintro ⟨⟨prod, hp⟩, rfl, hlo, rfl⟩
    exact .enter hp hlo

lemma splits_scan_iff {t : Terminal} {ss : List Piece}
    (hs : G.symbolAt? p dot = some (.terminal t)) :
    G.Splits w p (dot + 1) lo k ss ↔
      ∃ hi u ss', k = hi + 1 ∧ w[hi]? = some u ∧ u.kind = t ∧ G.Splits w p dot lo hi ss' ∧
        ss = ss' ++ [.token hi] := by
  constructor
  · intro h
    cases h with
    | scan h hs' ht =>
      rw [hs] at hs'
      cases hs'
      exact ⟨_, _, _, rfl, ht, rfl, h, rfl⟩
    | resume h hp hs' hn hc =>
      rw [Grammar.symbolAt?_eq hp, hs'] at hs
      cases hs
  · rintro ⟨hi, u, ss', rfl, hu, rfl, h, rfl⟩
    exact .scan h hs hu

lemma splits_resume_iff {prod : Production} {n : NonTerminal} {ss : List Piece}
    (hp : G.prods[p]? = some prod) (hs : prod.body[dot]? = some (.nonterminal n)) :
    G.Splits w p (dot + 1) lo hi ss ↔
      ∃ mid ss', G.Splits w p dot lo mid ss' ∧ (∃ t, G.Derives w n mid hi t) ∧
        prod.permits (prod.context p dot n lo mid hi w) = true ∧
        ss = ss' ++ [.phrase ⟨n, mid, hi⟩] := by
  constructor
  · intro h
    cases h with
    | scan h hs' ht =>
      rw [Grammar.symbolAt?_eq hp, hs] at hs'
      cases hs'
    | resume h hp' hs' hn hc =>
      obtain rfl := Option.some.inj (hp.symm.trans hp')
      rw [hs] at hs'
      cases hs'
      exact ⟨_, _, h, ⟨_, hn⟩, hc, rfl⟩
  · rintro ⟨mid, ss', h, ⟨t, hn⟩, hc, rfl⟩
    exact .resume h hp hs hn hc

/-- There are pieces for an item exactly if there are trees. -/
lemma exists_splits_iff : (∃ ss, G.Splits w p dot lo hi ss) ↔ G.Matches w p dot lo hi := by
  constructor
  · rintro ⟨ss, h⟩
    induction h with
    | enter hp hlo => exact ⟨_, .enter hp hlo⟩
    | scan _ hs ht ih =>
      obtain ⟨ts, hts⟩ := ih
      exact ⟨_, .scan hts hs ht⟩
    | resume _ hp hs hn hc ih =>
      obtain ⟨ts, hts⟩ := ih
      exact ⟨_, .resume hts hp hs hn hc⟩
  · rintro ⟨ts, h⟩
    generalize hv : Vertex.item p dot = v at h
    induction h generalizing p dot with
    | enter hp hlo =>
      cases hv
      exact ⟨_, .enter hp hlo⟩
    | scan _ hs ht ih =>
      cases hv
      obtain ⟨ss, hss⟩ := ih rfl
      exact ⟨_, .scan hss hs ht⟩
    | resume _ hp hs hn hc ih _ =>
      cases hv
      obtain ⟨ss, hss⟩ := ih rfl
      exact ⟨_, .resume hss hp hs hn hc⟩
    | exit => cases hv

lemma Grammar.Splits.length_eq {ss : List Piece} (h : G.Splits w p dot lo hi ss) :
    ss.length = dot := by
  induction h with
  | enter => rfl
  | scan _ _ _ ih => simp [ih]
  | resume _ _ _ _ _ ih => simp [ih]

/-- The piece that is put behind the pieces of a production without symbols. -/
def padding (dot lo : Nat) : List Piece :=
  if dot = 0 then [.epsilon lo] else []

lemma Grammar.Splits.sequenceOf_eq {ss : List Piece} (h : G.Splits w p dot lo hi ss) :
    Piece.sequenceOf lo ss = ss ++ padding dot lo := by
  cases ss with
  | nil =>
    obtain rfl : 0 = dot := h.length_eq
    rfl
  | cons s ss =>
    have hlen := h.length_eq
    have hdot : dot ≠ 0 := by
      rintro rfl
      simp at hlen
    simp [Piece.sequenceOf, padding, hdot]

/-! ### Threads -/

/-- A reading of which only the last pieces are chosen, the tail; the first `dot` symbols of the
production are still to match from `lo` to `hi`. -/
structure Thread where
  prod : Nat
  dot : Nat
  lo : Nat
  hi : Nat
  tail : List Piece

/-- The thread can become the reading. -/
def Thread.Yields (G : Grammar) (w : List Token) (τ : Thread) (r : Reading) : Prop :=
  r.prod = τ.prod ∧ ∃ ss, G.Splits w τ.prod τ.dot τ.lo τ.hi ss ∧ r.pieces = ss ++ τ.tail

/-- The thread of an antecedent: a complete item begins a reading, and a finish is the next piece of
the reading of its call site. -/
def Chart.thread (c : Chart) (site : Option CallSite) (tail : List Piece) (a : Nat) : Thread :=
  match site, c.place? a with
  | none, some ⟨.item p dot, o, k⟩ => ⟨p, dot, o, k, padding dot o⟩
  | some s, some ⟨.finish n, m, k⟩ =>
    ⟨s.prod, s.dot, s.origin, m, .phrase ⟨n, m, k⟩ :: tail⟩
  | _, _ => ⟨0, 0, 0, 0, []⟩

lemma thread_none {c : Chart} {tail : List Piece} {a o : Nat}
    (ha : c.place? a = some ⟨.item p dot, o, k⟩) :
    c.thread none tail a = ⟨p, dot, o, k, padding dot o⟩ := by
  simp [Chart.thread, ha]

lemma thread_some {c : Chart} {tail : List Piece} {a m : Nat} {s : CallSite} {n : NonTerminal}
    (ha : c.place? a = some ⟨.finish n, m, k⟩) :
    c.thread (some s) tail a = ⟨s.prod, s.dot, s.origin, m, .phrase ⟨n, m, k⟩ :: tail⟩ := by
  simp [Chart.thread, ha]

/-- A thread without open symbols is a single reading. -/
lemma yields_zero_iff {prod : Production} {tail : List Piece} {r : Reading}
    (hp : G.prods[p]? = some prod) (hlo : lo ≤ w.length) :
    Thread.Yields G w ⟨p, 0, lo, lo, tail⟩ r ↔ r = ⟨p, tail⟩ := by
  obtain ⟨q, pieces⟩ := r
  constructor
  · rintro ⟨rfl, ss, hss, hpieces⟩
    obtain ⟨-, -, -, rfl⟩ := splits_zero_iff.1 hss
    obtain rfl : pieces = tail := hpieces
    rfl
  · intro h
    cases h
    exact ⟨rfl, [], .enter hp hlo, rfl⟩

/-- Going back over a terminal chooses its token. -/
lemma yields_scan_iff {u : Token} {tail : List Piece} {r : Reading}
    (hs : G.symbolAt? p dot = some (.terminal u.kind)) (hu : w[k]? = some u) :
    Thread.Yields G w ⟨p, dot + 1, lo, k + 1, tail⟩ r ↔
      Thread.Yields G w ⟨p, dot, lo, k, .token k :: tail⟩ r := by
  refine and_congr_right fun _ => ?_
  constructor
  · rintro ⟨ss, hss, hr⟩
    obtain ⟨hi, u', ss', heq, -, -, hss', rfl⟩ := (splits_scan_iff hs).1 hss
    obtain rfl : k = hi := by simpa using heq
    exact ⟨ss', hss', by simp [hr]⟩
  · rintro ⟨ss, hss, hr⟩
    exact ⟨_, .scan hss hs hu, by simp [hr]⟩

namespace Parsing.Complete

variable {P : Parsing} {id a a' : Nat} {prod : Production} {n : NonTerminal} {r : Reading}
  {tail : List Piece}

/-- Going back into a nonterminal chooses the phrase of an antecedent. -/
lemma yields_resume_iff (h : P.Complete) (hp : P.grammar.prods[p]? = some prod)
    (hs : prod.body[dot]? = some (.nonterminal n))
    (hx : P.chart.place? id = some ⟨.item p (dot + 1), lo, k⟩) :
    Thread.Yields P.grammar P.tokens ⟨p, dot + 1, lo, k, tail⟩ r ↔
      ∃ a ∈ P.chart.antecedents id,
        (P.chart.thread (some ⟨p, dot, lo⟩) tail a).Yields P.grammar P.tokens r := by
  obtain ⟨hhead, -⟩ := (valid_item_iff hp).1 (h.valid hx)
  constructor
  · rintro ⟨hprod, ss, hss, hr⟩
    obtain ⟨mid, ss', hss', ⟨t, ht⟩, hc, rfl⟩ := (splits_resume_iff hp hs).1 hss
    have hm := exists_splits_iff.1 ⟨ss', hss'⟩
    obtain ⟨a, ha⟩ := h.holds_iff.2 (.finish (.call hp hhead hm hs) ht)
    refine ⟨a, (h.mem_antecedents_resume_iff hp hs hx).2
      ⟨mid, ha, h.holds_iff.2 (.item hp hhead hm), hc⟩, ?_⟩
    rw [thread_some ha]
    exact ⟨hprod, ss', hss', by simp [hr]⟩
  · rintro ⟨a, ha, hr⟩
    obtain ⟨m, ha, -, hc⟩ := (h.mem_antecedents_resume_iff hp hs hx).1 ha
    rw [thread_some ha] at hr
    obtain ⟨hprod, ss, hss, hr⟩ := hr
    obtain ⟨-, t, ht⟩ := valid_finish_iff.1 (h.valid ha)
    exact ⟨hprod, _, .resume hss hp hs ht hc, by simpa using hr⟩

/-- A reading belongs to the thread of one antecedent only. -/
lemma eq_of_yields_resume (h : P.Complete) (hp : P.grammar.prods[p]? = some prod)
    (hs : prod.body[dot]? = some (.nonterminal n))
    (hx : P.chart.place? id = some ⟨.item p (dot + 1), lo, k⟩)
    (ha : a ∈ P.chart.antecedents id) (ha' : a' ∈ P.chart.antecedents id)
    (hr : (P.chart.thread (some ⟨p, dot, lo⟩) tail a).Yields P.grammar P.tokens r)
    (hr' : (P.chart.thread (some ⟨p, dot, lo⟩) tail a').Yields P.grammar P.tokens r) :
    a = a' := by
  obtain ⟨m, ha, -, -⟩ := (h.mem_antecedents_resume_iff hp hs hx).1 ha
  obtain ⟨m', ha', -, -⟩ := (h.mem_antecedents_resume_iff hp hs hx).1 ha'
  rw [thread_some ha] at hr
  rw [thread_some ha'] at hr'
  obtain ⟨-, ss, hss, hr⟩ := hr
  obtain ⟨-, ss', hss', hr'⟩ := hr'
  have hlen : ss.length = ss'.length := hss.length_eq.trans hss'.length_eq.symm
  obtain ⟨-, htail⟩ := List.append_inj (hr.symm.trans hr') hlen
  obtain rfl : m = m' := by simpa using htail
  exact h.filled.indexed.place?_inj ha ha'

/-- Every antecedent has a reading. -/
lemma exists_yields_resume (h : P.Complete) (hp : P.grammar.prods[p]? = some prod)
    (hs : prod.body[dot]? = some (.nonterminal n))
    (hx : P.chart.place? id = some ⟨.item p (dot + 1), lo, k⟩)
    (ha : a ∈ P.chart.antecedents id) :
    ∃ r, (P.chart.thread (some ⟨p, dot, lo⟩) tail a).Yields P.grammar P.tokens r := by
  obtain ⟨m, ha, ⟨b, hb⟩, -⟩ := (h.mem_antecedents_resume_iff hp hs hx).1 ha
  obtain ⟨-, hm⟩ := (valid_item_iff hp).1 (h.valid hb)
  obtain ⟨ss, hss⟩ := exists_splits_iff.2 hm
  rw [thread_some ha]
  exact ⟨⟨p, _⟩, rfl, ss, hss, rfl⟩

/-- The readings of a phrase are those of the complete items at its end. -/
lemma reads_iff (h : P.Complete) (tail : List Piece)
    (hx : P.chart.place? id = some ⟨.finish n, lo, k⟩) :
    P.grammar.Reads P.tokens ⟨n, lo, k⟩ r ↔
      ∃ a ∈ P.chart.antecedents id,
        (P.chart.thread none tail a).Yields P.grammar P.tokens r := by
  obtain ⟨hhead, -⟩ := valid_finish_iff.1 (h.valid hx)
  constructor
  · rintro ⟨prod, ss, hp, rfl, hss, hr⟩
    have hm := exists_splits_iff.1 ⟨ss, hss⟩
    obtain ⟨a, ha⟩ := h.holds_iff.2 (.item hp hhead hm)
    refine ⟨a, (h.mem_antecedents_finish_iff hx).2 ⟨_, prod, hp, rfl, ha⟩, ?_⟩
    rw [thread_none ha]
    exact ⟨rfl, ss, hss, hr.trans hss.sequenceOf_eq⟩
  · rintro ⟨a, ha, hr⟩
    obtain ⟨p, prod, hp, hn, ha⟩ := (h.mem_antecedents_finish_iff hx).1 ha
    rw [thread_none ha] at hr
    obtain ⟨rfl, ss, hss, hr⟩ := hr
    exact ⟨prod, ss, hp, hn, hss, hr.trans hss.sequenceOf_eq.symm⟩

/-- A reading belongs to one complete item only. -/
lemma eq_of_yields_finish (h : P.Complete) (hx : P.chart.place? id = some ⟨.finish n, lo, k⟩)
    (ha : a ∈ P.chart.antecedents id) (ha' : a' ∈ P.chart.antecedents id)
    (hr : (P.chart.thread none tail a).Yields P.grammar P.tokens r)
    (hr' : (P.chart.thread none tail a').Yields P.grammar P.tokens r) : a = a' := by
  obtain ⟨p, prod, hp, -, ha⟩ := (h.mem_antecedents_finish_iff hx).1 ha
  obtain ⟨p', prod', hp', -, ha'⟩ := (h.mem_antecedents_finish_iff hx).1 ha'
  rw [thread_none ha] at hr
  rw [thread_none ha'] at hr'
  obtain rfl : p = p' := hr.1.symm.trans hr'.1
  obtain rfl := Option.some.inj (hp.symm.trans hp')
  exact h.filled.indexed.place?_inj ha ha'

end Parsing.Complete

end ParseForest
