import ParseForest.Proofs.Forest.Readings

/-!
# Spines

A spine of a phrase is a production of its symbol with the positions in the input where the items of
the production stand: one before each symbol of the body, and one behind the last. Which lists of
positions are spines is told by the entries of a chart and their antecedents. The main statements
are that the spines of a phrase are the readings of the phrase, seen as lists of positions,
`isSpine_iff`, and that no two readings look the same, `spine_inj`.
-/

namespace ParseForest

/-- The place of the finish that stands for the phrase. -/
def Phrase.place (x : Phrase) : Place :=
  ⟨.finish x.symbol, x.lo, x.hi⟩

/-- A production and the positions of its items. -/
structure Spine where
  prod : Nat
  positions : List Nat
deriving DecidableEq

namespace Chart

variable (G : Grammar) (c : Chart)

/-- The item of the production behind its symbol `m` can stand at `s'` if the item before the symbol
stands at `s`: a terminal takes one position, and a nonterminal takes from `s` to `s'` if its finish
is an antecedent of the item behind it. -/
def Joins (p lo m s s' : Nat) : Prop :=
  match G.symbolAt? p m with
  | some (.terminal _) => s' = s + 1
  | some (.nonterminal n) =>
    ∃ a id, c.place? a = some ⟨.finish n, s, s'⟩ ∧
      c.place? id = some ⟨.item p (m + 1), lo, s'⟩ ∧ a ∈ c.antecedents id
  | none => False

/-- The items of the production stand at the positions, from the first item on, each joined to the
next one. -/
structure Ascends (p lo : Nat) (positions : List Nat) : Prop where
  items : ∀ m s, positions[m]? = some s → c.Holds ⟨.item p m, lo, s⟩
  joins : ∀ m s s', positions[m]? = some s → positions[m + 1]? = some s' → c.Joins G p lo m s s'

/-- The production makes the phrase with its items at the positions. -/
structure IsSpine (x : Phrase) (σ : Spine) : Prop where
  prod : ∃ prod, G.prods[σ.prod]? = some prod ∧ prod.head = x.symbol ∧
    σ.positions.length = prod.body.length + 1
  first : σ.positions.head? = some x.lo
  last : σ.positions.getLast? = some x.hi
  ordered : σ.positions.Pairwise (· ≤ ·)
  ascends : c.Ascends G σ.prod x.lo σ.positions

end Chart

/-! ### Ends of pieces -/

namespace Piece

/-- Where a piece ends, if it is one of a symbol. -/
def hi? : Piece → Option Nat
  | token index => some (index + 1)
  | epsilon _ => none
  | phrase x => some x.hi

def ends (ss : List Piece) : List Nat :=
  ss.filterMap hi?

@[simp] lemma ends_nil : ends [] = [] := rfl

@[simp] lemma ends_token (i : Nat) (ss : List Piece) :
    ends (.token i :: ss) = (i + 1) :: ends ss := rfl

@[simp] lemma ends_phrase (x : Phrase) (ss : List Piece) :
    ends (.phrase x :: ss) = x.hi :: ends ss := rfl

@[simp] lemma ends_append (ss ss' : List Piece) : ends (ss ++ ss') = ends ss ++ ends ss' := by
  simp [ends]

@[simp] lemma ends_padding (dot lo : Nat) : ends (padding dot lo) = [] := by
  unfold padding
  split <;> rfl

lemma phrase_not_mem_padding (x : Phrase) (dot lo : Nat) : phrase x ∉ padding dot lo := by
  unfold padding
  split <;> simp

lemma ends_sequenceOf (lo : Nat) (ss : List Piece) : ends (sequenceOf lo ss) = ends ss := by
  cases ss <;> rfl

end Piece

/-- The positions of the items of a reading that begins at `lo`. -/
def Reading.spine (r : Reading) (lo : Nat) : Spine :=
  ⟨r.prod, lo :: Piece.ends r.pieces⟩

variable {G : Grammar} {w : List Token} {p dot lo hi : Nat} {ss : List Piece}

lemma ordered_concat {qs : List Nat} {mid : Nat}
    (h : qs.Pairwise (· ≤ ·) ∧ ∀ s ∈ qs, s ≤ mid) (hmid : mid ≤ hi) :
    (qs ++ [hi]).Pairwise (· ≤ ·) ∧ ∀ s ∈ qs ++ [hi], s ≤ hi := by
  have hall : ∀ s ∈ qs, s ≤ hi := fun s hs => Nat.le_trans (h.2 s hs) hmid
  refine ⟨List.pairwise_append.2 ⟨h.1, List.pairwise_singleton _ _, fun s hs s' hs' => ?_⟩, ?_⟩
  · obtain rfl := List.mem_singleton.1 hs'
    exact hall s hs
  · intro s hs
    rcases List.mem_append.1 hs with hs | hs
    · exact hall s hs
    · exact Nat.le_of_eq (List.mem_singleton.1 hs)

namespace Grammar.Splits

lemma length_ends (h : G.Splits w p dot lo hi ss) : (Piece.ends ss).length = dot := by
  induction h with
  | enter => rfl
  | scan _ _ _ ih => simp [ih]
  | resume _ _ _ _ _ ih => simp [ih]

lemma getLast?_ends (h : G.Splits w p dot lo hi ss) :
    (lo :: Piece.ends ss).getLast? = some hi := by
  cases h with
  | enter => rfl
  | scan => rw [Piece.ends_append, ← List.cons_append]; exact List.getLast?_concat
  | resume => rw [Piece.ends_append, ← List.cons_append]; exact List.getLast?_concat

/-- The positions do not go back, nor beyond the last of them. -/
lemma ordered (h : G.Splits w p dot lo hi ss) :
    (lo :: Piece.ends ss).Pairwise (· ≤ ·) ∧ ∀ s ∈ lo :: Piece.ends ss, s ≤ hi := by
  induction h with
  | enter => simp
  | scan _ _ _ ih =>
    rw [Piece.ends_append, ← List.cons_append]
    exact ordered_concat ih (Nat.le_succ _)
  | resume _ _ _ hn _ ih =>
    rw [Piece.ends_append, ← List.cons_append]
    exact ordered_concat ih (Spans.le hn).1

/-- Pieces of a production are told apart by their ends. -/
lemma eq_of_ends_eq {hi' : Nat} {ss' : List Piece} (h : G.Splits w p dot lo hi ss)
    (h' : G.Splits w p dot lo hi' ss') (heq : Piece.ends ss = Piece.ends ss') : ss = ss' := by
  induction h generalizing hi' ss' with
  | enter =>
    obtain ⟨-, -, -, rfl⟩ := splits_zero_iff.1 h'
    rfl
  | scan _ hs _ ih =>
    obtain ⟨hi₁, u, ss₁, -, -, -, h₁, rfl⟩ := (splits_scan_iff hs).1 h'
    rw [Piece.ends_append, Piece.ends_append] at heq
    obtain ⟨hends, hlast⟩ := List.append_inj' heq rfl
    rw [ih h₁ hends]
    simpa using hlast
  | @resume dot lo mid hi prod n ss t h₀ hp hs _ _ ih =>
    obtain ⟨mid₁, ss₁, h₁, -, -, rfl⟩ := (splits_resume_iff hp hs).1 h'
    rw [Piece.ends_append, Piece.ends_append] at heq
    obtain ⟨hends, hlast⟩ := List.append_inj' heq rfl
    have hmid : some mid = some mid₁ := by
      rw [← h₀.getLast?_ends, ← h₁.getLast?_ends, hends]
    obtain rfl := Option.some.inj hmid
    obtain rfl : hi = hi' := by simpa using hlast
    rw [ih h₁ hends]

end Grammar.Splits

/-- Readings of a phrase are told apart by their spines. -/
lemma spine_inj {x : Phrase} {r r' : Reading} (h : G.Reads w x r) (h' : G.Reads w x r')
    (heq : r.spine x.lo = r'.spine x.lo) : r = r' := by
  obtain ⟨q, pieces⟩ := r
  obtain ⟨q', pieces'⟩ := r'
  obtain ⟨prod, ss, hp, -, hss, rfl⟩ := h
  obtain ⟨prod', ss', hp', -, hss', rfl⟩ := h'
  simp only [Reading.spine, Spine.mk.injEq, List.cons.injEq, Piece.ends_sequenceOf] at heq
  obtain ⟨rfl, -, heq⟩ := heq
  obtain rfl := Option.some.inj (hp.symm.trans hp')
  rw [hss.eq_of_ends_eq hss' heq]

/-! ### Positions of items -/

section Ascends

variable {c : Chart} {qs : List Nat} {s mid : Nat}

lemma ascends_singleton_iff : c.Ascends G p lo [s] ↔ c.Holds ⟨.item p 0, lo, s⟩ := by
  constructor
  · exact fun h => h.items 0 s rfl
  · intro h
    refine ⟨fun m s' hs' => ?_, fun m s₁ s₂ _ hs₂ => ?_⟩
    · cases m with
      | zero =>
        cases hs'
        exact h
      | succ m => simp at hs'
    · simp at hs₂

lemma ascends_concat_iff (hlen : qs.length = dot + 1) (hlast : qs.getLast? = some mid) :
    c.Ascends G p lo (qs ++ [s]) ↔
      c.Ascends G p lo qs ∧ c.Holds ⟨.item p (dot + 1), lo, s⟩ ∧ c.Joins G p lo dot mid s := by
  have hmid : qs[dot]? = some mid := by
    rw [← hlast, List.getLast?_eq_getElem?, hlen, Nat.add_sub_cancel]
  have hleft : ∀ {m : Nat} {q : Nat}, qs[m]? = some q → (qs ++ [s])[m]? = some q := by
    intro m q hq
    rw [List.getElem?_append_left (List.getElem?_eq_some_iff.1 hq).1, hq]
  have hend : (qs ++ [s])[dot + 1]? = some s := by simp [← hlen]
  -- A position is one of the first or the last.
  have hcases : ∀ {m q : Nat}, (qs ++ [s])[m]? = some q →
      qs[m]? = some q ∨ (m = dot + 1 ∧ q = s) := by
    intro m q hq
    rcases Nat.lt_or_ge m qs.length with hm | hm
    · exact Or.inl (List.getElem?_append_left hm ▸ hq)
    · have hlt := (List.getElem?_eq_some_iff.1 hq).1
      rw [List.length_append, List.length_singleton] at hlt
      obtain rfl : m = dot + 1 := by omega
      rw [hend] at hq
      exact Or.inr ⟨rfl, (Option.some.inj hq).symm⟩
  constructor
  · intro h
    exact ⟨⟨fun m q hq => h.items m q (hleft hq), fun m q q' hq hq' =>
      h.joins m q q' (hleft hq) (hleft hq')⟩, h.items _ _ hend, h.joins _ _ _ (hleft hmid) hend⟩
  · rintro ⟨h, hs, hj⟩
    refine ⟨fun m q hq => ?_, fun m q q' hq hq' => ?_⟩
    · rcases hcases hq with hq | ⟨rfl, rfl⟩
      · exact h.items m q hq
      · exact hs
    · rcases hcases hq' with hq' | ⟨hm, rfl⟩
      · have hm := (List.getElem?_eq_some_iff.1 hq').1
        rw [List.getElem?_append_left (by omega)] at hq
        exact h.joins m q q' hq hq'
      · obtain rfl : m = dot := by omega
        rw [List.getElem?_append_left (by omega), hmid] at hq
        cases hq
        exact hj

end Ascends

namespace Parsing.Complete

variable {P : Parsing} {prod : Production}

lemma holds_of_splits (h : P.Complete) (hp : P.grammar.prods[p]? = some prod)
    (hpred : Predicted P.grammar P.tokens prod.head lo)
    (hss : P.grammar.Splits P.tokens p dot lo hi ss) : P.chart.Holds ⟨.item p dot, lo, hi⟩ :=
  h.holds_iff.2 (.item hp hpred (exists_splits_iff.1 ⟨ss, hss⟩))

/-- The items of a production stand between its pieces. -/
lemma ascends_of_splits (h : P.Complete) (hp : P.grammar.prods[p]? = some prod)
    (hpred : Predicted P.grammar P.tokens prod.head lo)
    (hss : P.grammar.Splits P.tokens p dot lo hi ss) :
    P.chart.Ascends P.grammar p lo (lo :: Piece.ends ss) := by
  induction hss with
  | enter hp' hlo => exact ascends_singleton_iff.2 (h.holds_of_splits hp hpred (.enter hp' hlo))
  | scan h₀ hs hu ih =>
    rw [Piece.ends_append, ← List.cons_append]
    refine (ascends_concat_iff (by simp [h₀.length_ends]) h₀.getLast?_ends).2
      ⟨ih hpred, h.holds_of_splits hp hpred (.scan h₀ hs hu), ?_⟩
    simp [Chart.Joins, hs]
  | @resume dot lo mid hi prod' n ss t h₀ hp' hs hn hc ih =>
    obtain rfl := Option.some.inj (hp.symm.trans hp')
    obtain ⟨id, hid⟩ := h.holds_of_splits hp hpred (.resume h₀ hp hs hn hc)
    have hm := exists_splits_iff.1 ⟨ss, h₀⟩
    obtain ⟨a, ha⟩ := h.holds_iff.2 (.finish (.call hp hpred hm hs) hn)
    have hmem := (h.mem_antecedents_resume_iff hp hs hid).2 
      ⟨mid, ha, h.holds_of_splits hp hpred h₀, hc⟩
    rw [Piece.ends_append, ← List.cons_append]
    refine (ascends_concat_iff (by simp [h₀.length_ends]) h₀.getLast?_ends).2
      ⟨ih hpred, ⟨id, hid⟩, ?_⟩
    simp only [Chart.Joins, Grammar.symbolAt?_eq hp, hs]
    exact ⟨a, id, ha, hid, hmem⟩

/-- Between the items of a production stand its pieces. -/
lemma exists_splits_of_ascends (h : P.Complete) {positions : List Nat}
    (hasc : P.chart.Ascends P.grammar p lo positions) (hlen : positions.length = dot + 1)
    (hfirst : positions.head? = some lo) (hlast : positions.getLast? = some hi) :
    ∃ ss, P.grammar.Splits P.tokens p dot lo hi ss ∧ positions = lo :: Piece.ends ss := by
  induction dot generalizing positions hi with
  | zero =>
    match positions with
    | [s] =>
      cases hfirst
      cases hlast
      obtain ⟨id, hid⟩ := ascends_singleton_iff.1 hasc
      obtain ⟨prod, hp, -⟩ := h.prod_of_item hid
      exact ⟨[], .enter hp (h.valid hid).bounds.2, rfl⟩
  | succ dot ih =>
    obtain ⟨qs, s, rfl⟩ : ∃ qs s, positions = qs ++ [s] := by
      rcases List.eq_nil_or_concat positions with rfl | ⟨qs, s, rfl⟩
      · simp at hlen
      · exact ⟨qs, s, List.concat_eq_append⟩
    obtain rfl : s = hi := by simpa using hlast
    have hlen' : qs.length = dot + 1 := by simpa using hlen
    obtain ⟨mid, hmid⟩ : ∃ mid, qs.getLast? = some mid := by
      cases hqs : qs.getLast? with
      | none => simp [List.getLast?_eq_none_iff.1 hqs] at hlen'
      | some mid => exact ⟨mid, rfl⟩
    have hfirst' : qs.head? = some lo := by
      cases qs with
      | nil => simp at hlen'
      | cons q qs => exact hfirst
    obtain ⟨hqs, ⟨id, hid⟩, hj⟩ := (ascends_concat_iff hlen' hmid).1 hasc
    obtain ⟨ss, hss, rfl⟩ := ih hqs hlen' hfirst' hmid
    unfold Chart.Joins at hj
    split at hj
    · next t hs =>
      subst hj
      obtain ⟨i, u, hi, hu, rfl, -⟩ := h.holds_item_of_scan hs hid
      obtain rfl := Nat.succ.inj hi
      exact ⟨_, .scan hss hs hu, by simp⟩
    · next n hs =>
      obtain ⟨a, id', ha, hid', hmem⟩ := hj
      obtain ⟨prod, hp, -⟩ := h.prod_of_item hid
      rw [Grammar.symbolAt?_eq hp] at hs
      obtain ⟨m, ha', -, hc⟩ := (h.mem_antecedents_resume_iff hp hs hid').1 hmem
      obtain rfl : mid = m := by simpa using ha.symm.trans ha'
      obtain ⟨-, t, ht⟩ := valid_finish_iff.1 (h.valid ha)
      exact ⟨_, .resume hss hp hs ht hc, by simp⟩
    · exact hj.elim

/-- The spines of a phrase are its readings. -/
theorem isSpine_iff (h : P.Complete) {x : Phrase} {σ : Spine}
    (hx : P.chart.Holds x.place) :
    P.chart.IsSpine P.grammar x σ ↔
      ∃ r, P.grammar.Reads P.tokens x r ∧ σ = r.spine x.lo := by
  constructor
  · rintro ⟨⟨prod, hp, hhead, hlen⟩, hfirst, hlast, -, hasc⟩
    obtain ⟨ss, hss, heq⟩ := h.exists_splits_of_ascends hasc hlen hfirst hlast
    refine ⟨⟨σ.prod, Piece.sequenceOf x.lo ss⟩, ⟨prod, ss, hp, hhead, hss, rfl⟩, ?_⟩
    rw [Reading.spine, Piece.ends_sequenceOf, ← heq]
  · rintro ⟨⟨p, pieces⟩, ⟨prod, ss, hp, hhead, hss, rfl⟩, rfl⟩
    obtain ⟨hpred, -⟩ := valid_finish_iff.1 (h.holds_iff.1 hx)
    simp only [Reading.spine, Piece.ends_sequenceOf]
    refine ⟨⟨prod, hp, hhead, ?_⟩, rfl, hss.getLast?_ends, hss.ordered.1,
      h.ascends_of_splits hp (hhead ▸ hpred) hss⟩
    simp [hss.length_ends]

end Parsing.Complete

end ParseForest
