import ParseForest.Proofs.Forest.Constituents
import ParseForest.Proofs.Walk.OpenSpines

/-!
# How a walk is nested

A walk that is still to come back to an item does not look at anything but what stands before the
item in the meantime. Each thread of the current leg is one of the item with more pieces chosen, or
has symbols left to match only to the left of the production of the item, or belongs to a phrase
that is reached from a piece before the item: `Within` tells these apart. `Nested` says so of all
threads and of all entries that the walk comes back to, each of which lies within those that were
there before it.
-/

namespace ParseForest

variable {P : Parsing}

/-! ### The last piece -/

/-- The piece from `mid` to `hi` can stand behind any pieces of the first `dot` symbols of the
production that end at `mid`, and there are such pieces. -/
structure Grammar.Appends (G : Grammar) (w : List Token) (p dot lo mid hi : Nat) (s : Piece) :
    Prop where
  le : mid ≤ hi
  exists_splits : ∃ ss, G.Splits w p dot lo mid ss
  splits : ∀ ss, G.Splits w p dot lo mid ss → G.Splits w p (dot + 1) lo hi (ss ++ [s])

/-- The phrase of an antecedent can stand before an item behind a nonterminal. -/
lemma Parsing.Complete.appends_of_mem (hP : P.Complete) {id a p dot o k : Nat} {n : NonTerminal}
    (hx : P.chart.place? id = some ⟨.item p (dot + 1), o, k⟩)
    (hs : P.grammar.symbolAt? p dot = some (.nonterminal n)) (ha : a ∈ P.chart.antecedents id) :
    ∃ m, P.chart.place? a = some ⟨.finish n, m, k⟩ ∧ o ≤ m ∧
      P.grammar.Appends P.tokens p dot o m k (.phrase ⟨n, m, k⟩) := by
  obtain ⟨prod, hp, -⟩ := hP.prod_of_item hx
  rw [Grammar.symbolAt?_eq hp] at hs
  obtain ⟨m, hax, ⟨b, hb⟩, hc⟩ := (hP.mem_antecedents_resume_iff hp hs hx).1 ha
  obtain ⟨-, hm⟩ := (valid_item_iff hp).1 (hP.valid hb)
  obtain ⟨-, t, ht⟩ := valid_finish_iff.1 (hP.valid hax)
  exact ⟨m, hax, (hP.valid hb).bounds.1, (Spans.le ht).1, exists_splits_iff.2 hm,
    fun ss hss => .resume hss hp hs ht hc⟩

/-- A phrase that is chosen for a thread is a constituent, if the thread becomes readings. -/
lemma Grammar.Appends.has {G : Grammar} {w : List Token} {p dot lo mid : Nat} {x y : Phrase}
    {tail : List Piece} (h : G.Appends w p dot lo mid y.hi (.phrase y))
    (hreads : ∀ r, Thread.Yields G w ⟨p, dot, lo, mid, .phrase y :: tail⟩ r → G.Reads w x r) :
    G.Has w x y := by
  obtain ⟨ss, hss⟩ := h.exists_splits
  exact ⟨⟨p, ss ++ .phrase y :: tail⟩, hreads _ ⟨rfl, ss, hss, rfl⟩, by simp⟩

/-- A token can stand before an item behind a terminal. -/
lemma Parsing.Complete.appends_of_scan (hP : P.Complete) {b p dot o k : Nat} {u : Token}
    (hb : P.chart.place? b = some ⟨.item p dot, o, k⟩)
    (hs : P.grammar.symbolAt? p dot = some (.terminal u.kind)) (hu : P.tokens[k]? = some u) :
    P.grammar.Appends P.tokens p dot o k (k + 1) (.token k) := by
  obtain ⟨prod, hp, -⟩ := hP.prod_of_item hb
  obtain ⟨-, hm⟩ := (valid_item_iff hp).1 (hP.valid hb)
  exact ⟨Nat.le_succ k, exists_splits_iff.2 hm, fun ss hss => .scan hss hs hu⟩

/-- Behind a nonterminal with several antecedents an item is not at its origin. -/
lemma Parsing.Complete.lt_of_branches (hP : P.Complete) {id a p dot o k : Nat} {n : NonTerminal}
    {untried : List Nat} (hx : P.chart.place? id = some ⟨.item p (dot + 1), o, k⟩)
    (hs : P.grammar.symbolAt? p dot = some (.nonterminal n))
    (ha : P.chart.antecedents id = a :: untried) (hne : untried ≠ []) : o < k := by
  obtain ⟨b, rest, rfl⟩ := List.exists_cons_of_ne_nil hne
  obtain ⟨m, hax, hm, hma⟩ := hP.appends_of_mem hx hs (a := a) (by simp [ha])
  obtain ⟨m', hbx, hm', hmb⟩ := hP.appends_of_mem hx hs (a := b) (by simp [ha])
  have hab : m ≠ m' := by
    rintro rfl
    have hnodup := hP.filled.antecedents_nodup id
    rw [ha, hP.filled.indexed.place?_inj hax hbx] at hnodup
    simp at hnodup
  have := hma.le
  have := hmb.le
  omega

/-- Behind the start of a nonterminal no finish is next. -/
lemma Walk.Leaves.not_finish {c : Chart} {w w' : Walk} (h : Leaves c w w') {id : Nat} {y : Phrase}
    (hid : w'.cursor = some id) : c.place? id ≠ some y.place := by
  cases h with
  | stop => cases hid
  | go _ hx =>
    cases hid
    rw [hx]
    nofun

namespace SpineReader

open Walk

variable {s : CallSite} {k p dot o m hi : Nat} {x y z : Phrase} {tail : List Piece} {c : Piece}

/-! ### Inside of an item -/

/-- The phrase is reached from a piece before the item of the call, which stands in column `k`. -/
def Under (P : Parsing) (s : CallSite) (k : Nat) (x : Phrase) : Prop :=
  ∃ ss y, P.grammar.Splits P.tokens s.prod (s.dot + 1) s.origin k ss ∧ .phrase y ∈ ss ∧
    Relation.ReflTransGen (P.grammar.Has P.tokens) y x

lemma Under.of_has (h : Under P s k x) (hy : P.grammar.Has P.tokens x y) : Under P s k y := by
  obtain ⟨ss, z, hss, hz, hzx⟩ := h
  exact ⟨ss, z, hss, hz, hzx.tail hy⟩

/-- The phrase ends to the left of the production of the item, or is reached from a piece before the
item. -/
def Beyond (P : Parsing) (s : CallSite) (k : Nat) (x : Phrase) : Prop :=
  x.hi ≤ s.origin ∨ Under P s k x

/-- How a thread of the phrase lies within the item of the call, which stands in column `k`. -/
inductive Within (P : Parsing) (s : CallSite) (k : Nat) : Phrase → Thread → Prop where
  /-- All symbols that are left to match are to the left of the production of the item. -/
  | left {x : Phrase} {τ : Thread} (h : τ.hi ≤ s.origin) : Within P s k x τ
  /-- The phrase is reached from a piece before the item. -/
  | under {x : Phrase} {τ : Thread} (h : Under P s k x) : Within P s k x τ
  /-- The thread is one of the item, with more pieces chosen. -/
  | same {x : Phrase} {dot hi : Nat} {tail : List Piece} (hdot : dot ≤ s.dot)
      (h : ∃ mid, ∀ ss, P.grammar.Splits P.tokens s.prod dot s.origin hi ss →
        P.grammar.Splits P.tokens s.prod (s.dot + 1) s.origin k (ss ++ mid)) :
      Within P s k x ⟨s.prod, dot, s.origin, hi, tail⟩

/-- A thread within an item stays so when its next piece is chosen. -/
lemma Within.choose (h : Within P s k x ⟨p, dot + 1, o, hi, tail⟩)
    (hc : P.grammar.Appends P.tokens p dot o m hi c) :
    Within P s k x ⟨p, dot, o, m, c :: tail⟩ := by
  cases h with
  | left h => exact .left (Nat.le_trans hc.le h)
  | under h => exact .under h
  | same hdot h =>
    obtain ⟨mid, h⟩ := h
    refine .same (Nat.le_of_succ_le hdot) ⟨c :: mid, fun ss hss => ?_⟩
    have hall := h _ (hc.splits ss hss)
    rwa [List.append_assoc] at hall

/-- The phrase that is chosen for a thread within an item lies beyond the item. -/
lemma Within.beyond (h : Within P s k x ⟨p, dot + 1, o, y.hi, tail⟩)
    (hc : P.grammar.Appends P.tokens p dot o m y.hi (.phrase y))
    (hy : P.grammar.Has P.tokens x y) : Beyond P s k y := by
  cases h with
  | left h => exact Or.inl h
  | under h => exact Or.inr (h.of_has hy)
  | same _ h =>
    obtain ⟨mid, h⟩ := h
    obtain ⟨ss, hss⟩ := hc.exists_splits
    exact Or.inr ⟨_, y, h _ (hc.splits ss hss), by simp, .refl⟩

/-- Choosing a piece before the item leads to a thread within the item. -/
lemma within_own (hc : P.grammar.Appends P.tokens p dot o m hi c) :
    Within P ⟨p, dot, o⟩ hi x ⟨p, dot, o, m, c :: tail⟩ :=
  .same (s := ⟨p, dot, o⟩) (Nat.le_refl _) ⟨[c], hc.splits⟩

lemma beyond_own (hc : P.grammar.Appends P.tokens p dot o m hi (.phrase y)) :
    Beyond P ⟨p, dot, o⟩ hi y := by
  obtain ⟨ss, hss⟩ := hc.exists_splits
  exact Or.inr ⟨_, y, hc.splits ss hss, by simp, .refl⟩

/-- The threads of the open calls are to the left of what is called. -/
lemma Waits.hi_le {G : Grammar} {fl : Nat} {cs : List CallSite} {path : List OpenSpine}
    {act : List (Phrase × Thread)} (hP : P.Complete) (h : Waits G fl o cs path act)
    (hcs : Stacked P.chart o cs) : ∀ a ∈ act, a.2.hi ≤ o := by
  induction h with
  | nil => simp
  | cons _ _ _ _ ih =>
    obtain ⟨⟨b, hb⟩, hcs⟩ := hcs
    have hle := (hP.valid hb).bounds.1
    intro a ha
    rcases List.mem_cons.1 ha with rfl | ha
    · exact Nat.le_refl _
    · exact Nat.le_trans (ih hcs a ha) hle

/-! ### Inside of what is postponed -/

namespace Postponed

/-- If the walk comes back to an item, the thread lies within the item. -/
def Covers (P : Parsing) (q : Postponed) (x : Phrase) (τ : Thread) : Prop :=
  ∀ s, q.branch.site = some s → Within P s q.branch.column x τ

/-- If the walk comes back to an item, the phrase lies beyond the item. -/
def Spares (P : Parsing) (q : Postponed) (y : Phrase) : Prop :=
  ∀ s, q.branch.site = some s → Beyond P s q.branch.column y

/-- What is postponed lies within what was postponed before: a finish as its phrase, and an item as
its thread. -/
def Inside (P : Parsing) (q q' : Postponed) : Prop :=
  match q.branch.site with
  | none => q'.Spares P q.top.phrase
  | some s => q'.Covers P q.top.phrase ⟨s.prod, s.dot + 1, s.origin, q.branch.column, q.tail⟩

variable {q : Postponed} {τ : Thread}

lemma Spares.covers (h : q.Spares P x) (hτ : τ.hi = x.hi) : q.Covers P x τ := by
  intro s hs
  rcases h s hs with h | h
  · exact .left (hτ ▸ h)
  · exact .under h

/-- After a choice the thread lies within what it was within, and the chosen phrase beyond it. -/
lemma Covers.choose (h : q.Covers P x ⟨p, dot + 1, o, y.hi, tail⟩)
    (hc : P.grammar.Appends P.tokens p dot o m y.hi (.phrase y))
    (hy : P.grammar.Has P.tokens x y) :
    q.Covers P x ⟨p, dot, o, m, .phrase y :: tail⟩ ∧ q.Spares P y :=
  ⟨fun s hs => (h s hs).choose hc, fun s hs => (h s hs).beyond hc hy⟩

/-- And so with the item that the choice was made for. -/
lemma choose_own (hq : q.branch.site = some ⟨p, dot, o⟩) (hk : q.branch.column = y.hi)
    (hc : P.grammar.Appends P.tokens p dot o m y.hi (.phrase y)) :
    q.Covers P x ⟨p, dot, o, m, .phrase y :: tail⟩ ∧ q.Spares P y := by
  refine ⟨fun s hs => ?_, fun s hs => ?_⟩
  · rw [hq] at hs
    cases hs
    rw [hk]
    exact within_own hc
  · rw [hq] at hs
    cases hs
    rw [hk]
    exact beyond_own hc

lemma pairwise_defer {R : Postponed → Postponed → Prop} {pend : List Postponed}
    (hq : ∀ d ∈ pend, R q d) (h : pend.Pairwise R) : (q.defer pend).Pairwise R := by
  unfold defer
  split
  · exact h
  · exact List.pairwise_cons.2 ⟨hq, h⟩

end Postponed

/-- What a walk is in the middle of lies within what it comes back to. -/
structure Nested (P : Parsing) (w : Walk) (act : List (Phrase × Thread)) (pend : List Postponed) :
    Prop where
  active : ∀ a ∈ act, ∀ q ∈ pend, q.Covers P a.1 a.2
  /-- A finish that is next lies beyond the items that the walk comes back to. -/
  called : ∀ id y, w.cursor = some id → P.chart.place? id = some (Phrase.place y) →
    ∀ q ∈ pend, q.Spares P y
  postponed : pend.Pairwise (Postponed.Inside P)
  /-- An item that the walk comes back to is not at its origin. -/
  lt : ∀ q ∈ pend, q.branch.untried ≠ [] → ∀ s, q.branch.site = some s →
    s.origin < q.branch.column

section Steps

variable {w w' : Walk} {act act' : List (Phrase × Thread)} {pend pend' : List Postponed}

lemma not_finish_of_place {id o k : Nat} {v : Vertex} (hx : P.chart.place? id = some ⟨v, o, k⟩)
    (hv : ∀ n, v ≠ .finish n) :
    ∀ id' y, some id = some id' → P.chart.place? id' ≠ some (Phrase.place y) := by
  rintro id' y heq hy
  cases heq
  rw [hx] at hy
  cases hy
  exact hv _ rfl

/-- A report that leads to no finish, and after which the walk comes back to nothing else. -/
lemma Nested.pass (h : Nested P w act pend)
    (hact : ∀ a ∈ act', ∀ q ∈ pend, q.Covers P a.1 a.2)
    (hcur : ∀ id y, w'.cursor = some id → P.chart.place? id ≠ some (Phrase.place y)) :
    Nested P w' act' pend where
  active := hact
  called id y hid hy := absurd hy (hcur id y hid)
  postponed := h.postponed
  lt := h.lt

/-- The walk has gone into a finish. -/
lemma Nested.of_finish {q : Postponed} {τ : Thread} (h : Nested P w act pend)
    (hy : ∀ d ∈ pend, d.Spares P y) (hsite : q.branch.site = none) (htop : q.top.phrase = y)
    (hτ : τ.hi = y.hi)
    (hcur : ∀ id z, w'.cursor = some id → P.chart.place? id ≠ some (Phrase.place z)) :
    Nested P w' ((y, τ) :: act) (q.defer pend) where
  active b hb := by
    refine Postponed.forall_mem_defer (fun s hs => ?_) fun d hd => ?_
    · rw [hsite] at hs
      cases hs
    · rcases List.mem_cons.1 hb with rfl | hb
      · exact (hy d hd).covers hτ
      · exact h.active b hb d hd
  called id z hid hz := absurd hz (hcur id z hid)
  postponed := by
    refine Postponed.pairwise_defer (fun d hd => ?_) h.postponed
    simp only [Postponed.Inside, hsite, htop]
    exact hy d hd
  lt := by
    refine Postponed.forall_mem_defer (fun _ s hs => ?_) h.lt
    rw [hsite] at hs
    cases hs

/-- The phrase of an antecedent has been chosen for a thread. -/
lemma Nested.of_choice {a : Nat} {τ : Thread} (hcur : w'.cursor = some a)
    (hax : P.chart.place? a = some y.place)
    (hfront : ∀ q ∈ pend', q.Covers P x τ ∧ q.Spares P y)
    (hact : ∀ b ∈ act', ∀ q ∈ pend', q.Covers P b.1 b.2)
    (hpost : pend'.Pairwise (Postponed.Inside P))
    (hlt : ∀ q ∈ pend', q.branch.untried ≠ [] → ∀ s, q.branch.site = some s →
      s.origin < q.branch.column) : Nested P w' ((x, τ) :: act') pend' where
  active b hb q hq := by
    rcases List.mem_cons.1 hb with rfl | hb
    · exact (hfront q hq).1
    · exact hact b hb q hq
  called id z hid hz := by
    intro q hq
    obtain rfl := Option.some.inj (hcur.symm.trans hid)
    obtain rfl : z = y := by
      obtain ⟨n, lo, hi⟩ := z
      obtain ⟨n', lo', hi'⟩ := y
      rw [hz] at hax
      cases hax
      rfl
    exact (hfront q hq).2
  postponed := hpost
  lt := hlt

/-- The walk has come back to an entry, for its next antecedent. -/
lemma Nested.of_backtrack (hP : P.Complete) {q : Postponed} {dead : List Postponed} {a : Nat}
    {untried : List Nat} (h : Nested P w act (dead ++ q :: pend)) (hq : q.Fits P)
    (hfit : BranchFits P.grammar P.chart q.branch) (ha : q.branch.untried = a :: untried)
    (hcur : w'.cursor = some a)
    (hreads : ∀ r, (P.chart.thread q.branch.site q.tail a).Yields P.grammar P.tokens r →
      P.grammar.Reads P.tokens q.top.phrase r) :
    Nested P w' [(q.top.phrase, P.chart.thread q.branch.site q.tail a)]
      (q.rest untried :: pend) := by
  obtain ⟨hinside, hpend⟩ := List.pairwise_cons.1 (List.pairwise_append.1 h.postponed).2.1
  have hpost : (q.rest untried :: pend).Pairwise (Postponed.Inside P) :=
    List.pairwise_cons.2 ⟨hinside, hpend⟩
  have hlt : ∀ d ∈ q.rest untried :: pend, d.branch.untried ≠ [] →
      ∀ s, d.branch.site = some s → s.origin < d.branch.column := by
    intro d hd hne
    rcases List.mem_cons.1 hd with rfl | hd
    · exact h.lt q (by simp) (by simp [ha])
    · exact h.lt d (by simp [hd]) hne
  have hmem : a ∈ q.branch.untried := by simp [ha]
  cases hq with
  | @finish id k o n cs untried' path hx =>
    cases hfit with
    | finish hx' hcs hsuf =>
      obtain ⟨p, prod, hp, -, hax⟩ := (hP.mem_antecedents_finish_iff hx).1 (hsuf.subset hmem)
      refine ⟨fun b hb d hd => ?_, fun id z hid hz => ?_, hpost, hlt⟩
      · obtain rfl := List.mem_singleton.1 hb
        rw [thread_none hax]
        rcases List.mem_cons.1 hd with rfl | hd
        · nofun
        · exact (hinside d hd).covers rfl
      · rw [hcur] at hid
        exact absurd hz (not_finish_of_place hax (by simp) id z hid)
  | @resume id k o p dot cs untried' f path tail hf hpos =>
    cases hfit with
    | @resume _ _ _ _ _ n _ _ hx hs hcs hsuf =>
      obtain ⟨m, hax, -, happ⟩ := hP.appends_of_mem hx hs (hsuf.subset hmem)
      rw [thread_some hax] at hreads ⊢
      refine .of_choice (y := ⟨n, m, k⟩) hcur hax (fun d hd => ?_) (by simp) hpost hlt
      rcases List.mem_cons.1 hd with rfl | hd
      · exact Postponed.choose_own rfl rfl happ
      · have hcov : d.Covers P f.phrase ⟨p, dot + 1, o, k, tail⟩ := hinside d hd
        exact hcov.choose happ (happ.has hreads)

end Steps

end SpineReader

end ParseForest
