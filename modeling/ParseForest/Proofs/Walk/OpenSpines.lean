import ParseForest.Proofs.Forest.Weights
import ParseForest.Proofs.Walk.Moves
import ParseForest.Proofs.Walk.Reader

/-!
# What a reader is in the middle of

Each open spine belongs to a thread: the positions that have been read are the ends of the pieces
that are chosen. The open calls of a leg wait inside of the open spines, `Waits`, and `Stage` adds
the entry that the walk is at. An entry that the walk comes back to is postponed together with what
the reader has saved for it, `Postponed`. The weights of these threads say how often each reading is
still going to be traced.
-/

namespace ParseForest

variable {P : Parsing}

/-- The phrase of the whole input. -/
def Parsing.whole (P : Parsing) : Phrase :=
  ⟨P.grammar.start, 0, P.tokens.length⟩

/-! ### Finish entries that were gone into -/

namespace Walk

/-- The walk has gone into the finish of the phrase. -/
def Entered (c : Chart) (visited : List Nat) (x : Phrase) : Prop :=
  ∃ id ∈ visited, c.place? id = some x.place

/-- The walk has gone into the finish of the phrase, or is about to pass it. -/
def Meets (c : Chart) (w : Walk) (x : Phrase) : Prop :=
  Entered c w.visited x ∨ ∃ id, w.cursor = some id ∧ c.place? id = some x.place

variable {c : Chart} {G : Grammar} {w w' : Walk} {ev : WalkEvent} {visited : List Nat}
  {x : Phrase} {id o k : Nat} {n : NonTerminal}

lemma Entered.cons (h : Entered c visited x) (id : Nat) : Entered c (id :: visited) x := by
  obtain ⟨id', hid', hx⟩ := h
  exact ⟨id', List.mem_cons_of_mem _ hid', hx⟩

lemma entered_cons_finish (hx : c.place? id = some ⟨.finish n, o, k⟩) :
    Entered c (id :: visited) x ↔ x = ⟨n, o, k⟩ ∨ Entered c visited x := by
  constructor
  · rintro ⟨id', hid', hx'⟩
    rcases List.mem_cons.1 hid' with rfl | hid'
    · obtain ⟨m, lo, hi⟩ := x
      rw [hx] at hx'
      cases hx'
      exact Or.inl rfl
    · exact Or.inr ⟨id', hid', hx'⟩
  · rintro (rfl | h)
    · exact ⟨id, List.mem_cons_self, hx⟩
    · exact h.cons id

lemma entered_cons_start (hx : c.place? id = some ⟨.start n, o, k⟩) :
    Entered c (id :: visited) x ↔ Entered c visited x := by
  refine ⟨?_, fun h => h.cons id⟩
  rintro ⟨id', hid', hx'⟩
  rcases List.mem_cons.1 hid' with rfl | hid'
  · rw [hx] at hx'
    cases hx'
  · exact ⟨id', hid', hx'⟩

lemma Leaves.visited_eq (h : Leaves c w w') : w'.visited = w.visited := by
  cases h <;> rfl

lemma Leaves.branches_eq (h : Leaves c w w') : w'.branches = w.branches := by
  cases h <;> rfl

/-- A walk forgets no finish that it has gone into. -/
lemma Moves.entered (hm : Moves G c w ev w') (h : Entered c w.visited x) :
    Entered c w'.visited x := by
  cases hm with
  | finish => exact h.cons _
  | finishAgain _ _ hl => exact hl.visited_eq ▸ h
  | start _ _ hl => exact hl.visited_eq ▸ h.cons _
  | startAgain _ _ hl => exact hl.visited_eq ▸ h
  | enter => exact h
  | scan => exact h
  | resume => exact h
  | backtrack => exact h

/-- What a walk meets it has gone into after the next report. -/
lemma Moves.entered_of_meets (hm : Moves G c w ev w') (h : Meets c w x) :
    Entered c w'.visited x := by
  rcases h with h | ⟨id, hid, hx⟩
  · exact hm.entered h
  · have at_finish : ∀ {v : Vertex} {o k : Nat}, c.place? id = some ⟨v, o, k⟩ →
        v = .finish x.symbol := by
      intro v o k hx'
      rw [hx'] at hx
      exact congrArg Place.vertex (Option.some.inj hx)
    cases hm with
    | finish =>
      cases hid
      exact ⟨id, List.mem_cons_self, hx⟩
    | finishAgain _ hmem hl =>
      cases hid
      rw [hl.visited_eq]
      exact ⟨id, hmem, hx⟩
    | start hx' =>
      cases hid
      cases at_finish hx'
    | startAgain hx' =>
      cases hid
      cases at_finish hx'
    | enter hx' =>
      cases hid
      cases at_finish hx'
    | scan hx' =>
      cases hid
      cases at_finish hx'
    | resume hx' =>
      cases hid
      cases at_finish hx'
    | backtrack => cases hid

end Walk

/-- The thread of an antecedent ends in the column of the entry at most, and so does a phrase that
is chosen. -/
lemma Walk.BranchFits.column_of_mem (hP : P.Complete) {b : Branch}
    (h : Walk.BranchFits P.grammar P.chart b) {a : Nat} (ha : a ∈ b.untried) (tail : List Piece) :
    (P.chart.thread b.site tail a).hi ≤ b.column ∧
      ∀ y : Phrase, P.chart.place? a = some y.place → y.hi = b.column := by
  cases h with
  | finish hx _ hsuf =>
    obtain ⟨p, prod, -, -, hax⟩ := (hP.mem_antecedents_finish_iff hx).1 (hsuf.subset ha)
    rw [thread_none hax, hax]
    exact ⟨Nat.le_refl _, fun y hy => nomatch hy⟩
  | resume hx hs _ hsuf =>
    obtain ⟨m, hax, -⟩ := hP.exists_finish_of_mem hx hs (hsuf.subset ha)
    rw [thread_some hax, hax]
    refine ⟨(hP.valid hax).bounds.1, fun y hy => ?_⟩
    cases hy
    rfl

namespace SpineReader

open Walk

/-! ### Open spines and threads -/

/-- The open spine is one of a phrase that begins at the position and is made by the production. -/
structure Made (G : Grammar) (p o : Nat) (f : OpenSpine) : Prop where
  lo : f.phrase.lo = o
  prod : ∃ prod, G.prods[p]? = some prod ∧ prod.head = f.phrase.symbol

/-- The open calls that the leg leaves wait inside of the open spines `path`, at the threads
`act`. -/
inductive Waits (G : Grammar) (fl : Nat) : (o : Nat) → List CallSite → (path : List OpenSpine) →
    (act : List (Phrase × Thread)) → Prop where
  /-- The leg leaves no call. -/
  | nil {o : Nat} {cs : List CallSite} {path : List OpenSpine} (h : cs.length ≤ fl) :
      Waits G fl o cs path []
  /-- The innermost call. -/
  | cons {o : Nat} {s : CallSite} {cs : List CallSite} {f : OpenSpine} {path : List OpenSpine}
      {act : List (Phrase × Thread)} {tail : List Piece} (hfl : fl ≤ cs.length)
      (hf : Made G s.prod s.origin f) (hpos : f.positions = Piece.ends tail)
      (h : Waits G fl s.origin cs path act) :
      Waits G fl o (s :: cs) (f :: path)
        ((f.phrase, ⟨s.prod, s.dot, s.origin, o, tail⟩) :: act)

/-- What the reader is in the middle of when the walk is at an entry. -/
inductive Stage (P : Parsing) :
    Walk → (path : List OpenSpine) → (act : List (Phrase × Thread)) → Prop where
  /-- The leg is at its end. -/
  | idle {k fl : Nat} {vis : List Nat} {cs : List CallSite} {bs : List Branch}
      {path : List OpenSpine} : Stage P ⟨none, k, vis, cs, bs, fl⟩ path []
  /-- An item of the innermost spine is next. -/
  | inside {id k p dot o fl : Nat} {vis : List Nat} {cs : List CallSite} {bs : List Branch}
      {f : OpenSpine} {path : List OpenSpine} {act : List (Phrase × Thread)} {tail : List Piece}
      (hx : P.chart.place? id = some ⟨.item p dot, o, k⟩) (hf : Made P.grammar p o f)
      (hpos : f.positions = Piece.ends tail) (h : Waits P.grammar fl o cs path act) :
      Stage P ⟨some id, k, vis, cs, bs, fl⟩ (f :: path) ((f.phrase, ⟨p, dot, o, k, tail⟩) :: act)
  /-- A finish is next, which is that of the whole input or a piece that was chosen. -/
  | calling {id k m fl : Nat} {n : NonTerminal} {vis : List Nat} {cs : List CallSite}
      {bs : List Branch} {path : List OpenSpine} {act : List (Phrase × Thread)}
      (hx : P.chart.place? id = some ⟨.finish n, m, k⟩) (h : Waits P.grammar fl m cs path act)
      (hcall : (⟨n, m, k⟩ : Phrase) = P.whole ∨
        ∃ a ∈ act, .phrase ⟨n, m, k⟩ ∈ a.2.tail) :
      Stage P ⟨some id, k, vis, cs, bs, fl⟩ path act
  /-- The start of the nonterminal is next, and all items of the innermost spine are read. -/
  | leaving {id k p fl : Nat} {vis : List Nat} {cs : List CallSite} {bs : List Branch}
      {f : OpenSpine} {path : List OpenSpine} {act : List (Phrase × Thread)} {tail : List Piece}
      (hx : P.chart.place? id = some ⟨.start f.phrase.symbol, k, k⟩) (hf : Made P.grammar p k f)
      (hp : f.prod = some p) (hpos : f.positions = k :: Piece.ends tail)
      (h : Waits P.grammar fl k cs path act) :
      Stage P ⟨some id, k, vis, cs, bs, fl⟩ (f :: path) ((f.phrase, ⟨p, 0, k, k, tail⟩) :: act)

section Stage

variable {G : Grammar} {w w' : Walk} {cur : Option Nat} {id k m p dot o fl : Nat} {n : NonTerminal}
  {vis : List Nat} {cs : List CallSite} {bs : List Branch} {path : List OpenSpine}
  {act : List (Phrase × Thread)}

/-- Behind the start of a nonterminal the leg goes on at the innermost call, if it leaves that. -/
lemma Waits.leaves (h : Waits P.grammar fl k cs path act)
    (hl : Leaves P.chart ⟨cur, k, vis, cs, bs, fl⟩ w') : Stage P w' path act := by
  cases h with
  | nil hfl =>
    cases hl with
    | stop => exact .idle
    | go hfl' =>
      rw [List.length_cons] at hfl
      omega
  | cons hfl hf hpos h =>
    cases hl with
    | stop hfl' =>
      rw [List.length_cons] at hfl'
      omega
    | go _ hx => exact .inside hx hf hpos h

/-- Every thread of an open call can become a reading with the pieces that are chosen. -/
lemma Waits.exists_yields (hP : P.Complete) (h : Waits P.grammar fl o cs path act)
    (hcs : Stacked P.chart o cs) :
    ∀ a ∈ act, ∃ r, a.2.Yields P.grammar P.tokens r ∧ ∀ s ∈ a.2.tail, s ∈ r.pieces := by
  induction h with
  | nil => simp
  | cons _ hf _ _ ih =>
    obtain ⟨⟨b, hb⟩, hcs⟩ := hcs
    intro a ha
    rcases List.mem_cons.1 ha with rfl | ha
    · obtain ⟨prod, hp, -⟩ := hf.prod
      obtain ⟨-, hm⟩ := (valid_item_iff hp).1 (hP.valid hb)
      obtain ⟨ss, hss⟩ := exists_splits_iff.2 hm
      exact ⟨⟨_, _⟩, ⟨rfl, ss, hss, rfl⟩, fun s hs => List.mem_append_right _ hs⟩
    · exact ih hcs a ha

lemma Stage.act_eq_nil (h : Stage P w path act) (hw : w.cursor = none) : act = [] := by
  cases h with
  | idle => rfl
  | inside => cases hw
  | calling => cases hw
  | leaving => cases hw

lemma Stage.of_finish (h : Stage P ⟨some id, k, vis, cs, bs, fl⟩ path act)
    (hx : P.chart.place? id = some ⟨.finish n, m, k⟩) :
    Waits P.grammar fl m cs path act ∧
      ((⟨n, m, k⟩ : Phrase) = P.whole ∨
        ∃ a ∈ act, .phrase ⟨n, m, k⟩ ∈ a.2.tail) := by
  cases h with
  | inside hx' =>
    rw [hx] at hx'
    cases hx'
  | leaving hx' =>
    rw [hx] at hx'
    cases hx'
  | calling hx' h hcall =>
    rw [hx] at hx'
    cases hx'
    exact ⟨h, hcall⟩

lemma Stage.of_item (h : Stage P ⟨some id, k, vis, cs, bs, fl⟩ path act)
    (hx : P.chart.place? id = some ⟨.item p dot, o, k⟩) :
    ∃ f path' act' tail, path = f :: path' ∧
      act = (f.phrase, ⟨p, dot, o, k, tail⟩) :: act' ∧ Made P.grammar p o f ∧
      f.positions = Piece.ends tail ∧ Waits P.grammar fl o cs path' act' := by
  cases h with
  | calling hx' =>
    rw [hx] at hx'
    cases hx'
  | leaving hx' =>
    rw [hx] at hx'
    cases hx'
  | inside hx' hf hpos h =>
    rw [hx] at hx'
    cases hx'
    exact ⟨_, _, _, _, rfl, rfl, hf, hpos, h⟩

lemma Stage.of_start (h : Stage P ⟨some id, k, vis, cs, bs, fl⟩ path act)
    (hx : P.chart.place? id = some ⟨.start n, o, k⟩) :
    ∃ f p path' act' tail, path = f :: path' ∧ act = (f.phrase, ⟨p, 0, k, k, tail⟩) :: act' ∧
      n = f.phrase.symbol ∧ o = k ∧ Made P.grammar p k f ∧ f.prod = some p ∧
      f.positions = k :: Piece.ends tail ∧ Waits P.grammar fl k cs path' act' := by
  cases h with
  | calling hx' =>
    rw [hx] at hx'
    cases hx'
  | inside hx' =>
    rw [hx] at hx'
    cases hx'
  | leaving hx' hf hp hpos h =>
    rw [hx] at hx'
    cases hx'
    exact ⟨_, _, _, _, _, rfl, rfl, rfl, rfl, hf, hp, hpos, h⟩

end Stage

/-! ### Entries that the walk comes back to -/

/-- An entry that the walk comes back to, with the open spines that the reader has saved for it, the
innermost apart, and the pieces that are chosen to the right of the entry. -/
structure Postponed where
  branch : Branch
  top : OpenSpine
  path : List OpenSpine
  tail : List Piece

namespace Postponed

/-- What the reader keeps for the times that the walk comes back. -/
def saved (q : Postponed) : List (List OpenSpine) :=
  List.replicate q.branch.untried.length (q.top :: q.path)

/-- How often the reading of the phrase is going to be traced from the entry. -/
noncomputable def weight (P : Parsing) (x : Phrase) (r : Reading) (q : Postponed) : Nat :=
  if q.top.phrase = x then threadsWeight P q.branch.site q.tail q.branch.untried r else 0

/-- What is saved belongs to the entry. -/
inductive Fits (P : Parsing) : Postponed → Prop where
  /-- A finish is postponed before any item is read. -/
  | finish {id k o : Nat} {n : NonTerminal} {cs : List CallSite} {untried : List Nat}
      {path : List OpenSpine} (hx : P.chart.place? id = some ⟨.finish n, o, k⟩) :
      Fits P ⟨⟨id, k, cs, none, untried⟩, ⟨⟨n, o, k⟩, none, []⟩, path, []⟩
  /-- An item is postponed after it is read. -/
  | resume {id k o p dot : Nat} {cs : List CallSite} {untried : List Nat} {f : OpenSpine}
      {path : List OpenSpine} {tail : List Piece} (hf : Made P.grammar p o f)
      (hpos : f.positions = k :: Piece.ends tail) :
      Fits P ⟨⟨id, k, cs, some ⟨p, dot, o⟩, untried⟩, f, path, tail⟩

/-- The entry without the antecedents before the given ones. -/
def rest (q : Postponed) (untried : List Nat) : Postponed :=
  { q with branch := { q.branch with untried := untried } }

/-- Postpones an entry, if it has antecedents left. -/
def defer (q : Postponed) (pend : List Postponed) : List Postponed :=
  if q.branch.untried = [] then pend else q :: pend

variable {q : Postponed} {pend : List Postponed} {x : Phrase} {r : Reading} {a : Nat}
  {untried : List Nat}

lemma Fits.rest (h : q.Fits P) (untried : List Nat) : (q.rest untried).Fits P := by
  cases h with
  | finish hx => exact .finish hx
  | resume hf hpos => exact .resume hf hpos

lemma saved_cons (h : q.branch.untried = a :: untried) :
    q.saved = (q.top :: q.path) :: (q.rest untried).saved := by
  rw [saved, h]
  rfl

lemma weight_cons (h : q.branch.untried = a :: untried) :
    q.weight P x r = added P q.top.phrase (P.chart.thread q.branch.site q.tail a) x r +
      (q.rest untried).weight P x r := by
  by_cases hx : q.top.phrase = x
  · simp [weight, added, Postponed.rest, h, hx]
  · simp [weight, added, Postponed.rest, hx]

/-- When the walk comes back to the entry, the leg traces the thread of the next antecedent. -/
lemma Fits.stage (hP : P.Complete) (h : q.Fits P) (hb : BranchFits P.grammar P.chart q.branch)
    (ha : a ∈ q.branch.untried) (vis : List Nat) (bs : List Branch) :
    Stage P ⟨some a, q.branch.column, vis, q.branch.site.toList ++ q.branch.callers, bs,
        q.branch.callers.length⟩ (q.top :: q.path)
        [(q.top.phrase, P.chart.thread q.branch.site q.tail a)] ∧
      ∀ y, .phrase y ∈ (P.chart.thread q.branch.site q.tail a).tail →
        .phrase y ∈ q.tail ∨ P.chart.place? a = some y.place := by
  cases h with
  | @finish id k o n cs untried path hx =>
    cases hb with
    | finish hx' hcs hsuf =>
      obtain ⟨p, prod, hp, hhead, hax⟩ := (hP.mem_antecedents_finish_iff hx).1 (hsuf.subset ha)
      simp only [thread_none hax]
      refine ⟨.inside hax ⟨rfl, prod, hp, hhead⟩ (Piece.ends_padding _ _).symm
        (.nil (Nat.le_refl _)), fun y hy => absurd hy (Piece.phrase_not_mem_padding y _ _)⟩
  | @resume id k o p dot cs untried f path tail hf hpos =>
    cases hb with
    | resume hx hs hcs hsuf =>
      obtain ⟨m, hax, -⟩ := hP.exists_finish_of_mem hx hs (hsuf.subset ha)
      simp only [thread_some hax]
      refine ⟨.calling hax (.cons (Nat.le_refl _) hf (by simp [hpos]) (.nil (Nat.le_refl _)))
        (Or.inr ⟨_, List.mem_cons_self, List.mem_cons_self⟩), fun y hy => ?_⟩
      rcases List.mem_cons.1 hy with hy | hy
      · cases hy
        exact Or.inr hax
      · exact Or.inl hy

@[simp] lemma map_branch_defer :
    (q.defer pend).map branch = Walk.defer q.branch (pend.map branch) := by
  unfold defer Walk.defer
  split <;> rfl

@[simp] lemma flatMap_saved_defer :
    (q.defer pend).flatMap saved = q.saved ++ pend.flatMap saved := by
  unfold defer
  split
  · next h => simp [saved, h]
  · simp

lemma forall_mem_defer {Q : Postponed → Prop} (hq : Q q) (h : ∀ d ∈ pend, Q d) :
    ∀ d ∈ q.defer pend, Q d := by
  intro d hd
  unfold defer at hd
  split at hd
  · exact h d hd
  · rcases List.mem_cons.1 hd with rfl | hd
    · exact hq
    · exact h d hd

/-- How often the reading is going to be traced from some entries. -/
noncomputable def weights (P : Parsing) (pend : List Postponed) (x : Phrase) (r : Reading) : Nat :=
  (pend.map (weight P x r)).sum

@[simp] lemma weights_nil : weights P [] x r = 0 := rfl

@[simp] lemma weights_cons : weights P (q :: pend) x r = q.weight P x r + weights P pend x r := by
  simp [weights]

lemma weight_of_untried_nil (h : q.branch.untried = []) : q.weight P x r = 0 := by
  simp [weight, h]

@[simp] lemma weights_defer :
    weights P (q.defer pend) x r = q.weight P x r + weights P pend x r := by
  unfold defer
  split
  · next h => rw [weight_of_untried_nil h, Nat.zero_add]
  · exact weights_cons

/-- Entries without antecedents left are not come back to. -/
lemma weights_dead {dead : List Postponed} (h : ∀ d ∈ dead, d.branch.untried = []) :
    weights P (dead ++ pend) x r = weights P pend x r := by
  induction dead with
  | nil => rfl
  | cons d dead ih =>
    rw [List.cons_append, weights_cons, weight_of_untried_nil (h d (by simp)), Nat.zero_add]
    exact ih fun d' hd' => h d' (by simp [hd'])

lemma saved_dead {dead : List Postponed} (h : ∀ d ∈ dead, d.branch.untried = []) :
    dead.flatMap saved = [] := by
  rw [List.flatMap_eq_nil_iff]
  intro d hd
  simp [saved, h d hd]

end Postponed

/-- How often the reading of the phrase is going to be traced in the current leg. -/
noncomputable def activeWeight (P : Parsing) (act : List (Phrase × Thread)) (x : Phrase)
    (r : Reading) : Nat :=
  (act.map fun a => added P a.1 a.2 x r).sum

section Active

variable {a : Phrase × Thread} {act : List (Phrase × Thread)} {x : Phrase} {r : Reading}

@[simp] lemma activeWeight_nil : activeWeight P [] x r = 0 := rfl

@[simp] lemma activeWeight_cons :
    activeWeight P (a :: act) x r = added P a.1 a.2 x r + activeWeight P act x r := by
  simp [activeWeight]

lemma activeWeight_pos (ha : a ∈ act) (hr : a.2.Yields P.grammar P.tokens r) :
    0 < activeWeight P act a.1 r := by
  obtain ⟨l₁, l₂, rfl⟩ := List.append_of_mem ha
  have := weight_pos_iff.2 hr
  simp only [activeWeight, List.map_append, List.sum_append, List.map_cons, List.sum_cons,
    added_self]
  omega

end Active

end SpineReader

end ParseForest
