import ParseForest.Walk
import ParseForest.Proofs.Recognition.Antecedents

/-!
# The moves of a walk

`Moves` lists what a walk through a complete parse can do in one report. A walk that fits the parse
always makes one of these moves or is at its end, `next_cases`, and what it comes to fits again,
`Moves.fits`. So a walk that begins at an entry never misses anything on its way.
-/

namespace ParseForest

namespace Walk

/-- Keeps an entry for later, if it has antecedents left. -/
def defer (b : Branch) (branches : List Branch) : List Branch :=
  if b.untried = [] then branches else b :: branches

/-- Goes on after the start of a nonterminal, at the innermost call or nowhere. -/
inductive Leaves (c : Chart) : Walk → Walk → Prop where
  /-- The leg does not leave the nonterminal. -/
  | stop {cur : Option Nat} {k fl : Nat} {vis : List Nat} {cs : List CallSite} {bs : List Branch}
      (hfl : cs.length ≤ fl) : Leaves c ⟨cur, k, vis, cs, bs, fl⟩ ⟨none, k, vis, cs, bs, fl⟩
  /-- The leg goes on before the nonterminal. -/
  | go {cur : Option Nat} {k fl id : Nat} {vis : List Nat} {s : CallSite} {cs : List CallSite}
      {bs : List Branch} (hfl : fl ≤ cs.length)
      (hx : c.place? id = some ⟨.item s.prod s.dot, s.origin, k⟩) :
      Leaves c ⟨cur, k, vis, s :: cs, bs, fl⟩ ⟨some id, k, vis, cs, bs, fl⟩

/-- What a walk does in one report. -/
inductive Moves (G : Grammar) (c : Chart) : Walk → WalkEvent → Walk → Prop where
  /-- Goes into a finish, by its first complete item. -/
  | finish {id k o a fl : Nat} {n : NonTerminal} {vis untried : List Nat} {cs : List CallSite}
      {bs : List Branch} (hx : c.place? id = some ⟨.finish n, o, k⟩) (hid : id ∉ vis)
      (ha : c.antecedents id = a :: untried) :
      Moves G c ⟨some id, k, vis, cs, bs, fl⟩ ⟨.visit, id, k⟩
        ⟨some a, k, id :: vis, cs, defer ⟨id, k, cs, none, untried⟩ bs, fl⟩
  /-- Does not go into a finish again. -/
  | finishAgain {id k o fl : Nat} {n : NonTerminal} {vis : List Nat} {cs : List CallSite}
      {bs : List Branch} {w' : Walk} (hx : c.place? id = some ⟨.finish n, o, k⟩) (hid : id ∈ vis)
      (hl : Leaves c ⟨some id, o, vis, cs, bs, fl⟩ w') :
      Moves G c ⟨some id, k, vis, cs, bs, fl⟩ ⟨.revisit, id, k⟩ w'
  /-- Comes to the start of a nonterminal. -/
  | start {id k o fl : Nat} {n : NonTerminal} {vis : List Nat} {cs : List CallSite}
      {bs : List Branch} {w' : Walk} (hx : c.place? id = some ⟨.start n, o, k⟩) (hid : id ∉ vis)
      (hl : Leaves c ⟨some id, k, id :: vis, cs, bs, fl⟩ w') :
      Moves G c ⟨some id, k, vis, cs, bs, fl⟩ ⟨.visit, id, k⟩ w'
  /-- Comes to the start of a nonterminal again. -/
  | startAgain {id k o fl : Nat} {n : NonTerminal} {vis : List Nat} {cs : List CallSite}
      {bs : List Branch} {w' : Walk} (hx : c.place? id = some ⟨.start n, o, k⟩) (hid : id ∈ vis)
      (hl : Leaves c ⟨some id, k, vis, cs, bs, fl⟩ w') :
      Moves G c ⟨some id, k, vis, cs, bs, fl⟩ ⟨.revisit, id, k⟩ w'
  /-- Goes out of a production before its first symbol. -/
  | enter {id k o s p fl : Nat} {prod : Production} {vis : List Nat} {cs : List CallSite}
      {bs : List Branch} (hx : c.place? id = some ⟨.item p 0, o, k⟩)
      (hp : G.prods[p]? = some prod) (hs : c.place? s = some ⟨.start prod.head, o, k⟩) :
      Moves G c ⟨some id, k, vis, cs, bs, fl⟩ ⟨.visit, id, k⟩ ⟨some s, k, vis, cs, bs, fl⟩
  /-- Goes back over a terminal. -/
  | scan {id k o b p dot fl : Nat} {t : Terminal} {vis : List Nat} {cs : List CallSite}
      {bs : List Branch} (hx : c.place? id = some ⟨.item p (dot + 1), o, k + 1⟩)
      (hs : G.symbolAt? p dot = some (.terminal t))
      (hb : c.place? b = some ⟨.item p dot, o, k⟩) :
      Moves G c ⟨some id, k + 1, vis, cs, bs, fl⟩ ⟨.visit, id, k + 1⟩
        ⟨some b, k, vis, cs, bs, fl⟩
  /-- Goes into a nonterminal from behind. -/
  | resume {id k o a p dot fl : Nat} {n : NonTerminal} {vis untried : List Nat}
      {cs : List CallSite} {bs : List Branch}
      (hx : c.place? id = some ⟨.item p (dot + 1), o, k⟩)
      (hs : G.symbolAt? p dot = some (.nonterminal n)) (ha : c.antecedents id = a :: untried) :
      Moves G c ⟨some id, k, vis, cs, bs, fl⟩ ⟨.visit, id, k⟩
        ⟨some a, k, vis, ⟨p, dot, o⟩ :: cs, defer ⟨id, k, cs, some ⟨p, dot, o⟩, untried⟩ bs, fl⟩
  /-- Comes back to an entry for its next antecedent. -/
  | backtrack {k a fl : Nat} {vis untried : List Nat} {cs : List CallSite} {b : Branch}
      {dead bs : List Branch} (hdead : ∀ d ∈ dead, d.untried = [])
      (hb : b.untried = a :: untried) :
      Moves G c ⟨none, k, vis, cs, dead ++ b :: bs, fl⟩ ⟨.backtrack, b.entry, b.column⟩
        ⟨some a, b.column, vis, b.site.toList ++ b.callers,
          { b with untried := untried } :: bs, b.callers.length⟩

/-! ### Moves are what a walk does -/

variable {G : Grammar} {c : Chart}

lemma entryAt_eq (hc : c.Indexed) {v : Vertex} {o k id : Nat}
    (hx : c.place? id = some ⟨v, o, k⟩) : entryAt G c v o k = .ok id := by
  rw [entryAt, hc.find?_eq_some_iff.2 hx]

lemma Leaves.leave_eq (hc : c.Indexed) {w w' : Walk} (h : Leaves c w w') :
    leave G c w = .ok w' := by
  cases h with
  | @stop cur k fl vis cs bs hfl =>
    cases cs with
    | nil => rfl
    | cons s cs =>
      rw [leave]
      exact if_pos hfl
  | @go cur k fl id vis s cs bs hfl hx =>
    rw [leave]
    dsimp only
    rw [if_neg (by simp; omega), entryAt_eq hc hx]

lemma follow_eq {w : Walk} {id a : Nat} {e : Entry} {site : Option CallSite} {untried : List Nat}
    (ha : e.antecedents = a :: untried) :
    follow w id e site = .ok { w with
      cursor := some a
      callers := site.toList ++ w.callers
      branches := defer ⟨id, w.column, w.callers, site, untried⟩ w.branches } := by
  unfold follow
  rw [ha]
  cases untried with
  | nil => simp [defer]
  | cons a' untried => simp [defer]

lemma backtrack_eq {w : Walk} {b : Branch} {a : Nat} {untried : List Nat} {dead bs : List Branch}
    (hdead : ∀ d ∈ dead, d.untried = []) (hb : b.untried = a :: untried) :
    backtrack w (dead ++ b :: bs) = some (⟨.backtrack, b.entry, b.column⟩,
      { w with
        cursor := some a
        column := b.column
        callers := b.site.toList ++ b.callers
        branches := { b with untried := untried } :: bs
        floor := b.callers.length }) := by
  induction dead with
  | nil => simp [backtrack, hb]
  | cons d dead ih =>
    rw [List.cons_append, backtrack, hdead d (by simp)]
    exact ih fun d' hd' => hdead d' (by simp [hd'])

lemma backtrack_eq_none {w : Walk} {bs : List Branch} (h : ∀ b ∈ bs, b.untried = []) :
    backtrack w bs = none := by
  induction bs with
  | nil => rfl
  | cons b bs ih =>
    rw [backtrack, h b (by simp)]
    exact ih fun b' hb' => h b' (by simp [hb'])

/-- A move is what a walk reports next. -/
theorem Moves.next_eq (hc : c.Indexed) {w w' : Walk} {ev : WalkEvent} (h : Moves G c w ev w') :
    next G c w = .ok (some (ev, w')) := by
  cases h with
  | finish hx hid ha =>
    obtain ⟨e, he, hp⟩ := Chart.place?_eq_some.1 hx
    simp only [Entry.place, Place.mk.injEq] at hp
    rw [Chart.antecedents_eq he] at ha
    simp only [next, he, pass, hp.1, if_neg hid, follow_eq ha]
    rfl
  | finishAgain hx hid hl =>
    obtain ⟨e, he, hp⟩ := Chart.place?_eq_some.1 hx
    simp only [Entry.place, Place.mk.injEq] at hp
    simp only [next, he, pass, hp.1, hp.2.1, if_pos hid, hl.leave_eq hc]
    rfl
  | start hx hid hl =>
    obtain ⟨e, he, hp⟩ := Chart.place?_eq_some.1 hx
    simp only [Entry.place, Place.mk.injEq] at hp
    simp only [next, he, pass, hp.1, if_neg hid, hl.leave_eq hc]
    rfl
  | startAgain hx hid hl =>
    obtain ⟨e, he, hp⟩ := Chart.place?_eq_some.1 hx
    simp only [Entry.place, Place.mk.injEq] at hp
    simp only [next, he, pass, hp.1, if_pos hid, hl.leave_eq hc]
    rfl
  | enter hx hprod hs =>
    obtain ⟨e, he, hp⟩ := Chart.place?_eq_some.1 hx
    simp only [Entry.place, Place.mk.injEq] at hp
    simp only [next, he, pass, hp.1, hp.2.1, Grammar.headOf?, hprod, Option.map_some,
      entryAt_eq hc hs]
    rfl
  | scan hx hsym hb =>
    obtain ⟨e, he, hp⟩ := Chart.place?_eq_some.1 hx
    simp only [Entry.place, Place.mk.injEq] at hp
    simp only [next, he, pass, hp.1, hp.2.1, hsym, Nat.succ_ne_zero, if_false,
      Nat.add_sub_cancel, entryAt_eq hc hb]
    rfl
  | resume hx hsym ha =>
    obtain ⟨e, he, hp⟩ := Chart.place?_eq_some.1 hx
    simp only [Entry.place, Place.mk.injEq] at hp
    rw [Chart.antecedents_eq he] at ha
    simp only [next, he, pass, hp.1, hp.2.1, hsym, follow_eq ha]
    rfl
  | backtrack hdead hb =>
    simp only [next, backtrack_eq hdead hb]

/-! ### Walks that fit a parse -/

variable {P : Parsing}

/-- Each call was made by an item at the origin of what is inside of it; `o` is the origin of what
is inside of them all. -/
def Stacked (c : Chart) : (o : Nat) → List CallSite → Prop
  | _, [] => True
  | o, s :: cs => c.Holds ⟨.item s.prod s.dot, s.origin, o⟩ ∧ Stacked c s.origin cs

/-- The branch is one at a finish or at an item behind a nonterminal, with some of its last
antecedents left. -/
inductive BranchFits (G : Grammar) (c : Chart) : Branch → Prop where
  /-- A finish that was gone into. -/
  | finish {id k o : Nat} {n : NonTerminal} {cs : List CallSite} {untried : List Nat}
      (hx : c.place? id = some ⟨.finish n, o, k⟩) (hcs : Stacked c o cs)
      (ha : untried <:+ c.antecedents id) : BranchFits G c ⟨id, k, cs, none, untried⟩
  /-- An item behind a nonterminal. -/
  | resume {id k o p dot : Nat} {n : NonTerminal} {cs : List CallSite} {untried : List Nat}
      (hx : c.place? id = some ⟨.item p (dot + 1), o, k⟩)
      (hs : G.symbolAt? p dot = some (.nonterminal n)) (hcs : Stacked c o cs)
      (ha : untried <:+ c.antecedents id) :
      BranchFits G c ⟨id, k, cs, some ⟨p, dot, o⟩, untried⟩

/-- What the state of a walk refers to is in the chart. -/
structure Fits (G : Grammar) (c : Chart) (w : Walk) : Prop where
  /-- The next entry is in the current column and inside of the open calls. -/
  cursor : ∀ id, w.cursor = some id →
    ∃ v o, c.place? id = some ⟨v, o, w.column⟩ ∧ Stacked c o w.callers
  /-- The leg does not leave more calls than there are. -/
  floor_le : w.floor ≤ w.callers.length
  /-- The entries to come back to have antecedents to come back for. -/
  branches : ∀ b ∈ w.branches, BranchFits G c b

/-- The entry that is next is inside of the open calls. -/
lemma Fits.stacked {w : Walk} (hw : Fits G c w) {id : Nat} {x : Place} (hid : w.cursor = some id)
    (hx : c.place? id = some x) : Stacked c x.origin w.callers := by
  obtain ⟨v, o, hx', hcs⟩ := hw.cursor id hid
  obtain rfl := Option.some.inj (hx.symm.trans hx')
  exact hcs

lemma forall_mem_defer {Q : Branch → Prop} {b : Branch} {bs : List Branch} (hb : Q b)
    (h : ∀ d ∈ bs, Q d) : ∀ d ∈ defer b bs, Q d := by
  intro d hd
  unfold defer at hd
  split at hd
  · exact h d hd
  · rcases List.mem_cons.1 hd with rfl | hd
    · exact hb
    · exact h d hd

lemma BranchFits.of_suffix {b : Branch} (h : BranchFits G c b) {untried : List Nat}
    (hu : untried <:+ b.untried) : BranchFits G c { b with untried := untried } := by
  cases h with
  | finish hx hcs ha => exact .finish hx hcs (hu.trans ha)
  | resume hx hs hcs ha => exact .resume hx hs hcs (hu.trans ha)

/-- A branch is at an entry of its column. -/
lemma BranchFits.exists_place? {b : Branch} (h : BranchFits G c b) :
    ∃ v o, c.place? b.entry = some ⟨v, o, b.column⟩ ∧ ∀ n, v ≠ .start n := by
  cases h with
  | finish hx => exact ⟨_, _, hx, nofun⟩
  | resume hx => exact ⟨_, _, hx, nofun⟩

lemma Leaves.fits {k : Nat} {cur : Option Nat} {fl : Nat} {vis : List Nat} {cs : List CallSite}
    {bs : List Branch} {w' : Walk} (h : Leaves c ⟨cur, k, vis, cs, bs, fl⟩ w')
    (hcs : Stacked c k cs) (hfl : fl ≤ cs.length) (hbs : ∀ b ∈ bs, BranchFits G c b) :
    Fits G c w' := by
  cases h with
  | stop _ => exact ⟨fun id hid => (by cases hid), hfl, hbs⟩
  | go hfl' hx =>
    refine ⟨fun id hid => ?_, hfl', hbs⟩
    cases hid
    exact ⟨_, _, hx, hcs.2⟩

/-- The antecedent that is followed from a finish is inside of the same calls. -/
lemma exists_place?_of_finish (hP : P.Complete) {id k o a : Nat} {n : NonTerminal}
    (hx : P.chart.place? id = some ⟨.finish n, o, k⟩) (ha : a ∈ P.chart.antecedents id) :
    ∃ v, P.chart.place? a = some ⟨v, o, k⟩ := by
  obtain ⟨p, prod, -, -, ha⟩ := (hP.mem_antecedents_finish_iff hx).1 ha
  exact ⟨_, ha⟩

/-- The antecedent that is followed from behind a nonterminal is inside of one more call. -/
lemma exists_place?_of_resume (hP : P.Complete) {id k o a p dot : Nat} {n : NonTerminal}
    {cs : List CallSite} (hx : P.chart.place? id = some ⟨.item p (dot + 1), o, k⟩)
    (hs : P.grammar.symbolAt? p dot = some (.nonterminal n)) (ha : a ∈ P.chart.antecedents id)
    (hcs : Stacked P.chart o cs) :
    ∃ m, P.chart.place? a = some ⟨.finish n, m, k⟩ ∧
      Stacked P.chart m (⟨p, dot, o⟩ :: cs) := by
  obtain ⟨m, ha, hb⟩ := hP.exists_finish_of_mem hx hs ha
  exact ⟨m, ha, hb, hcs⟩

/-- A walk that fits a parse fits it after each move. -/
theorem Moves.fits (hP : P.Complete) {w w' : Walk} {ev : WalkEvent}
    (h : Moves P.grammar P.chart w ev w') (hw : Fits P.grammar P.chart w) :
    Fits P.grammar P.chart w' := by
  have place : ∀ {id : Nat} {x : Place}, w.cursor = some id → P.chart.place? id = some x →
      Stacked P.chart x.origin w.callers := hw.stacked
  obtain ⟨-, hfl, hbs⟩ := hw
  cases h with
  | finish hx hid ha =>
    have hcs := place rfl hx
    obtain ⟨v, hv⟩ := exists_place?_of_finish hP hx (by rw [ha]; exact List.mem_cons_self)
    refine ⟨fun id' hid' => ?_, hfl, forall_mem_defer (.finish hx hcs ?_) hbs⟩
    · cases hid'
      exact ⟨_, _, hv, hcs⟩
    · rw [ha]
      exact List.suffix_cons _ _
  | finishAgain hx hid hl => exact hl.fits (place rfl hx) hfl hbs
  | start hx hid hl =>
    obtain rfl := hP.origin_start hx
    exact hl.fits (place rfl hx) hfl hbs
  | startAgain hx hid hl =>
    obtain rfl := hP.origin_start hx
    exact hl.fits (place rfl hx) hfl hbs
  | enter hx hp hs =>
    refine ⟨fun id' hid' => ?_, hfl, hbs⟩
    cases hid'
    exact ⟨_, _, hs, place rfl hx⟩
  | scan hx hs hb =>
    refine ⟨fun id' hid' => ?_, hfl, hbs⟩
    cases hid'
    exact ⟨_, _, hb, place rfl hx⟩
  | resume hx hs ha =>
    have hcs := place rfl hx
    obtain ⟨m, hm, hcs'⟩ :=
      exists_place?_of_resume hP hx hs (by rw [ha]; exact List.mem_cons_self) hcs
    refine ⟨fun id' hid' => ?_, Nat.le_succ_of_le hfl, forall_mem_defer (.resume hx hs hcs ?_) hbs⟩
    · cases hid'
      exact ⟨_, _, hm, hcs'⟩
    · rw [ha]
      exact List.suffix_cons _ _
  | @backtrack k a fl vis untried cs b dead bs hdead hb =>
    have hfit : BranchFits P.grammar P.chart b := hbs b (by simp)
    have hsuf : untried <:+ b.untried := by
      rw [hb]
      exact List.suffix_cons _ _
    refine ⟨fun id' hid' => ?_, by simp, fun d hd => ?_⟩
    · cases hid'
      have hmem : a ∈ b.untried := by simp [hb]
      cases hfit with
      | finish hx hcs ha =>
        obtain ⟨v, hv⟩ := exists_place?_of_finish hP hx (ha.subset hmem)
        exact ⟨_, _, hv, hcs⟩
      | resume hx hs hcs ha =>
        obtain ⟨m, hm, hcs'⟩ := exists_place?_of_resume hP hx hs (ha.subset hmem) hcs
        exact ⟨_, _, hm, hcs'⟩
    · rcases List.mem_cons.1 hd with rfl | hd
      · exact hfit.of_suffix hsuf
      · exact hbs d (by simp [hd])

/-! ### Walks do not get stuck -/

lemma exists_leaves {k fl : Nat} {cur : Option Nat} {vis : List Nat} {cs : List CallSite}
    {bs : List Branch} (hcs : Stacked c k cs) : ∃ w', Leaves c ⟨cur, k, vis, cs, bs, fl⟩ w' := by
  cases cs with
  | nil => exact ⟨_, .stop (Nat.zero_le _)⟩
  | cons s cs =>
    rcases Nat.lt_or_ge cs.length fl with hfl | hfl
    · exact ⟨_, .stop hfl⟩
    · obtain ⟨id, hx⟩ := hcs.1
      exact ⟨_, .go hfl hx⟩

/-- The branches before the first that has antecedents left. -/
lemma branches_cases (bs : List Branch) :
    (∀ b ∈ bs, b.untried = []) ∨ ∃ dead b rest, bs = dead ++ b :: rest ∧
      (∀ d ∈ dead, d.untried = []) ∧ b.untried ≠ [] := by
  induction bs with
  | nil => exact Or.inl (by simp)
  | cons b bs ih =>
    by_cases hb : b.untried = []
    · rcases ih with h | ⟨dead, b', rest, rfl, hdead, hb'⟩
      · exact Or.inl (by simpa [hb] using h)
      · exact Or.inr ⟨b :: dead, b', rest, rfl, by simpa [hb] using hdead, hb'⟩
    · exact Or.inr ⟨[], b, bs, rfl, by simp, hb⟩

/-- A walk that fits a parse makes a move or is at its end. -/
theorem next_cases (hP : P.Complete) {w : Walk} (hw : Fits P.grammar P.chart w) :
    (next P.grammar P.chart w = .ok none ∧ w.cursor = none ∧ ∀ b ∈ w.branches, b.untried = []) ∨
      ∃ ev w', Moves P.grammar P.chart w ev w' := by
  obtain ⟨cur, k, vis, cs, bs, fl⟩ := w
  obtain ⟨hcur, hfl, hbs⟩ := hw
  cases cur with
  | none =>
    rcases branches_cases bs with h | ⟨dead, b, rest, rfl, hdead, hb⟩
    · exact Or.inl ⟨by simp only [next, backtrack_eq_none h], rfl, h⟩
    · obtain ⟨a, untried, hb⟩ := List.exists_cons_of_ne_nil hb
      exact Or.inr ⟨_, _, .backtrack hdead hb⟩
  | some id =>
    obtain ⟨v, o, hx, hcs⟩ := hcur id rfl
    refine Or.inr ?_
    cases v with
    | start n =>
      obtain rfl := hP.origin_start hx
      by_cases hid : id ∈ vis
      · obtain ⟨w', hl⟩ := exists_leaves hcs
        exact ⟨_, w', .startAgain hx hid hl⟩
      · obtain ⟨w', hl⟩ := exists_leaves hcs
        exact ⟨_, w', .start hx hid hl⟩
    | finish n =>
      by_cases hid : id ∈ vis
      · obtain ⟨w', hl⟩ := exists_leaves hcs
        exact ⟨_, w', .finishAgain hx hid hl⟩
      · obtain ⟨a, ha⟩ := hP.exists_antecedent_finish hx
        obtain ⟨a', untried, ha⟩ := List.exists_cons_of_ne_nil (List.ne_nil_of_mem ha)
        exact ⟨_, _, .finish hx hid ha⟩
    | item p dot =>
      obtain ⟨prod, hp, hdot⟩ := hP.prod_of_item hx
      cases dot with
      | zero =>
        obtain ⟨rfl, s, hs⟩ := hP.holds_start_of_enter hp hx
        exact ⟨_, _, .enter hx hp hs⟩
      | succ dot =>
        cases hs : prod.body[dot]? with
        | none =>
          have := List.getElem?_eq_none_iff.1 hs
          omega
        | some s =>
          have hs' : P.grammar.symbolAt? p dot = some s := by rw [Grammar.symbolAt?_eq hp, hs]
          cases s with
          | terminal t =>
            obtain ⟨i, u, rfl, -, -, b, hb⟩ := hP.holds_item_of_scan hs' hx
            exact ⟨_, _, .scan hx hs' hb⟩
          | nonterminal n =>
            obtain ⟨a, ha⟩ := hP.exists_antecedent_resume hp hs hx
            obtain ⟨a', untried, ha⟩ := List.exists_cons_of_ne_nil (List.ne_nil_of_mem ha)
            exact ⟨_, _, .resume hx hs' ha⟩

/-- What a walk reports next is one of its moves. -/
lemma Fits.moves (hP : P.Complete) {w w' : Walk} {ev : WalkEvent} (hw : Fits P.grammar P.chart w)
    (h : next P.grammar P.chart w = .ok (some (ev, w'))) : Moves P.grammar P.chart w ev w' := by
  rcases next_cases hP hw with ⟨hend, -⟩ | ⟨ev', w'', hm⟩
  · rw [hend] at h
    cases h
  · rw [hm.next_eq hP.filled.indexed] at h
    cases h
    exact hm

/-- The walk that begins at an entry fits. -/
lemma startAt_fits {id : Nat} {x : Place} (hx : c.place? id = some x) :
    startAt c id = .ok ⟨some id, x.column, [], [], [], 0⟩ ∧
      Fits G c ⟨some id, x.column, [], [], [], 0⟩ := by
  obtain ⟨e, he, rfl⟩ := Chart.place?_eq_some.1 hx
  refine ⟨by simp [startAt, he, Entry.place], fun id' hid' => ?_, Nat.le_refl _, by simp⟩
  cases hid'
  exact ⟨_, _, hx, trivial⟩

end Walk

end ParseForest
