import ParseForest.Proofs.Walk.Total

/-!
# Legs stay inside of their nonterminal

A walk that comes back to an entry begins a leg, which ends at the next backtrack or with the walk.
How far the leg goes is decided by the number of calls that it does not leave alone. It turns out
that this is enough: the entry that is next and the calls that were opened in the leg always lie
within the phrase of the entry that the walk came back to (`InLeg`), so that the leg can end nowhere
but at the start of its nonterminal, and ends the first time that it comes there. The main statement
is `backtrack_closes`.
-/

namespace ParseForest

/-- A report of a walk, and the walk before and after it. -/
structure WalkStep where
  before : Walk
  event : WalkEvent
  after : Walk

namespace Walk

/-- The steps of a walk until its end. -/
inductive Steps (G : Grammar) (c : Chart) : Walk → List WalkStep → Prop where
  | done {w : Walk} (h : next G c w = .ok none) : Steps G c w []
  | step {w w' : Walk} {ev : WalkEvent} {steps : List WalkStep}
      (h : next G c w = .ok (some (ev, w'))) (hs : Steps G c w' steps) :
      Steps G c w (⟨w, ev, w'⟩ :: steps)

/-- The steps until the next backtrack. -/
def leg (steps : List WalkStep) : List WalkStep :=
  steps.takeWhile fun s => s.event.kind ≠ .backtrack

/-- What a walk comes back to at the end of a leg. -/
def resumed? (w : Walk) : Option Branch :=
  w.branches.find? fun b => b.untried ≠ []

/-- The steps make up the phrase of `n` from `j` to `k`, with the calls `R` open around it. They stay
inside of the phrase and end where they come to its start outside of all other calls. -/
structure Closes (c : Chart) (n : NonTerminal) (j k : Nat) (R : List CallSite)
    (steps : List WalkStep) : Prop where
  columns : ∀ s ∈ steps, j ≤ s.event.column ∧ s.event.column ≤ k
  callers : ∀ s ∈ steps, R <:+ s.before.callers ∧ R <:+ s.after.callers
  last : ∃ s, steps.getLast? = some s ∧ c.place? s.event.entry = some ⟨.start n, j, j⟩ ∧
    s.event.column = j ∧ s.before.callers = R
  only : ∀ (i : Nat) (s : WalkStep), steps[i]? = some s →
    (∃ m o l, c.place? s.event.entry = some ⟨.start m, o, l⟩) → s.before.callers = R →
      i + 1 = steps.length

/-- The outermost of an entry and the calls around it is an entry of `n` with the origin `j`, not
behind its phrase. -/
def Rooted (G : Grammar) (n : NonTerminal) (j : Nat) : Vertex → Nat → List CallSite → Prop
  | v, o, [] => G.headOf? v = some n ∧ o = j ∧ ∀ m, v ≠ .finish m
  | _, _, s :: cs => Rooted G n j (.item s.prod s.dot) s.origin cs

/-- The walk is in a leg at an entry of `n` from `j` to `k` that began with the calls `R` open. -/
structure InLeg (P : Parsing) (n : NonTerminal) (j k : Nat) (R : List CallSite) (w : Walk) :
    Prop where
  floor_eq : w.floor = R.length
  column_le : w.column ≤ k
  rooted : ∃ id v o cs, w.cursor = some id ∧ P.chart.place? id = some ⟨v, o, w.column⟩ ∧
    w.callers = cs ++ R ∧ Rooted P.grammar n j v o cs

variable {G : Grammar} {c : Chart} {P : Parsing} {n : NonTerminal} {v v' : Vertex}
  {j k o : Nat} {R cs : List CallSite} {w w' : Walk} {ev : WalkEvent} {steps : List WalkStep}

/-! ### Entries inside of a phrase -/

lemma Rooted.change (h : Rooted G n j v o cs) (hhead : G.headOf? v' = G.headOf? v)
    (hv : ∀ m, v' ≠ .finish m) : Rooted G n j v' o cs := by
  cases cs with
  | nil => exact ⟨hhead.trans h.1, h.2.1, hv⟩
  | cons s cs => exact h

/-- A finish is inside of a call. -/
lemma Rooted.of_finish {m : NonTerminal} {o' : Nat} (h : Rooted G n j (.finish m) o cs) :
    Rooted G n j v o' cs := by
  cases cs with
  | nil => exact absurd rfl (h.2.2 m)
  | cons s cs => exact h

/-- What is inside of a phrase does not begin before it. -/
lemma Rooted.le (hP : P.Complete) (h : Rooted P.grammar n j v o cs)
    (hcs : Stacked P.chart o (cs ++ R)) : j ≤ o := by
  induction cs generalizing v o with
  | nil => exact Nat.le_of_eq h.2.1.symm
  | cons s cs ih =>
    obtain ⟨⟨id, hx⟩, hcs⟩ := hcs
    exact Nat.le_trans (ih h hcs) (hP.valid hx).bounds.1

/-! ### One step of a leg -/

/-- The leg ends with a report of the start of its nonterminal outside of all calls that it opened. -/
def Ends (c : Chart) (n : NonTerminal) (j : Nat) (R : List CallSite) (w : Walk) (ev : WalkEvent)
    (w' : Walk) : Prop :=
  c.place? ev.entry = some ⟨.start n, j, j⟩ ∧ ev.column = j ∧ w.callers = R ∧ w'.callers = R ∧
    w'.cursor = none

/-- The leg goes on, and if the start of a nonterminal is reported, then inside of a call that the
leg opened. -/
def GoesOn (P : Parsing) (n : NonTerminal) (j k : Nat) (R : List CallSite) (w : Walk)
    (ev : WalkEvent) (w' : Walk) : Prop :=
  InLeg P n j k R w' ∧
    ∀ m o l, P.chart.place? ev.entry = some ⟨.start m, o, l⟩ → w.callers ≠ R

/-- The leg does not end while a call is open that it opened. -/
lemma Leaves.leg_cases {i : Nat} {cur : Option Nat} {vis : List Nat} {bs : List Branch}
    (h : Leaves P.chart ⟨cur, i, vis, cs ++ R, bs, R.length⟩ w') (hi : i ≤ k)
    (hroot : Rooted P.grammar n j v o cs) :
    (cs = [] ∧ w'.callers = R ∧ w'.cursor = none) ∨ (cs ≠ [] ∧ InLeg P n j k R w') := by
  cases cs with
  | nil =>
    left
    cases h with
    | stop => exact ⟨rfl, rfl, rfl⟩
    | go hfl => exact absurd hfl (by simp)
  | cons s cs =>
    right
    cases h with
    | stop hfl =>
      rw [List.length_append, List.length_cons] at hfl
      omega
    | go _ hx => exact ⟨List.cons_ne_nil s cs, rfl, hi, _, _, _, cs, rfl, hx, rfl, hroot⟩

/-- At a start the leg ends if no call is open that it opened, and goes on otherwise. -/
lemma Leaves.leg_start (hP : P.Complete) {id i : Nat} {m : NonTerminal} {kind : WalkKind}
    {vis vis' : List Nat} {bs : List Branch}
    (hx : P.chart.place? id = some ⟨.start m, o, i⟩)
    (h : Leaves P.chart ⟨some id, i, vis', cs ++ R, bs, R.length⟩ w') (hi : i ≤ k)
    (hroot : Rooted P.grammar n j (.start m) o cs) :
    Ends P.chart n j R ⟨some id, i, vis, cs ++ R, bs, R.length⟩ ⟨kind, id, i⟩ w' ∨
      GoesOn P n j k R ⟨some id, i, vis, cs ++ R, bs, R.length⟩ ⟨kind, id, i⟩ w' := by
  rcases h.leg_cases hi hroot with ⟨rfl, hcs, hcur⟩ | ⟨hne, hleg⟩
  · left
    obtain ⟨hhead, rfl, -⟩ := hroot
    obtain rfl : m = n := Option.some.inj hhead
    obtain rfl := hP.origin_start hx
    exact ⟨hx, rfl, rfl, hcs, hcur⟩
  · right
    refine ⟨hleg, fun _ _ _ _ => ?_⟩
    simpa using hne

/-- What is reported within a leg is no backtrack, and is in the current column. -/
lemma Moves.event_of_cursor {id : Nat} (hm : Moves G c w ev w') (hid : w.cursor = some id) :
    ev.kind ≠ .backtrack ∧ ev.column = w.column := by
  cases hm <;> cases hid <;> simp

/-- After each step of a leg the leg is at its end or goes on inside of the phrase. -/
lemma InLeg.step (hP : P.Complete) (h : InLeg P n j k R w)
    (hm : Moves P.grammar P.chart w ev w') :
    Ends P.chart n j R w ev w' ∨ GoesOn P n j k R w ev w' := by
  obtain ⟨hfloor, hk, id, v, o, cs, hid, hx, hcs, hroot⟩ := h
  have ho : o ≤ w.column := (hP.valid hx).bounds.1
  have not_start {v' : Vertex} (hx' : P.chart.place? id = some ⟨v', o, w.column⟩)
      (hne : ∀ m, v' ≠ .start m) (m : NonTerminal) (o' l : Nat)
      (hm : P.chart.place? id = some ⟨.start m, o', l⟩) : w.callers ≠ R := by
    rw [hx'] at hm
    cases hm
    exact absurd rfl (hne m)
  obtain ⟨cur, i, vis, cs', bs, fl⟩ := w
  dsimp only at hfloor hk hid hx hcs ho not_start
  subst hfloor hcs hid
  cases hm with
  | finish hx' hnew ha =>
    obtain ⟨rfl, rfl⟩ : v = _ ∧ o = _ := by simpa using hx.symm.trans hx'
    obtain ⟨v', hv'⟩ := exists_place?_of_finish hP hx (by rw [ha]; exact List.mem_cons_self)
    refine Or.inr ⟨⟨rfl, hk, ?_⟩, not_start hx (by simp)⟩
    exact ⟨_, v', o, cs, rfl, hv', rfl, hroot.of_finish⟩
  | finishAgain hx' hold hl =>
    obtain ⟨rfl, rfl⟩ : v = _ ∧ o = _ := by simpa using hx.symm.trans hx'
    rcases hl.leg_cases (Nat.le_trans ho hk) hroot with ⟨rfl, -⟩ | ⟨-, hleg⟩
    · exact absurd rfl (hroot.2.2 _)
    · exact Or.inr ⟨hleg, not_start hx (by simp)⟩
  | start hx' hnew hl =>
    obtain ⟨rfl, rfl⟩ : v = _ ∧ o = _ := by simpa using hx.symm.trans hx'
    exact hl.leg_start hP hx hk hroot
  | startAgain hx' hold hl =>
    obtain ⟨rfl, rfl⟩ : v = _ ∧ o = _ := by simpa using hx.symm.trans hx'
    exact hl.leg_start hP hx hk hroot
  | enter hx' hp hs =>
    obtain ⟨rfl, rfl⟩ : v = _ ∧ o = _ := by simpa using hx.symm.trans hx'
    refine Or.inr ⟨⟨rfl, hk, ?_⟩, not_start hx (by simp)⟩
    refine ⟨_, _, o, cs, rfl, hs, rfl, hroot.change ?_ (by simp)⟩
    simp [Grammar.headOf?, hp]
  | scan hx' hs hb =>
    obtain ⟨rfl, rfl⟩ : v = _ ∧ o = _ := by simpa using hx.symm.trans hx'
    refine Or.inr ⟨⟨rfl, Nat.le_of_succ_le hk, ?_⟩, not_start hx (by simp)⟩
    exact ⟨_, _, o, cs, rfl, hb, rfl, hroot.change rfl (by simp)⟩
  | resume hx' hs ha =>
    obtain ⟨rfl, rfl⟩ : v = _ ∧ o = _ := by simpa using hx.symm.trans hx'
    obtain ⟨l, hl, -⟩ := hP.exists_finish_of_mem hx hs (by rw [ha]; exact List.mem_cons_self)
    refine Or.inr ⟨⟨rfl, hk, ?_⟩, not_start hx (by simp)⟩
    exact ⟨_, _, l, _ :: cs, rfl, hl, rfl, hroot.change rfl (by simp)⟩

/-! ### Whole legs -/

/-- A backtrack begins a leg at the entry that the walk comes back to. -/
lemma Moves.begins (hP : P.Complete) (hw : Fits P.grammar P.chart w)
    (hm : Moves P.grammar P.chart w ev w') (hev : ev.kind = .backtrack) :
    ∃ b v n j, w.resumed? = some b ∧ ev.entry = b.entry ∧
      P.chart.place? b.entry = some ⟨v, j, ev.column⟩ ∧ P.grammar.headOf? v = some n ∧
      InLeg P n j ev.column b.callers w' := by
  cases hm with
  | @backtrack k a fl vis untried cs b dead bs hdead hb =>
    have hresumed : (dead ++ b :: bs).find? (fun b => b.untried ≠ []) = some b := by
      rw [List.find?_append, List.find?_eq_none.2 (by simpa using hdead)]
      simp [hb]
    have hmem : a ∈ b.untried := by simp [hb]
    have hfits := hw.branches b (by simp)
    refine ⟨b, ?_⟩
    cases hfits with
    | @finish id k o n cs _ hx hcs ha =>
      obtain ⟨p, prod, hp, hhead, hitem⟩ :=
        (hP.mem_antecedents_finish_iff hx).1 (ha.subset hmem)
      refine ⟨_, n, o, hresumed, rfl, hx, rfl, rfl, Nat.le_refl _, a, _, o, [], rfl, hitem, rfl, ?_⟩
      exact ⟨by simp [Grammar.headOf?, hp, hhead], rfl, by simp⟩
    | @resume id k o p dot m cs _ hx hs hcs ha =>
      obtain ⟨prod, hp, -⟩ := hP.prod_of_item hx
      obtain ⟨l, hl, -⟩ := hP.exists_finish_of_mem hx hs (ha.subset hmem)
      have hhead : P.grammar.headOf? (.item p dot) = some prod.head := by
        simp [Grammar.headOf?, hp]
      exact ⟨_, prod.head, o, hresumed, rfl, hx, hhead, rfl, Nat.le_refl _, a, _, l, [⟨p, dot, o⟩],
        rfl, hl, rfl, hhead, rfl, by simp⟩
  | _ => cases hev

lemma Closes.single {s : WalkStep} (h : Ends c n j R s.before s.event s.after) (hjk : j ≤ k) :
    Closes c n j k R [s] := by
  obtain ⟨hx, hcol, hcs, hcs', -⟩ := h
  refine ⟨?_, ?_, ⟨s, rfl, hx, hcol, hcs⟩, ?_⟩
  · simpa [hcol] using hjk
  · simp [hcs, hcs']
  · intro i t hi _ _
    have := (List.getElem?_eq_some_iff.1 hi).1
    simp only [List.length_singleton] at this ⊢
    omega

lemma Closes.cons {s : WalkStep} (h : Closes c n j k R steps)
    (hcol : j ≤ s.event.column ∧ s.event.column ≤ k)
    (hcs : R <:+ s.before.callers ∧ R <:+ s.after.callers)
    (hstart : ∀ m o l, c.place? s.event.entry = some ⟨.start m, o, l⟩ → s.before.callers ≠ R) :
    Closes c n j k R (s :: steps) := by
  obtain ⟨hcols, hcallers, ⟨t, ht, hlast⟩, honly⟩ := h
  refine ⟨List.forall_mem_cons.2 ⟨hcol, hcols⟩, List.forall_mem_cons.2 ⟨hcs, hcallers⟩,
    ⟨t, ?_, hlast⟩, ?_⟩
  · rw [List.getLast?_cons, ht]
    rfl
  · intro i u hi hu hR
    cases i with
    | zero =>
      obtain rfl : s = u := by simpa using hi
      obtain ⟨m, o, l, hx⟩ := hu
      exact absurd hR (hstart m o l hx)
    | succ i => rw [List.length_cons, honly i u (by simpa using hi) hu hR]

lemma InLeg.exists_cursor (h : InLeg P n j k R w) : ∃ id, w.cursor = some id := by
  obtain ⟨-, -, id, v, o, cs, hid, -⟩ := h
  exact ⟨id, hid⟩

lemma InLeg.callers_suffix (h : InLeg P n j k R w) : R <:+ w.callers := by
  obtain ⟨-, -, id, v, o, cs, -, -, hcs, -⟩ := h
  exact ⟨cs, hcs.symm⟩

lemma InLeg.bounds (hP : P.Complete) (hw : Fits P.grammar P.chart w) (h : InLeg P n j k R w) :
    j ≤ w.column ∧ w.column ≤ k := by
  obtain ⟨-, hk, id, v, o, cs, hid, hx, hcs, hroot⟩ := h
  have hj := hroot.le hP (hcs ▸ hw.stacked hid hx)
  exact ⟨Nat.le_trans hj (hP.valid hx).bounds.1, hk⟩

/-- At the end of a leg a walk comes back to an entry or is at its end. -/
lemma Steps.leg_eq_nil (hP : P.Complete) (hw : Fits P.grammar P.chart w) (hcur : w.cursor = none)
    (h : Steps P.grammar P.chart w steps) : leg steps = [] := by
  cases h with
  | done => rfl
  | step hnext =>
    cases hw.moves hP hnext with
    | backtrack => rfl
    | _ => cases hcur

/-- The steps of a leg until the next backtrack make up the phrase that it began in. -/
lemma InLeg.closes (hP : P.Complete) (hw : Fits P.grammar P.chart w) (h : InLeg P n j k R w)
    (hs : Steps P.grammar P.chart w steps) : Closes P.chart n j k R (leg steps) := by
  induction hs with
  | done hend =>
    obtain ⟨id, hid⟩ := h.exists_cursor
    rw [cursor_of_next_eq_none hend] at hid
    cases hid
  | @step w w' ev steps hnext hs ih =>
    have hm := hw.moves hP hnext
    obtain ⟨hj, hk⟩ := h.bounds hP hw
    obtain ⟨id, hid⟩ := h.exists_cursor
    obtain ⟨hkind, hcol⟩ := hm.event_of_cursor hid
    have hleg : leg (⟨w, ev, w'⟩ :: steps) = ⟨w, ev, w'⟩ :: leg steps :=
      List.takeWhile_cons_of_pos (by simpa using hkind)
    rw [hleg]
    rcases h.step hP hm with hends | ⟨hw', hstart⟩
    · rw [hs.leg_eq_nil hP (hm.fits hP hw) hends.2.2.2.2]
      exact .single hends (Nat.le_trans hj hk)
    · exact (ih (hm.fits hP hw) hw').cons (hcol ▸ ⟨hj, hk⟩)
        ⟨h.callers_suffix, hw'.callers_suffix⟩ hstart

/-- The walk fits before each of its steps. -/
lemma Steps.exists_fits (hP : P.Complete) {pre rest : List WalkStep}
    (h : Steps P.grammar P.chart w (pre ++ rest)) (hw : Fits P.grammar P.chart w) :
    ∃ w', Fits P.grammar P.chart w' ∧ Steps P.grammar P.chart w' rest := by
  induction pre generalizing w with
  | nil => exact ⟨w, hw, h⟩
  | cons s pre ih =>
    cases h with
    | step hnext hs => exact ih hs ((hw.moves hP hnext).fits hP hw)

lemma Reports.exists_steps {evs : List WalkEvent} (h : Reports G c w evs) :
    ∃ steps, Steps G c w steps := by
  induction h with
  | done h => exact ⟨[], .done h⟩
  | report h _ ih =>
    obtain ⟨steps, hs⟩ := ih
    exact ⟨_, .step h hs⟩

/-- The reports of a walk are those of its steps. -/
lemma Steps.events_eq (h : Steps G c w steps) (limit : Nat) :
    (events G c limit w).1 = (steps.take limit).map fun s => (s.event, s.after.depth) := by
  induction h generalizing limit with
  | done h =>
    cases limit with
    | zero => rfl
    | succ limit => simp [events, h]
  | step h _ ih =>
    cases limit with
    | zero => rfl
    | succ limit => simp [events, h, ih]

end Walk

/-- In the walk from the accepting entry of a recognized input the steps after any backtrack, until
the next one or the end of the walk, make up a phrase: that of the entry that the walk comes back to,
with the calls open around it that were open when the walk came by first. -/
theorem backtrack_closes {G : Grammar} {tokens : List Token} {start : NonTerminal}
    {rules : List RuleDecl} (hG : Grammar.build start rules = .ok G) {P : Parsing}
    (hP : (G.recognize tokens).result = .ok P) :
    ∃ w steps, Walk.startAt P.chart P.accepting = .ok w ∧ Walk.Steps G P.chart w steps ∧
      ∀ pre s post, steps = pre ++ s :: post → s.event.kind = .backtrack →
        ∃ b v n j, s.before.resumed? = some b ∧ s.event.entry = b.entry ∧
          P.chart.place? b.entry = some ⟨v, j, s.event.column⟩ ∧ G.headOf? v = some n ∧
          Walk.Closes P.chart n j s.event.column b.callers (Walk.leg post) := by
  obtain ⟨rfl, rfl, hc⟩ := complete_of_recognize (Grammar.closed_of_build hG) hP
  obtain ⟨hstart, hfits⟩ := Walk.startAt_fits (G := P.grammar) hc.accepting
  obtain ⟨evs, w', hr, hend, -⟩ := hfits.exists_runs hc
  obtain ⟨steps, hsteps⟩ := (hr.reports hc.filled.indexed hend).exists_steps
  refine ⟨_, steps, hstart, hsteps, ?_⟩
  rintro pre s post rfl hs
  obtain ⟨w, hw, hrest⟩ := hsteps.exists_fits hc hfits
  cases hrest with
  | step hnext hpost =>
    have hm := hw.moves hc hnext
    obtain ⟨b, v, n, j, hb, hentry, hx, hn, hleg⟩ := hm.begins hc hw hs
    exact ⟨b, v, n, j, hb, hentry, hx, hn, hleg.closes hc (hm.fits hc hw) hpost⟩

/-- A leg of the walk through the two derivations of three concatenated tokens. -/
theorem backtrack_closes_binaryConcat :
    Grammar.build ⟨"S"⟩ [Samples.rule "S" [[Samples.nt "S", Samples.nt "S"], [Samples.tm "a"]]]
        = .ok Samples.binaryConcat ∧
      ∃ P w pre s post,
        (Samples.binaryConcat.recognize [.plain "a", .plain "a", .plain "a"]).result = .ok P ∧
        Walk.startAt P.chart P.accepting = .ok w ∧
        Walk.Steps Samples.binaryConcat P.chart w (pre ++ s :: post) ∧
        s.event.kind = .backtrack ∧
        ∃ b n j, s.before.resumed? = some b ∧
          Walk.Closes P.chart n j s.event.column b.callers (Walk.leg post) := by
  have hbuild : Grammar.build ⟨"S"⟩
      [Samples.rule "S" [[Samples.nt "S", Samples.nt "S"], [Samples.tm "a"]]]
        = .ok Samples.binaryConcat := rfl
  have hrun : (Samples.binaryConcat.recognize [.plain "a", .plain "a", .plain "a"]).result
      |>.toOption.any fun P => (Walk.startAt P.chart P.accepting).toOption.any fun w =>
        (Walk.events Samples.binaryConcat P.chart 40 w).1.any fun r => r.1.kind == .backtrack := by
    decide +kernel
  obtain ⟨P, hP, hwalk⟩ := any_toOption_iff.1 hrun
  obtain ⟨w, hw, hevents⟩ := any_toOption_iff.1 hwalk
  obtain ⟨w', steps, hw', hsteps, hlegs⟩ := backtrack_closes hbuild hP
  obtain rfl : w = w' := Except.ok.inj (hw.symm.trans hw')
  rw [hsteps.events_eq, List.any_map, List.any_eq_true] at hevents
  obtain ⟨s, hs, hkind⟩ := hevents
  obtain ⟨pre, post, rfl⟩ := List.append_of_mem (List.mem_of_mem_take hs)
  have hback : s.event.kind = .backtrack := by simpa using hkind
  obtain ⟨b, v, n, j, hb, -, -, -, hcloses⟩ := hlegs pre s post rfl hback
  exact ⟨hbuild, P, w, pre, s, post, hP, hw, hsteps, hback, b, n, j, hb, hcloses⟩

end ParseForest
