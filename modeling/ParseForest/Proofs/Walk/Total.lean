import ParseForest.Proofs.Walk.Potential

/-!
# Walks are total

A walk can begin at any entry of the chart of a recognized input. The main statement, `walk_total`,
says that it then makes finitely many reports, each of an entry in the column that the report names,
and that asking it for more yields nothing, however often it is asked.
-/

namespace ParseForest

namespace Walk

/-! ### Asking a walk for its reports -/

section

variable (G : Grammar) (c : Chart)

/-- Asks a walk for its next report, and yields the walk to be asked after that. At its end a walk
has nothing to come back to. -/
def ask (w : Walk) : Except Fault (Option WalkEvent × Walk) :=
  match next G c w with
  | .error f => .error f
  | .ok none => .ok (none, { w with branches := [] })
  | .ok (some (ev, w')) => .ok (some ev, w')

/-- The answers of a walk that is asked `n` times. -/
def answers : (n : Nat) → Walk → Except Fault (List (Option WalkEvent))
  | 0, _ => .ok []
  | n + 1, w =>
    match ask G c w with
    | .error f => .error f
    | .ok (answer, w') => (answers n w').map (answer :: ·)

/-- A walk makes the given reports, in their order, and is then at its end. -/
inductive Reports : Walk → List WalkEvent → Prop where
  | done {w : Walk} (h : next G c w = .ok none) : Reports w []
  | report {w w' : Walk} {ev : WalkEvent} {evs : List WalkEvent}
      (h : next G c w = .ok (some (ev, w'))) (hr : Reports w' evs) : Reports w (ev :: evs)

end

variable {G : Grammar} {c : Chart} {w w' : Walk} {ev : WalkEvent} {evs : List WalkEvent}

/-- A walk at its end is at the end of a leg. -/
lemma cursor_of_next_eq_none (h : next G c w = .ok none) : w.cursor = none := by
  unfold next at h
  cases hcur : w.cursor with
  | none => rfl
  | some id =>
    rw [hcur] at h
    cases he : c.entries[id]? with
    | none => simp [he] at h
    | some e => cases hpass : pass G c w id e <;> simp [he, hpass, Except.map] at h

/-- A walk that has come to its end stays there. -/
lemma answers_of_done (h : next G c w = .ok none) (n : Nat) :
    answers G c n w = .ok (List.replicate n none) := by
  have hcur := cursor_of_next_eq_none h
  induction n generalizing w with
  | zero => rfl
  | succ n ih =>
    have hnext : next G c { w with branches := [] } = .ok none := by
      simp only [next, hcur, backtrack]
    simp only [answers, ask, h, ih hnext hcur, Except.map, List.replicate_succ]

/-- The answers of a walk are its reports, and nothing after them. -/
lemma Reports.answers_eq (h : Reports G c w evs) (n : Nat) :
    answers G c n w = .ok ((evs.map some ++ List.replicate n none).take n) := by
  induction h generalizing n with
  | done h => simp [answers_of_done h]
  | @report w w' ev evs h _ ih =>
    cases n with
    | zero => rfl
    | succ n =>
      have htake : (evs.map some ++ List.replicate (n + 1) none).take n
          = (evs.map some ++ List.replicate n none).take n := by
        simp [List.take_append, List.take_replicate]
        omega
      simp only [answers, ask, h, ih n, Except.map, List.map_cons, List.cons_append,
        List.take_succ_cons, htake]

/-! ### Reports of a walk that fits a parse -/

variable {P : Parsing}

/-- What is reported is an entry in the column that the report names. -/
lemma Moves.column_eq (h : Moves G c w ev w') (hw : Fits G c w) :
    ∃ e, c.entries[ev.entry]? = some e ∧ e.column = ev.column := by
  have entry : ∀ {id o k : Nat} {v : Vertex}, c.place? id = some ⟨v, o, k⟩ →
      ∃ e, c.entries[id]? = some e ∧ e.column = k := by
    intro id o k v hx
    obtain ⟨e, he, hp⟩ := Chart.place?_eq_some.1 hx
    simp only [Entry.place, Place.mk.injEq] at hp
    exact ⟨e, he, hp.2.2⟩
  cases h with
  | finish hx _ _ => exact entry hx
  | finishAgain hx _ _ => exact entry hx
  | start hx _ _ => exact entry hx
  | startAgain hx _ _ => exact entry hx
  | enter hx _ _ => exact entry hx
  | scan hx _ _ => exact entry hx
  | resume hx _ _ => exact entry hx
  | @backtrack k a fl vis untried cs b dead bs hdead hb =>
    obtain ⟨v, o, hx, -⟩ := (hw.branches b (by simp)).exists_place?
    exact entry hx

/-- The walk makes the given reports and is then the other walk. -/
inductive Runs (G : Grammar) (c : Chart) : Walk → List WalkEvent → Walk → Prop where
  | refl (w : Walk) : Runs G c w [] w
  | move {w w' w'' : Walk} {ev : WalkEvent} {evs : List WalkEvent} (hm : Moves G c w ev w')
      (hr : Runs G c w' evs w'') : Runs G c w (ev :: evs) w''

universe u v

/-- The reports that a handler takes are those of the walk. -/
lemma Feeds.exists_runs {σ : Type u} {ε : Type v} {handle : σ → WalkEvent → Except ε σ} {s s' : σ}
    (h : Feeds G c handle w s w' s') : ∃ evs, Runs G c w evs w' := by
  induction h with
  | refl => exact ⟨[], .refl _⟩
  | step hm _ _ ih =>
    obtain ⟨evs, hr⟩ := ih
    exact ⟨_, .move hm hr⟩

lemma Runs.reports (hc : c.Indexed) (h : Runs G c w evs w') (hend : next G c w' = .ok none) :
    Reports G c w evs := by
  induction h with
  | refl => exact .done hend
  | move hm _ ih => exact .report (hm.next_eq hc) (ih hend)

/-- A walk that fits a parse comes to its end, with no more reports than its potential. -/
lemma Fits.exists_runs (hP : P.Complete) {w : Walk} (hw : Fits P.grammar P.chart w) :
    ∃ evs w', Runs P.grammar P.chart w evs w' ∧ next P.grammar P.chart w' = .ok none ∧
      evs.length ≤ potential P.grammar P.chart w := by
  induction hn : potential P.grammar P.chart w using Nat.strongRecOn generalizing w with
  | _ n ih =>
    subst hn
    rcases next_cases hP hw with ⟨hend, -, -⟩ | ⟨ev, w', hm⟩
    · exact ⟨[], w, .refl w, hend, Nat.zero_le _⟩
    · have hlt := hm.potential_lt hP hw
      obtain ⟨evs, w'', hr, hend, hlen⟩ := ih _ hlt (hm.fits hP hw) rfl
      refine ⟨ev :: evs, w'', .move hm hr, hend, ?_⟩
      rw [List.length_cons]
      omega

lemma Runs.fits (hP : P.Complete) (h : Runs P.grammar P.chart w evs w')
    (hw : Fits P.grammar P.chart w) : Fits P.grammar P.chart w' := by
  induction h with
  | refl => exact hw
  | move hm _ ih => exact ih (hm.fits hP hw)

lemma Runs.column_eq (hP : P.Complete) (h : Runs P.grammar P.chart w evs w')
    (hw : Fits P.grammar P.chart w) :
    ∀ ev ∈ evs, ∃ e, P.chart.entries[ev.entry]? = some e ∧ e.column = ev.column := by
  induction h with
  | refl => simp
  | move hm _ ih =>
    intro ev hev
    rcases List.mem_cons.1 hev with rfl | hev
    · exact hm.column_eq hw
    · exact ih (hm.fits hP hw) ev hev

end Walk

/-- The walk from any entry of the chart of a recognized input is total. It makes finitely many
reports and nothing comes after them, however often it is asked; being asked never fails, and every
report names the column of its entry. -/
theorem walk_total {G : Grammar} {tokens : List Token} {start : NonTerminal}
    {rules : List RuleDecl} (hG : Grammar.build start rules = .ok G) {P : Parsing}
    (hP : (G.recognize tokens).result = .ok P) {id : Nat} (hid : id < P.chart.entries.size) :
    ∃ (w : Walk) (evs : List WalkEvent), Walk.startAt P.chart id = .ok w ∧
      evs.length ≤ Walk.bound G P.chart ∧
      (∀ n, Walk.answers G P.chart n w
        = .ok ((evs.map some ++ List.replicate n none).take n)) ∧
      ∀ ev ∈ evs, ∃ e, P.chart.entries[ev.entry]? = some e ∧ e.column = ev.column := by
  obtain ⟨rfl, rfl, hc⟩ := complete_of_recognize (Grammar.closed_of_build hG) hP
  obtain ⟨x, hx⟩ := Chart.exists_place? hid
  obtain ⟨hstart, hfits⟩ := Walk.startAt_fits (G := P.grammar) hx
  obtain ⟨evs, w', hr, hend, hlen⟩ := hfits.exists_runs hc
  exact ⟨_, evs, hstart, Nat.le_trans hlen (Walk.potential_startAt_le hc hx),
    (hr.reports hc.filled.indexed hend).answers_eq, hr.column_eq hc hfits⟩

/-- In the cyclic grammar the walk from the accepting entry ends, though the input has infinitely
many derivations. -/
theorem walk_total_cyclic :
    Grammar.build ⟨"A"⟩ [Samples.rule "A" [[Samples.nt "A"], [Samples.tm "a"]]]
        = .ok Samples.cyclic ∧
      ∃ P, (Samples.cyclic.recognize [.plain "a"]).result = .ok P ∧
        P.accepting < P.chart.entries.size ∧
        ∃ (w : Walk) (evs : List WalkEvent), Walk.startAt P.chart P.accepting = .ok w ∧
          ∀ n, Walk.answers Samples.cyclic P.chart n w
            = .ok ((evs.map some ++ List.replicate n none).take n) := by
  have hbuild : Grammar.build ⟨"A"⟩ [Samples.rule "A" [[Samples.nt "A"], [Samples.tm "a"]]]
      = .ok Samples.cyclic := rfl
  have hG := Grammar.closed_of_build hbuild
  obtain ⟨P, hP⟩ := exists_recognize_of_accepts hG accepts_cyclic
  have hid := Chart.lt_size_of_place? (complete_of_recognize hG hP).2.2.accepting
  obtain ⟨w, evs, hw, -, hall, -⟩ := walk_total hbuild hP hid
  exact ⟨hbuild, P, hP, hid, w, evs, hw, hall⟩

end ParseForest
