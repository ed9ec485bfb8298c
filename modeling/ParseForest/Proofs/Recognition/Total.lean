import ParseForest.Grammar.Samples
import ParseForest.Proofs.Recognition.Checked

/-!
# Recognition is total

The machine that tries all expectations of recognition never sees one fail, and it stops with the
outcome of recognition, `recognize_total`. The invariant of its run is that of filling a column,
with the entries taken up so far as the ones that are processed. Entries of a column differ in
vertex or origin, and the origin is not after the column, so there are only so many of them, however
often the steps from them lead back to each other.
-/

namespace ParseForest

namespace Machine

open Relation

variable {G : Grammar} {w rest : List Token} {s : Progress} {σ σ' : State} {t : Token}
  {start column : Nat}

/-- The entries of the column are those numbered `start` and above, and what has been taken up of
them is processed. -/
structure Stands (G : Grammar) (w : List Token) (start : Nat) (σ : State) : Prop where
  filling : Filling G w σ.column start (start + σ.taken) σ.chart
  rest_eq : σ.rest = w.drop σ.column

/-- All entries of the column have been taken up. -/
structure Full (G : Grammar) (w : List Token) (start : Nat) (σ : State) : Prop where
  stands : Stands G w start σ
  taken_eq : start + σ.taken = σ.chart.entries.size

lemma Full.filling (h : Full G w start σ) :
    Filling G w σ.column start σ.chart.entries.size σ.chart := by
  have hfilling := h.stands.filling
  rwa [h.taken_eq] at hfilling

/-! ### One move -/

lemma initial_eq (hG : G.Closed) : initial G w = .ok ⟨0, 0, w, ⟨G.initialChart w, #[]⟩⟩ := by
  have hstart := vertex_eq (Grammar.start_mem_vertices.2 hG.start_mem)
  simp [initial, hstart, Chart.push, Chart.empty, Grammar.initialChart, bind, Except.bind]

lemma stands_initial : Stands G w 0 ⟨0, 0, w, ⟨G.initialChart w, #[]⟩⟩ :=
  ⟨filling_initialChart, List.drop_zero.symm⟩

/-- As long as there is another entry in the column, the steps from it are performed. -/
lemma Stands.next_of_lt (hG : G.Closed) (h : Stands G w start σ)
    (hlt : start + σ.taken < σ.chart.entries.size) :
    next G w σ = .ok (.inl ⟨σ.column, σ.taken + 1, σ.rest,
      (G.steps w σ.chart σ.column (start + σ.taken)).foldl Progress.perform σ.progress⟩) := by
  have hid : (σ.chart.ids σ.column)[σ.taken]? = some (start + σ.taken) := by
    rw [h.filling.ids_eq, List.getElem?_range' (by omega), Nat.one_mul]
  have hprocess := process_eq hG h.filling hlt
  simp only [next, if_pos h.filling.column_lt, hid, hprocess, bind, Except.bind]
  rfl

lemma Stands.of_lt (h : Stands G w start σ) (hlt : start + σ.taken < σ.chart.entries.size) :
    Stands G w start ⟨σ.column, σ.taken + 1, σ.rest,
      (G.steps w σ.chart σ.column (start + σ.taken)).foldl Progress.perform σ.progress⟩ := by
  have hfilling := h.filling.process hlt
  rw [State.chart, ← Progress.chart_foldl_perform] at hfilling
  exact ⟨hfilling, h.rest_eq⟩

/-- When all entries of the column have been taken up, it is left. -/
lemma Full.next_eq (h : Full G w start σ) :
    next G w σ = leave G w σ.column σ.rest σ.progress := by
  have hid : (σ.chart.ids σ.column)[σ.taken]? = none := by
    rw [h.filling.ids_eq, List.getElem?_eq_none_iff, List.length_range', ← h.taken_eq]
    exact Nat.le_of_eq (Nat.add_sub_cancel_left _ _)
  simp only [next, if_pos h.filling.column_lt, hid]

/-- What recognition comes to after it has read on. -/
def outcome (G : Grammar) (w : List Token) : Progress × Option ParseError → Recognition
  | (s, some e) => ⟨s.events.toList, .error e⟩
  | (s, none) =>
    match G.conclude w s with
    | (s, result) => ⟨s.events.toList, result⟩

/-- Leaving the last column ends recognition. -/
lemma leave_nil (hG : G.Closed) :
    leave G w column [] s = .ok (.inr
      (outcome G w (s.note (.filled column (s.chart.ids column).length), none))) := by
  have hfinish := vertex_eq (Grammar.finish_mem_vertices.2 hG.start_mem)
  simp only [leave, hfinish, bind, Except.bind]
  rfl

/-- Leaving a filled column reads the next token. -/
lemma leave_cons (h : Filling G w column start s.chart.entries.size s.chart)
    (ht : w[column]? = some t) :
    leave G w column (t :: rest) s =
      match G.read column t (s.note (.filled column (s.chart.ids column).length)) with
      | (s, some e) => .ok (.inr ⟨s.events.toList, .error e⟩)
      | (s, none) => .ok (.inl ⟨column + 1, 0, rest, s⟩) := by
  have horigin : ∀ id x, s.chart.place? id = some x → x.origin ≤ column := fun _ _ =>
    h.origin_le_of_place?
  simp only [leave, Grammar.read, Progress.chart_note]
  cases hwaiting : s.chart.awaiting G (.terminal t.kind) column with
  | nil => rfl
  | cons id ids =>
    set s' := s.note (.filled column (s.chart.ids column).length)
    have hscan : (id :: ids).foldlM (scan G column t.kind) s' = _ :=
      foldlM_scan h.indexed (.refl h.indexed h.deduped) (h.succ_lt ht) horigin
        (hwaiting ▸ .refl _)
    simp only [hscan]
    rfl

/-! ### Whole columns -/

/-- The machine takes up all entries of a column. -/
lemma Stands.reaches_full (hG : G.Closed) {bound : Nat} (h : Stands G w start σ)
    (hb : start + G.columnBound σ.column ≤ bound + (start + σ.taken)) :
    ∃ taken, ReflTransGen (Goes G w) σ ⟨σ.column, taken, σ.rest,
        G.saturate w σ.column bound (start + σ.taken) σ.progress⟩ ∧
      Full G w start ⟨σ.column, taken, σ.rest,
        G.saturate w σ.column bound (start + σ.taken) σ.progress⟩ := by
  induction bound generalizing σ with
  | zero =>
    have hsize : σ.chart.entries.size ≤ start + σ.taken :=
      Nat.le_trans (h.filling.size_le hG) (by omega)
    exact ⟨σ.taken, .refl, h, Nat.le_antisymm h.filling.next_le hsize⟩
  | succ bound ih =>
    rw [Grammar.saturate]
    split
    · next hlt =>
      obtain ⟨taken, hreach, hfull⟩ := ih (h.of_lt hlt) (by dsimp only; omega)
      exact ⟨taken, .head (h.next_of_lt hG hlt) hreach, hfull⟩
    · next hlt =>
      exact ⟨σ.taken, .refl, h, Nat.le_antisymm h.filling.next_le (Nat.le_of_not_lt hlt)⟩

/-- When a token has been read, the next column is being filled. -/
lemma Stands.of_read (h : Filling G w column start s.chart.entries.size s.chart)
    (hrest : t :: rest = w.drop column) {s' : Progress} (hread : G.read column t s = (s', none)) :
    Stands G w s.chart.entries.size ⟨column + 1, 0, rest, s'⟩ := by
  refine ⟨?_, by rw [← List.tail_drop, ← hrest]; rfl⟩
  rw [State.chart, Grammar.chart_of_read hread]
  exact h.scan (getElem?_of_cons_eq_drop hrest)

/-- The machine fills the column and then stops with what reading on comes to. -/
lemma Stands.reaches_outcome (hG : G.Closed) (h : Stands G w start ⟨column, 0, rest, s⟩) :
    ∃ taken σ, ReflTransGen (Goes G w) ⟨column, 0, rest, s⟩
        ⟨column, taken, rest, G.saturate w column (G.columnBound column) start s⟩ ∧
      Full G w start ⟨column, taken, rest, G.saturate w column (G.columnBound column) start s⟩ ∧
      ReflTransGen (Goes G w)
        ⟨column, taken, rest, G.saturate w column (G.columnBound column) start s⟩ σ ∧
      next G w σ = .ok (.inr (outcome G w (G.advance w rest column start s))) := by
  induction rest generalizing column start s with
  | nil =>
    obtain ⟨taken, hreach, hfull⟩ := h.reaches_full hG (Nat.le_of_eq (Nat.add_comm _ _))
    have hstop := hfull.next_eq
    rw [leave_nil hG] at hstop
    exact ⟨taken, _, hreach, hfull, .refl, hstop⟩
  | cons t rest ih =>
    obtain ⟨taken, hreach, hfull⟩ := h.reaches_full hG (Nat.le_of_eq (Nat.add_comm _ _))
    obtain ⟨s', e, hread⟩ : ∃ s' e, G.read column t (G.fill w column start s) = (s', e) :=
      ⟨_, _, rfl⟩
    have hnext : next G w ⟨column, taken, t :: rest, _⟩ =
        match G.read column t (G.fill w column start s) with
        | (s, some e) => .ok (.inr ⟨s.events.toList, .error e⟩)
        | (s, none) => .ok (.inl ⟨column + 1, 0, rest, s⟩) :=
      hfull.next_eq.trans (leave_cons hfull.filling (getElem?_of_cons_eq_drop h.rest_eq))
    rw [hread] at hnext
    rw [Grammar.advance]
    simp only [hread]
    refine ⟨taken, ?_⟩
    cases e with
    | some e => exact ⟨_, hreach, hfull, .refl, hnext⟩
    | none =>
      obtain ⟨_, σ, hσ, -, hσ', hout⟩ := ih
        (Stands.of_read (s := G.fill w column start s) hfull.filling h.rest_eq hread)
      exact ⟨σ, hreach, hfull, .head hnext (hσ.trans hσ'), hout⟩

/-! ### All states of a run -/

/-- What a move does: it performs the steps from an entry of the column, or it performs scans into
the next column after all entries of the column have been taken up. -/
inductive Moved (G : Grammar) (w : List Token) (start : Nat) (σ σ' : State) : Prop where
  | taken (steps : List Step) (hlt : start + σ.taken < σ.chart.entries.size)
      (hcolumn : σ'.column = σ.column) (hchart : σ'.chart = σ.chart.performAll steps)
      (hsteps : ∀ step ∈ steps, step.column = σ.column) (h : Stands G w start σ')
  | read (steps : List Step) (hfull : Full G w start σ)
      (hcolumn : σ'.column = σ.column + 1) (hchart : σ'.chart = σ.chart.performAll steps)
      (hsteps : ∀ step ∈ steps, step.column = σ.column + 1)
      (h : Stands G w σ.chart.entries.size σ')

/-- The machine moves or it stops, and if it accepts then with the chart it has. -/
lemma Stands.next_cases (hG : G.Closed) (h : Stands G w start σ) :
    (∃ σ', next G w σ = .ok (.inl σ') ∧ Moved G w start σ σ') ∨
      ∃ r, next G w σ = .ok (.inr r) ∧ ∀ P, r.result = .ok P → P.chart = σ.chart := by
  rcases Nat.lt_or_eq_of_le h.filling.next_le with hlt | heq
  · refine Or.inl ⟨_, h.next_of_lt hG hlt, ?_⟩
    exact .taken _ hlt rfl (Progress.chart_foldl_perform _ _)
      (fun step hstep => Chart.column_of_mem_steps hstep) (h.of_lt hlt)
  · have hfull : Full G w start σ := ⟨h, heq⟩
    have hfilling := hfull.filling
    rw [hfull.next_eq]
    obtain ⟨column, taken, rest, s⟩ := σ
    cases rest with
    | nil =>
      rw [leave_nil hG]
      exact Or.inr ⟨_, rfl, fun P => chart_of_conclude (s := s.note _)⟩
    | cons t rest =>
      rw [leave_cons hfilling (getElem?_of_cons_eq_drop h.rest_eq)]
      cases hread : G.read column t (s.note (.filled column (s.chart.ids column).length)) with
      | mk s' e =>
        cases e with
        | some e =>
          refine Or.inr ⟨_, rfl, fun P hP => ?_⟩
          cases hP
        | none =>
          have hchart := Grammar.chart_of_read hread
          rw [Progress.chart_note] at hchart
          have hstands := Stands.of_read (s := s.note _) hfilling h.rest_eq hread
          refine Or.inl ⟨_, rfl, .read _ hfull rfl hchart (fun step hstep => ?_) hstands⟩
          obtain ⟨id, p, dot, j, -, -, rfl⟩ :=
            (Chart.mem_scanSteps_iff h.filling.indexed).1 hstep
          rfl

/-- A run keeps the invariant. -/
lemma Stands.of_reaches (hG : G.Closed) (h : Stands G w start σ)
    (hreach : ReflTransGen (Goes G w) σ σ') : ∃ start', Stands G w start' σ' := by
  induction hreach with
  | refl => exact ⟨start, h⟩
  | tail _ hgoes ih =>
    obtain ⟨start', h'⟩ := ih
    rcases h'.next_cases hG with ⟨σ'', hnext, hmoved⟩ | ⟨r, hstop, -⟩
    · cases hnext.symm.trans hgoes
      cases hmoved with
      | taken _ _ _ _ _ h => exact ⟨_, h⟩
      | read _ _ _ _ _ h => exact ⟨_, h⟩
    · cases hstop.symm.trans hgoes

end Machine

open Relation in
/-- Recognition is total: with all its expectations tried and without any bound on its loops, it
begins, it stops with the outcome of recognition, and on the way no expectation fails. A column
never holds more entries than there are vertices with origins up to the column, and the starts and
the first items in it begin where they are. -/
theorem recognize_total {G : Grammar} {start : NonTerminal} {rules : List RuleDecl}
    (hG : Grammar.build start rules = .ok G) (tokens : List Token) :
    ∃ σ₀, Machine.initial G tokens = .ok σ₀ ∧
      (∃ σ, ReflTransGen (Machine.Goes G tokens) σ₀ σ ∧
        Machine.next G tokens σ = .ok (.inr (G.recognize tokens))) ∧
      ∀ σ, ReflTransGen (Machine.Goes G tokens) σ₀ σ →
        (∀ lapse, Machine.next G tokens σ ≠ .error lapse) ∧
        ∀ i, (σ.chart.ids i).length ≤ G.vertices.length * (i + 1) ∧
          ∀ id ∈ σ.chart.ids i, ∃ e, σ.chart.entries[id]? = some e ∧ e.column = i ∧ e.origin ≤ i ∧
            ((∃ n, e.vertex = .start n) ∨ (∃ p, e.vertex = .item p 0) → e.origin = i) := by
  have hclosed := Grammar.closed_of_build hG
  refine ⟨_, Machine.initial_eq hclosed, ?_, fun σ hreach => ?_⟩
  · obtain ⟨_, σ, hfill, -, hreach, hstop⟩ := Machine.stands_initial.reaches_outcome hclosed
    exact ⟨σ, hfill.trans hreach, hstop⟩
  · obtain ⟨start, h⟩ := Machine.stands_initial.of_reaches hclosed hreach
    refine ⟨fun lapse hlapse => ?_, fun i => ⟨?_, fun id hid => ?_⟩⟩
    · rcases h.next_cases hclosed with ⟨σ', hnext, -⟩ | ⟨r, hnext, -⟩ <;>
        cases hnext.symm.trans hlapse
    · exact h.filling.indexed.length_ids_le hclosed h.filling.valid i
    · obtain ⟨v, o, hx⟩ := h.filling.indexed.mem_ids_iff.1 hid
      have hvalid := h.filling.valid id _ hx
      obtain ⟨e, he, hp⟩ := Chart.place?_eq_some.1 hx
      simp only [Entry.place, Place.mk.injEq] at hp
      obtain ⟨rfl, rfl, rfl⟩ := hp
      refine ⟨e, he, rfl, hvalid.bounds.1, ?_⟩
      rintro (⟨n, hn⟩ | ⟨p, hp⟩)
      · rw [hn] at hvalid
        exact (valid_start_iff.1 hvalid).1
      · rw [hp] at hvalid
        exact hvalid.origin_eq_of_item_zero

/-- The rules `S => a | ε | S S S` lead from every phrase to itself in many ways. Recognition of two
tokens stops all the same, with no more than 27 entries in the last column. -/
theorem recognize_total_tripleConcat :
    Grammar.build ⟨"S"⟩ [Samples.rule "S"
        [[Samples.tm "a"], [], [Samples.nt "S", Samples.nt "S", Samples.nt "S"]]] =
        .ok Samples.tripleConcat ∧
      ∃ σ₀ σ, Machine.initial Samples.tripleConcat [.plain "a", .plain "a"] = .ok σ₀ ∧
        Relation.ReflTransGen (Machine.Goes Samples.tripleConcat [.plain "a", .plain "a"]) σ₀ σ ∧
        Machine.next Samples.tripleConcat [.plain "a", .plain "a"] σ =
          .ok (.inr (Samples.tripleConcat.recognize [.plain "a", .plain "a"])) ∧
        (σ.chart.ids 2).length ≤ 27 := by
  have hbuild : Grammar.build ⟨"S"⟩ [Samples.rule "S"
      [[Samples.tm "a"], [], [Samples.nt "S", Samples.nt "S", Samples.nt "S"]]] =
        .ok Samples.tripleConcat := rfl
  obtain ⟨σ₀, h₀, ⟨σ, hreach, hstop⟩, hall⟩ := recognize_total hbuild [.plain "a", .plain "a"]
  obtain ⟨-, hcolumns⟩ := hall σ hreach
  have hvertices : Samples.tripleConcat.vertices.length = 9 := by decide
  have hlast := (hcolumns 2).1
  rw [hvertices] at hlast
  exact ⟨hbuild, σ₀, σ, h₀, hreach, hstop, hlast⟩

end ParseForest
