import ParseForest.Proofs.FlowGraph.Edges
import ParseForest.Proofs.Recognition.Saturation
import Mathlib.Logic.Relation

/-!
# Recognition with its expectations

Recognition expects a lot of what it meets: that entries are where they are looked up, that start
entries begin in their column, that a nonterminal has a start and a finish, that a nonterminal
returns into an item that expects one, that an entry which awaits a terminal has an edge that reads
it. Here recognition is a machine that tries each of these expectations and goes on without any
bound: it takes up the entries of a column one by one, for as long as there is another one in the
column, and then reads a token. `Machine.process_eq` says that no expectation fails when an entry is
taken up, and that what then happens are the steps from the entry.
-/

namespace ParseForest

/-- An expectation of recognition that has failed. -/
inductive Lapse where
  /-- The chart does not have an entry or does not take one, or there is no such production. -/
  | fault (f : Fault)
  /-- A start entry does not begin in its column. -/
  | startOutsideColumn (origin column : Nat)
  /-- A nonterminal has no start or no finish. -/
  | missingVertex (v : Vertex)
  /-- A nonterminal returns into an entry that does not expect one. -/
  | callerExpectsNothing (caller : Nat)
  /-- A nonterminal returns into an entry that is not an item. -/
  | callerIsNoItem (caller : Nat)
  /-- An entry that awaits a terminal has no edge that reads it. -/
  | missingScanEdge (id : Nat)

namespace Machine

variable (G : Grammar) (w : List Token)

/-! ### Entries -/

def entry (s : Progress) (id : Nat) : Except Lapse Entry :=
  match s.chart.entries[id]? with
  | some e => .ok e
  | none => .error (.fault .outOfBounds)

def vertex (v : Vertex) : Except Lapse Vertex :=
  if v ∈ G.vertices then .ok v else .error (.missingVertex v)

/-- Puts what a step reaches into the chart, unless the step is vetoed. -/
def perform (s : Progress) (step : Step) : Except Lapse Progress :=
  if step.isVetoed then
    .ok (s.note (.step step))
  else
    match s.chart.push step.vertex step.origin step.column (some step.source) with
    | .ok (chart, _) => .ok ⟨chart, s.events.push (.step step)⟩
    | .error f => .error (.fault f)

/-- Returns a completed nonterminal into the item of a caller. -/
def resume (column caller completed : Nat) (s : Progress) : Except Lapse Progress := do
  let call ← entry s caller
  let done ← entry s completed
  match G.resumeTarget? call.vertex with
  | none => throw (.callerExpectsNothing caller)
  | some target =>
    match call.vertex, G.headOf? done.vertex with
    | .item p dot, some callee =>
      match G.prod p with
      | .error f => throw (.fault f)
      | .ok prod =>
        let context := prod.context p dot callee call.origin done.origin column w
        perform s ⟨.resume ⟨caller, context, prod.verdict context⟩, completed, target, call.origin,
          column⟩
    | _, _ => throw (.callerIsNoItem caller)

/-- Takes up an entry of a column. -/
def process (column id : Nat) (s : Progress) : Except Lapse Progress := do
  let e ← entry s id
  match e.vertex with
  | .start n =>
    if e.origin = column then
      (G.epsilonTargets (.start n)).foldlM
        (fun s target => perform s ⟨.start, id, target, column, column⟩) s
    else
      throw (.startOutsideColumn e.origin column)
  | .finish n =>
    if e.origin < s.chart.columns.size then
      (s.chart.awaiting G (.nonterminal n) e.origin).foldlM
        (fun s caller => resume G w column caller id s) s
    else
      throw (.fault .outOfBounds)
  | .item p dot =>
    match G.prod p with
    | .error f => throw (.fault f)
    | .ok prod =>
      if G.isComplete (.item p dot) then do
        let finish ← vertex G (.finish prod.head)
        perform s ⟨.exit (.item p dot), id, finish, e.origin, column⟩
      else
        match G.next? (.item p dot) with
        | some (.nonterminal callee) => do
          let start ← vertex G (.start callee)
          let s ← perform s ⟨.call callee, id, start, column, column⟩
          let finish ← vertex G (.finish callee)
          -- An empty callee may have been completed in this column before the item came.
          match s.chart.find? finish column column with
          | some completed => resume G w column id completed s
          | none => pure s
        | _ => pure s

/-- Reads a terminal from an entry that awaits it. -/
def scan (column : Nat) (t : Terminal) (s : Progress) (id : Nat) : Except Lapse Progress := do
  let e ← entry s id
  match G.scanTarget? e.vertex t with
  | some target => perform s ⟨.scan, id, target, e.origin, column + 1⟩
  | none => throw (.missingScanEdge id)

/-! ### Columns -/

/-- Where recognition is: in which column, how many entries of it have been taken up, and what is
left to be read. -/
structure State where
  column : Nat
  taken : Nat
  rest : List Token
  progress : Progress

abbrev State.chart (σ : State) : Chart :=
  σ.progress.chart

def initial : Except Lapse State := do
  let start ← vertex G (.start G.start)
  match (Chart.empty (w.length + 1)).push start 0 0 none with
  | .ok (chart, _) => .ok ⟨0, 0, w, ⟨chart, #[]⟩⟩
  | .error f => throw (.fault f)

/-- Reads the next token, or looks whether the input is accepted, after all entries of the column
have been taken up. -/
def leave (column : Nat) (rest : List Token) (s : Progress) :
    Except Lapse (State ⊕ Recognition) := do
  let s := s.note (.filled column (s.chart.ids column).length)
  match rest with
  | [] =>
    let _ ← vertex G (.finish G.start)
    match G.conclude w s with
    | (s, result) => pure (.inr ⟨s.events.toList, result⟩)
  | t :: rest =>
    match s.chart.awaiting G (.terminal t.kind) column with
    | [] =>
      pure (.inr ⟨(s.note (.noneAwaits t.kind column)).events.toList,
        .error (.unexpectedToken column t (s.chart.expected G column))⟩)
    | waiting => do
      let s ← waiting.foldlM (scan G column t.kind) s
      pure (.inl ⟨column + 1, 0, rest, s⟩)

/-- Takes up the next entry of the column, or leaves the column. -/
def next (σ : State) : Except Lapse (State ⊕ Recognition) :=
  if σ.column < σ.chart.columns.size then
    match (σ.chart.ids σ.column)[σ.taken]? with
    | some id => do
      let s ← process G w σ.column id σ.progress
      pure (.inl { σ with taken := σ.taken + 1, progress := s })
    | none => leave G w σ.column σ.rest σ.progress
  else
    .error (.fault .outOfBounds)

/-- The machine goes from one state to another. -/
def Goes (σ σ' : State) : Prop :=
  next G w σ = .ok (.inl σ')

variable {G : Grammar} {w : List Token} {s : Progress} {c : Chart} {step : Step}
  {steps : List Step} {v : Vertex} {p dot o j m i id column caller completed : Nat}
  {prod : Production} {n n' : NonTerminal} {t : Terminal}

/-! ### Steps -/

lemma entry_of_place? (h : s.chart.place? id = some ⟨v, o, i⟩) :
    ∃ e, entry s id = .ok e ∧ e.vertex = v ∧ e.origin = o := by
  obtain ⟨e, he, hp⟩ := Chart.place?_eq_some.1 h
  simp only [Entry.place, Place.mk.injEq] at hp
  exact ⟨e, by rw [entry, he], hp.1, hp.2.1⟩

lemma vertex_eq (h : v ∈ G.vertices) : vertex G v = .ok v :=
  if_pos h

lemma prod_eq (hp : G.prods[p]? = some prod) : G.prod p = .ok prod := by
  rw [Grammar.prod, hp]

/-- The chart takes what the step puts into it. -/
structure Admits (c : Chart) (step : Step) : Prop where
  source_lt : step.source < c.entries.size
  origin_le : step.origin ≤ step.column
  column_lt : step.column < c.columns.size

lemma Admits.perform (h : Admits c step) (t : Step) : Admits (t.perform c) step := by
  unfold Step.perform
  split
  · exact h
  · refine ⟨Nat.lt_of_lt_of_le h.source_lt Chart.size_le_insert, h.origin_le, ?_⟩
    rw [Chart.insert_columns_size]
    exact h.column_lt

lemma perform_eq (h : Admits s.chart step) : perform s step = .ok (s.perform step) := by
  unfold perform Progress.perform Step.perform
  split
  · rfl
  · have hsource : ¬ s.chart.entries.size ≤ step.source := Nat.not_le.2 h.source_lt
    simp [Chart.push, hsource, Nat.not_lt.2 h.origin_le, h.column_lt]

lemma foldlM_perform (h : ∀ step ∈ steps, Admits s.chart step) :
    steps.foldlM perform s = .ok (steps.foldl Progress.perform s) := by
  induction steps generalizing s with
  | nil => rfl
  | cons step steps ih =>
    rw [List.foldlM_cons, perform_eq (h step List.mem_cons_self)]
    refine ih fun t ht => ?_
    exact (h t (List.mem_cons_of_mem _ ht)).perform step

/-- A return is the same after the chart has grown. -/
lemma resume_grown {s' : Progress} (hg : Chart.Grows s.chart steps s'.chart)
    (hb : s.chart.place? caller = some ⟨.item p dot, j, m⟩)
    (ha : s.chart.place? completed = some ⟨.finish n, o, i⟩)
    (hs : G.symbolAt? p dot = some (.nonterminal n')) (hj : j ≤ column)
    (hcol : column < s.chart.columns.size) :
    ∃ step, G.returnStep? w s.chart column caller completed = some step ∧ step.column = column ∧
      resume G w column caller completed s' = .ok (s'.perform step) := by
  obtain ⟨prod, hp, -⟩ := Option.bind_eq_some_iff.1 hs
  have ha' := hg.keeps ha
  have hb' := hg.keeps hb
  obtain ⟨call, hcall, hcv, rfl⟩ := entry_of_place? hb'
  obtain ⟨done, hdone, hdv, rfl⟩ := entry_of_place? ha'
  have htarget := Grammar.resumeTarget?_eq_some_iff.2 ⟨p, dot, n', hs, rfl, rfl⟩
  refine ⟨_, Chart.returnStep?_eq hb ha hp, rfl, ?_⟩
  refine Eq.trans ?_ (perform_eq ⟨Chart.lt_size_of_place? ha', hj, hg.columns_size ▸ hcol⟩)
  simp [resume, hcall, hdone, hcv, hdv, htarget, Grammar.headOf?, prod_eq hp, bind, Except.bind]

/-- Returning into callers one after the other performs the returns that the chart had at the
beginning: no return changes what the next one looks up. -/
lemma foldlM_resume {s' : Progress} {callers : List Nat}
    (hg : Chart.Grows s.chart steps s'.chart) (hcol : column < s.chart.columns.size)
    (ha : s.chart.place? completed = some ⟨.finish n, m, i⟩)
    (hcallers : ∀ caller ∈ callers, ∃ p dot j, s.chart.place? caller = some ⟨.item p dot, j, m⟩ ∧
      G.symbolAt? p dot = some (.nonterminal n) ∧ j ≤ column) :
    callers.foldlM (fun s caller => resume G w column caller completed s) s' =
      .ok ((callers.filterMap fun caller => G.returnStep? w s.chart column caller completed).foldl
        Progress.perform s') := by
  induction callers generalizing s' steps with
  | nil => rfl
  | cons caller callers ih =>
    obtain ⟨p, dot, j, hb, hs, hj⟩ := hcallers caller List.mem_cons_self
    obtain ⟨step, hstep, hc, hr⟩ := resume_grown hg hb ha hs hj hcol
    have hgrown : Chart.Grows s.chart (steps ++ [step]) (s'.perform step).chart :=
      hg.perform (hc ▸ hcol)
    rw [List.foldlM_cons, hr, List.filterMap_cons, hstep]
    refine ih hgrown fun caller hcaller => ?_
    exact hcallers caller (List.mem_cons_of_mem _ hcaller)

/-! ### Entries that are taken up -/

lemma isComplete_iff (hp : G.prods[p]? = some prod) :
    G.isComplete (.item p dot) = true ↔ prod.body.length = dot := by
  simp [Grammar.isComplete, hp]

lemma isComplete_eq_false {symbol : Symbol} (hp : G.prods[p]? = some prod)
    (hs : prod.body[dot]? = some symbol) : G.isComplete (.item p dot) = false := by
  rw [Bool.eq_false_iff, Ne, isComplete_iff hp]
  exact Nat.ne_of_gt (List.getElem?_eq_some_iff.1 hs).1

lemma process_start (h : s.chart.place? id = some ⟨.start n, column, column⟩)
    (hcol : column < s.chart.columns.size) :
    process G w column id s = .ok ((G.steps w s.chart column id).foldl Progress.perform s) := by
  obtain ⟨e, he, hv, rfl⟩ := entry_of_place? h
  rw [← foldlM_perform, Chart.steps_start h]
  · simp [process, he, hv, bind, Except.bind, List.foldlM_map]
  · rw [Chart.steps_start h]
    intro step hstep
    obtain ⟨p, -, rfl⟩ := List.mem_map.1 hstep
    exact ⟨Chart.lt_size_of_place? h, Nat.le_refl _, hcol⟩

lemma process_finish (hc : s.chart.Indexed) (hd : s.chart.Deduped)
    (h : s.chart.place? id = some ⟨.finish n, o, i⟩) (ho : o < s.chart.columns.size)
    (hcol : column < s.chart.columns.size)
    (horigin : ∀ id x, s.chart.place? id = some x → x.origin ≤ column) :
    process G w column id s = .ok ((G.steps w s.chart column id).foldl Progress.perform s) := by
  obtain ⟨e, he, hv, rfl⟩ := entry_of_place? h
  rw [Chart.steps_finish h, ← foldlM_resume (.refl hc hd) hcol h]
  · simp [process, he, hv, ho, bind, Except.bind]
  · intro caller hcaller
    obtain ⟨p, dot, j, hb, hs⟩ := hc.mem_awaiting_iff.1 hcaller
    exact ⟨p, dot, j, hb, hs, horigin _ _ hb⟩

/-- Looking up a finish is not affected by a call, which puts a start into the chart. -/
lemma find?_finish_of_grows_start (hc : c.Indexed) {c' : Chart} (hg : Chart.Grows c [step] c')
    (hstep : step.vertex = .start n) : c'.find? (.finish n') o i = c.find? (.finish n') o i := by
  refine Option.ext fun done => ?_
  rw [hg.indexed.find?_eq_some_iff, hc.find?_eq_some_iff]
  constructor
  · intro hdone
    rcases hg.place?_new _ _ hdone with hdone | ⟨-, s, hs, -, hplace⟩
    · exact hdone
    · obtain rfl := List.mem_singleton.1 hs
      cases hstep.symm.trans (congrArg Place.vertex hplace)
  · exact hg.keeps

section

variable (hG : G.Closed) (h : s.chart.place? id = some ⟨.item p dot, o, i⟩)
  (hp : G.prods[p]? = some prod)

include hG h hp

lemma process_exit (hdot : prod.body.length = dot) (ho : o ≤ column)
    (hcol : column < s.chart.columns.size) :
    process G w column id s = .ok ((G.steps w s.chart column id).foldl Progress.perform s) := by
  obtain ⟨e, he, hv, rfl⟩ := entry_of_place? h
  have hfinish := vertex_eq
    (Grammar.finish_mem_vertices.2 (hG.head_mem prod (List.mem_of_getElem? hp)))
  rw [Chart.steps_item h hp, List.getElem?_eq_none (Nat.le_of_eq hdot)]
  refine Eq.trans ?_ (perform_eq ⟨Chart.lt_size_of_place? h, ho, hcol⟩)
  simp [process, he, hv, prod_eq hp, (isComplete_iff hp).2 hdot, hfinish, bind, Except.bind]

lemma process_call (hc : s.chart.Indexed) (hd : s.chart.Deduped)
    (hs : prod.body[dot]? = some (.nonterminal n)) (ho : o ≤ column)
    (hcol : column < s.chart.columns.size) :
    process G w column id s = .ok ((G.steps w s.chart column id).foldl Progress.perform s) := by
  obtain ⟨e, he, hv, rfl⟩ := entry_of_place? h
  have hsymbol : G.next? (.item p dot) = some (.nonterminal n) := (Grammar.symbolAt?_eq hp).trans hs
  have hn := hG.body_mem prod (List.mem_of_getElem? hp) n (List.mem_of_getElem? hs)
  have hstart := vertex_eq (Grammar.start_mem_vertices.2 hn)
  have hfinish := vertex_eq (Grammar.finish_mem_vertices.2 hn)
  set call : Step := ⟨.call n, id, .start n, column, column⟩ with hcall
  have hperform : perform s call = .ok (s.perform call) :=
    perform_eq ⟨Chart.lt_size_of_place? h, Nat.le_refl _, hcol⟩
  have hg : Chart.Grows s.chart [call] (s.perform call).chart :=
    (Chart.Grows.refl hc hd).perform hcol
  have hprocess : process G w column id s =
      match s.chart.find? (.finish n) column column with
      | some completed => resume G w column id completed (s.perform call)
      | none => .ok (s.perform call) := by
    rw [← find?_finish_of_grows_start hc hg rfl]
    simp only [process, he, hv, prod_eq hp, isComplete_eq_false hp hs, hsymbol, hstart, hfinish,
      bind, Except.bind, ← hcall, hperform]
    rfl
  rw [hprocess, Chart.steps_item h hp, hs]
  dsimp only
  cases hf : s.chart.find? (.finish n) column column with
  | none => rfl
  | some done =>
    obtain ⟨step, hstep, -, hr⟩ :=
      resume_grown (w := w) hg h (hc.find?_eq_some_iff.1 hf) (Grammar.symbolAt?_eq hp ▸ hs) ho hcol
    dsimp only
    rw [hr, Option.bind_some, hstep]
    rfl

omit hG in
lemma process_terminal (hs : prod.body[dot]? = some (.terminal t)) :
    process G w column id s = .ok ((G.steps w s.chart column id).foldl Progress.perform s) := by
  obtain ⟨e, he, hv, rfl⟩ := entry_of_place? h
  have hsymbol : G.next? (.item p dot) = some (.terminal t) := (Grammar.symbolAt?_eq hp).trans hs
  rw [Chart.steps_item h hp, hs]
  simp [process, he, hv, prod_eq hp, isComplete_eq_false hp hs, hsymbol, bind, Except.bind, pure,
    Except.pure]

end

/-- No expectation fails when the next entry of a column is taken up, and what happens are the steps
from the entry. -/
lemma process_eq {start next : Nat} (hG : G.Closed) (h : Filling G w column start next s.chart)
    (hnext : next < s.chart.entries.size) :
    process G w column next s = .ok ((G.steps w s.chart column next).foldl Progress.perform s) := by
  obtain ⟨⟨v, o, i⟩, hid⟩ := Chart.exists_place? hnext
  obtain rfl : i = column := h.current _ _ hid h.start_le
  have hcol := h.column_lt
  have horigin : ∀ id x, s.chart.place? id = some x → x.origin ≤ i := fun _ _ =>
    h.origin_le_of_place?
  cases v with
  | start n =>
    obtain ⟨rfl, -⟩ := valid_start_iff.1 (h.valid _ _ hid)
    exact process_start hid hcol
  | finish n =>
    exact process_finish h.indexed h.deduped hid (Nat.lt_of_le_of_lt (horigin _ _ hid) hcol) hcol
      horigin
  | item p dot =>
    obtain ⟨prod, hp, hdot⟩ := h.itemsOf _ _ _ _ _ hid
    cases hs : prod.body[dot]? with
    | none =>
      have hdone := Nat.le_antisymm (List.getElem?_eq_none_iff.1 hs) hdot
      exact process_exit hG hid hp hdone (horigin _ _ hid) hcol
    | some symbol =>
      cases symbol with
      | terminal t => exact process_terminal hid hp hs
      | nonterminal n =>
        exact process_call hG hid hp h.indexed h.deduped hs (horigin _ _ hid) hcol

/-! ### Reading a token -/

/-- Scanning from entries that await a terminal performs their scans. -/
lemma foldlM_scan {s' : Progress} {ids : List Nat} (hc : s.chart.Indexed)
    (hg : Chart.Grows s.chart steps s'.chart) (hcol : column + 1 < s.chart.columns.size)
    (horigin : ∀ id x, s.chart.place? id = some x → x.origin ≤ column)
    (hids : ids ⊆ s.chart.awaiting G (.terminal t) column) :
    ids.foldlM (scan G column t) s' =
      .ok ((ids.filterMap fun id => s.chart.scanStep? column id).foldl Progress.perform s') := by
  induction ids generalizing s' steps with
  | nil => rfl
  | cons id ids ih =>
    obtain ⟨hid, hids⟩ := List.cons_subset.1 hids
    obtain ⟨p, dot, j, hx, hs⟩ := hc.mem_awaiting_iff.1 hid
    have hx' := hg.keeps hx
    obtain ⟨e, he, hv, rfl⟩ := entry_of_place? hx'
    let step : Step := ⟨.scan, id, .item p (dot + 1), e.origin, column + 1⟩
    have hadmits : Admits s'.chart step :=
      ⟨Chart.lt_size_of_place? hx', Nat.le_succ_of_le (horigin _ _ hx), hg.columns_size ▸ hcol⟩
    have hscan : scan G column t s' id = .ok (s'.perform step) := by
      simp only [scan, he, hv, Grammar.scanTarget?_eq hs, bind, Except.bind]
      exact perform_eq hadmits
    have hgrown : Chart.Grows s.chart (steps ++ [step]) (s'.perform step).chart := hg.perform hcol
    rw [List.foldlM_cons, hscan, List.filterMap_cons, Chart.scanStep?_eq hx]
    exact ih hgrown hids

end Machine

end ParseForest
