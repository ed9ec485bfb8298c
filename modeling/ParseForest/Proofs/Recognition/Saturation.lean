import ParseForest.Proofs.Recognition.Valid
import Mathlib.Data.List.Perm.Basic
import Mathlib.Data.List.ProdSigma

/-!
# Filling the columns of a chart

Recognition fills one column after the other, and a column by processing its entries in the order of
their creation. `Filling` is the invariant: what the entries processed so far lead to is recorded,
and nothing else is. Each processed entry keeps it (`Filling.process`), and so does reading a token
(`Filling.scan`). As a column holds a place only once, it is filled within its bound, and the main
statement, `advance_spec`, follows by induction on the input.
-/

namespace ParseForest

variable {G : Grammar} {w : List Token}

/-- The column is being filled: its entries are those numbered `start` and above, and the entries
below `next` are processed. -/
structure Filling (G : Grammar) (w : List Token) (column start next : Nat) (c : Chart) : Prop where
  indexed : c.Indexed
  deduped : c.Deduped
  columns_size : c.columns.size = w.length + 1
  column_le : column ≤ w.length
  /-- The entries of the columns before are processed. -/
  start_le : start ≤ next
  next_le : next ≤ c.entries.size
  /-- Entries below `start` belong to the columns before. -/
  earlier : ∀ id x, c.place? id = some x → id < start → x.column < column
  /-- The other entries belong to the column. -/
  current : ∀ id x, c.place? id = some x → start ≤ id → x.column = column
  valid : ∀ id x, c.place? id = some x → Valid G w x
  /-- What is recorded follows a rule. -/
  sound : ∀ a x, c.Records a x → Leads G w c.place? column a x
  /-- What the processed entries lead to is recorded. -/
  closed : ∀ a x, Leads G w (below next c.place?) column a x → c.Records a x
  initial : c.Holds ⟨.start G.start, 0, 0⟩

/-- The columns up to `column` are filled. -/
def Filled (G : Grammar) (w : List Token) (column : Nat) (c : Chart) : Prop :=
  ∃ start, Filling G w column start c.entries.size c

namespace Filling

variable {column start next : Nat} {c : Chart}

lemma itemsOf (h : Filling G w column start next c) : c.ItemsOf G := by
  intro id p dot o i hx
  cases h.valid _ _ hx with
  | item hp _ hm =>
    obtain ⟨ts, hts⟩ := hm
    exact hts.prod_of_item

lemma column_le_of_place? (h : Filling G w column start next c) {id : Nat} {x : Place}
    (hx : c.place? id = some x) : x.column ≤ column := by
  rcases Nat.lt_or_ge id start with hid | hid
  · exact Nat.le_of_lt (h.earlier _ _ hx hid)
  · exact Nat.le_of_eq (h.current _ _ hx hid)

lemma column_lt (h : Filling G w column start next c) : column < c.columns.size :=
  h.columns_size ▸ Nat.lt_succ_of_le h.column_le

/-- A token is followed by one more column. -/
lemma succ_lt (h : Filling G w column start next c) {t : Token} (ht : w[column]? = some t) :
    column + 1 < c.columns.size :=
  h.columns_size ▸ Nat.succ_lt_succ (List.getElem?_eq_some_iff.1 ht).1

lemma origin_le_of_place? (h : Filling G w column start next c) {id : Nat} {x : Place}
    (hx : c.place? id = some x) : x.origin ≤ column :=
  Nat.le_trans (h.valid _ _ hx).bounds.1 (h.column_le_of_place? hx)

/-! ### Processing an entry -/

/-- Processing the next entry keeps the invariant. -/
lemma process (h : Filling G w column start next c) (hnext : next < c.entries.size) :
    Filling G w column start (next + 1) (c.performAll (G.steps w c column next)) := by
  obtain ⟨⟨v, o, i⟩, hid⟩ := Chart.exists_place? hnext
  obtain rfl : i = column := h.current _ _ hid h.start_le
  have hcol := h.column_lt
  have hg := Chart.performAll_grows h.indexed h.deduped (G.steps w c i next)
    fun s hs => Chart.column_of_mem_steps hs ▸ hcol
  have hmono : ∀ id x, c.place? id = some x →
      (c.performAll (G.steps w c i next)).place? id = some x := fun _ _ => hg.keeps
  have hleads : ∀ s ∈ G.steps w c i next, s.isVetoed = false →
      Leads G w c.place? i s.source s.place := fun s hs hv =>
    Chart.leads_of_mem_steps h.indexed h.itemsOf hid hs hv
  refine ⟨hg.indexed, hg.deduped, hg.columns_size.trans h.columns_size, h.column_le,
    Nat.le_succ_of_le h.start_le, Nat.le_trans hnext hg.size_le, fun id x hx hlt => ?_,
    fun id x hx hle => ?_, fun id x hx => ?_, fun a x hx => ?_, fun a x hx => ?_, ?_⟩
  · rw [hg.place?_eq id (by have := h.start_le; omega)] at hx
    exact h.earlier id x hx hlt
  · rcases hg.place?_new id x hx with hx | ⟨-, s, hs, -, rfl⟩
    · exact h.current id x hx hle
    · exact Chart.column_of_mem_steps hs
  · rcases hg.place?_new id x hx with hx | ⟨-, s, hs, hv, rfl⟩
    · exact h.valid id x hx
    · exact Valid.of_leads (hleads s hs hv) h.valid
  · rcases (hg.records_iff a x).1 hx with hx | ⟨s, hs, hv, rfl, rfl⟩
    · exact (h.sound a x hx).mono hmono (Nat.le_refl _)
    · exact (hleads s hs hv).mono hmono (Nat.le_refl _)
  · have hold : Leads G w (below (next + 1) c.place?) i a x := by
      refine hx.mono (fun id y hy => ?_) (Nat.le_refl _)
      obtain ⟨hlt, hy⟩ := below_eq_some.1 hy
      exact below_eq_some.2 ⟨hlt, hg.place?_eq id (by omega) ▸ hy⟩
    rw [hg.records_iff]
    refine (Chart.leads_below_succ h.indexed (fun id y hy => ?_) hid hold).imp (h.closed a x) id
    exact ⟨(h.valid id y hy).bounds.1, h.column_le_of_place? hy⟩
  · obtain ⟨id, hx⟩ := h.initial
    exact ⟨id, hmono id _ hx⟩

/-! ### Reading a token -/

/-- Reading the token after a filled column begins the next column. -/
lemma scan (h : Filling G w column start c.entries.size c) {t : Token} (ht : w[column]? = some t) :
    Filling G w (column + 1) c.entries.size c.entries.size (c.performAll
      ((c.awaiting G (.terminal t.kind) column).filterMap fun id => c.scanStep? column id)) := by
  set steps := (c.awaiting G (.terminal t.kind) column).filterMap fun id => c.scanStep? column id
  have hlt : column < w.length := (List.getElem?_eq_some_iff.1 ht).1
  have hmem : ∀ s ∈ steps, ∃ id p dot j, c.place? id = some ⟨.item p dot, j, column⟩ ∧
      G.symbolAt? p dot = some (.terminal t.kind) ∧
      s = ⟨.scan, id, .item p (dot + 1), j, column + 1⟩ := fun s hs =>
    (Chart.mem_scanSteps_iff h.indexed).1 hs
  have hcol := h.succ_lt ht
  have hg := Chart.performAll_grows h.indexed h.deduped steps fun s hs => by
    obtain ⟨id, p, dot, j, -, -, rfl⟩ := hmem s hs
    exact hcol
  have hmono : ∀ id x, c.place? id = some x → (c.performAll steps).place? id = some x :=
    fun _ _ => hg.keeps
  have hleads : ∀ s ∈ steps, Leads G w c.place? (column + 1) s.source s.place := by
    intro s hs
    obtain ⟨id, p, dot, j, hx, hn, rfl⟩ := hmem s hs
    exact .scan hx hn ht (Nat.lt_succ_self _)
  refine ⟨hg.indexed, hg.deduped, hg.columns_size.trans h.columns_size, hlt, Nat.le_refl _,
    hg.size_le, fun id x hx hid => ?_, fun id x hx hid => ?_, fun id x hx => ?_,
    fun a x hx => ?_, fun a x hx => ?_, ?_⟩
  · rw [hg.place?_eq id hid] at hx
    exact Nat.lt_succ_of_le (h.column_le_of_place? hx)
  · rcases hg.place?_new id x hx with hx | ⟨-, s, hs, -, rfl⟩
    · exact absurd (Chart.lt_size_of_place? hx) (Nat.not_lt.2 hid)
    · obtain ⟨id, p, dot, j, -, -, rfl⟩ := hmem s hs
      rfl
  · rcases hg.place?_new id x hx with hx | ⟨-, s, hs, -, rfl⟩
    · exact h.valid id x hx
    · exact Valid.of_leads (hleads s hs) h.valid
  · rcases (hg.records_iff a x).1 hx with hx | ⟨s, hs, -, rfl, rfl⟩
    · exact (h.sound a x hx).mono hmono (Nat.le_succ _)
    · exact (hleads s hs).mono hmono (Nat.le_refl _)
  · have hold : Leads G w (below c.entries.size c.place?) (column + 1) a x := by
      refine hx.mono (fun id y hy => ?_) (Nat.le_refl _)
      obtain ⟨hid, hy⟩ := below_eq_some.1 hy
      exact below_eq_some.2 ⟨hid, hg.place?_eq id hid ▸ hy⟩
    rw [hg.records_iff]
    refine hold.of_read_succ.imp (h.closed a x) ?_
    rintro ⟨p, dot, j, t', ha, hn, ht', rfl⟩
    obtain rfl := Option.some.inj (ht.symm.trans ht')
    exact ⟨_, (Chart.mem_scanSteps_iff h.indexed).2
      ⟨a, p, dot, j, (below_eq_some.1 ha).2, hn, rfl⟩, rfl, rfl, rfl⟩
  · obtain ⟨id, hx⟩ := h.initial
    exact ⟨id, hmono id _ hx⟩

/-! ### The bound of a column -/

/-- The entries of the column are the last ones of the chart. -/
lemma ids_eq (h : Filling G w column start next c) :
    c.ids column = List.range' start (c.entries.size - start) := by
  have hcolumn : ∀ id, c.entries[id]?.any (·.column == column) = true ↔
      id < c.entries.size ∧ start ≤ id := by
    intro id
    rw [Option.any_eq_true]
    constructor
    · rintro ⟨e, he, hc⟩
      have hx := Chart.place?_eq_some.2 ⟨e, he, rfl⟩
      refine ⟨Chart.lt_size_of_place? hx, Nat.le_of_not_lt fun hid => ?_⟩
      exact absurd (h.earlier _ _ hx hid) (by simp [Entry.place, beq_iff_eq.1 hc])
    · rintro ⟨hlt, hid⟩
      obtain ⟨x, hx⟩ := Chart.exists_place? hlt
      obtain ⟨e, he, rfl⟩ := Chart.place?_eq_some.1 hx
      exact ⟨e, he, beq_iff_eq.2 (h.current _ _ hx hid)⟩
  have hsize : start ≤ c.entries.size := Nat.le_trans h.start_le h.next_le
  rw [h.indexed.ids_eq column h.column_lt, List.range_eq_range', ← Nat.add_sub_of_le hsize,
    ← List.range'_append_1, List.filter_append, Nat.zero_add, Nat.add_sub_cancel_left]
  have hbefore : ∀ id ∈ List.range' 0 start, ¬ c.entries[id]?.any (·.column == column) = true := by
    intro id hid
    rw [hcolumn]
    have := List.mem_range'_1.1 hid
    omega
  rw [List.filter_eq_nil_iff.2 hbefore, List.nil_append, List.filter_eq_self]
  intro id hid
  rw [hcolumn]
  have := List.mem_range'_1.1 hid
  omega

end Filling

/-- A column holds each vertex with each origin up to the column at most once. -/
lemma Chart.Indexed.length_ids_le {c : Chart} (h : c.Indexed) (hG : G.Closed)
    (hvalid : ∀ id x, c.place? id = some x → Valid G w x) (i : Nat) :
    (c.ids i).length ≤ G.columnBound i := by
  let keys := (c.ids i).filterMap fun id => (c.place? id).map fun x => (x.vertex, x.origin)
  have hlen : keys.length = (c.ids i).length := by
    rw [List.length_filterMap_eq_countP]
    refine List.countP_eq_length.2 fun id hid => ?_
    obtain ⟨v, o, hx⟩ := h.mem_ids_iff.1 hid
    simp [hx]
  have hnodup : keys.Nodup := by
    refine List.pairwise_filterMap.2 ((h.ids_pairwise i).imp_of_mem ?_)
    rintro a b ha hb hlt key ha' _ hb' rfl
    obtain ⟨v, o, hx⟩ := h.mem_ids_iff.1 ha
    obtain ⟨v', o', hy⟩ := h.mem_ids_iff.1 hb
    rw [hx, Option.map_some] at ha'
    rw [hy, Option.map_some, ← ha', Option.some.injEq, Prod.mk.injEq] at hb'
    obtain ⟨rfl, rfl⟩ := hb'
    exact absurd (h.place?_inj hx hy) (Nat.ne_of_lt hlt)
  have hsub : keys ⊆ G.vertices ×ˢ List.range (i + 1) := by
    intro key hkey
    obtain ⟨id, hid, hkey⟩ := List.mem_filterMap.1 hkey
    obtain ⟨v, o, hx⟩ := h.mem_ids_iff.1 hid
    rw [hx, Option.map_some, Option.some.injEq] at hkey
    subst hkey
    have hv := hvalid id _ hx
    exact List.mem_product.2 ⟨hv.vertex_mem hG, List.mem_range.2 (Nat.lt_succ_of_le hv.bounds.1)⟩
  have := (List.subperm_of_subset hnodup hsub).length_le
  rwa [hlen, List.length_product, List.length_range] at this

/-- So the entries of the column that is being filled are bounded. -/
lemma Filling.size_le {column start next : Nat} {c : Chart} (hG : G.Closed)
    (h : Filling G w column start next c) : c.entries.size ≤ start + G.columnBound column := by
  have := h.indexed.length_ids_le hG h.valid column
  rw [h.ids_eq, List.length_range'] at this
  omega

/-! ### Whole columns -/

/-- What is left of an input begins with the token of the column. -/
lemma getElem?_of_cons_eq_drop {column : Nat} {t : Token} {rest : List Token}
    (h : t :: rest = w.drop column) : w[column]? = some t := by
  rw [← List.head?_drop, ← h]
  rfl

@[simp] lemma Progress.chart_note (s : Progress) (e : Recognition.Event) :
    (s.note e).chart = s.chart := rfl

@[simp] lemma Progress.chart_foldl_perform (steps : List Step) (s : Progress) :
    (steps.foldl Progress.perform s).chart = s.chart.performAll steps := by
  induction steps generalizing s with
  | nil => rfl
  | cons step steps ih => exact ih _

/-- When a token has been read, its scans have been performed. -/
lemma Grammar.chart_of_read {column : Nat} {t : Token} {s s' : Progress}
    (h : G.read column t s = (s', none)) :
    s'.chart = s.chart.performAll
      ((s.chart.awaiting G (.terminal t.kind) column).filterMap fun id =>
        s.chart.scanStep? column id) := by
  rw [Grammar.read] at h
  cases hwaiting : s.chart.awaiting G (.terminal t.kind) column with
  | nil =>
    rw [hwaiting] at h
    cases h
  | cons id ids =>
    rw [hwaiting] at h
    cases h
    exact Progress.chart_foldl_perform _ _

/-- A token that no entry awaits leaves the chart as it is. -/
lemma Grammar.chart_of_read_error {column : Nat} {t : Token} {s s' : Progress} {e : ParseError}
    (h : G.read column t s = (s', some e)) : s'.chart = s.chart := by
  rw [Grammar.read] at h
  split at h
  · cases h
    rfl
  · cases h

/-- A parse has the chart that recognition concludes with. -/
lemma chart_of_conclude {P : Parsing} {s : Progress} (h : (G.conclude w s).2 = .ok P) :
    P.chart = s.chart := by
  rw [Grammar.conclude] at h
  cases hf : s.chart.find? (.finish G.start) 0 w.length with
  | some accepting =>
    rw [hf] at h
    cases h
    rfl
  | none =>
    rw [hf] at h
    cases hlast : w.getLast? with
    | none =>
      rw [hlast] at h
      cases h
    | some last =>
      rw [hlast] at h
      cases h

/-- What the processing of each entry keeps holds when all entries of a column are processed. -/
lemma saturate_induction (hG : G.Closed) {column start bound next : Nat} {s : Progress}
    {I : Nat → Progress → Prop}
    (hstep : ∀ {next s}, Filling G w column start next s.chart → next < s.chart.entries.size →
      I next s → I (next + 1) ((G.steps w s.chart column next).foldl Progress.perform s))
    (h : Filling G w column start next s.chart) (hI : I next s)
    (hb : start + G.columnBound column ≤ bound + next) :
    I (G.saturate w column bound next s).chart.entries.size (G.saturate w column bound next s) := by
  induction bound generalizing next s with
  | zero =>
    have hnext : next = s.chart.entries.size :=
      Nat.le_antisymm h.next_le (Nat.le_trans (h.size_le hG) (by omega))
    exact hnext ▸ hI
  | succ bound ih =>
    rw [Grammar.saturate]
    split
    · next hnext =>
      refine ih ?_ (hstep h hnext hI) (by omega)
      rw [Progress.chart_foldl_perform]
      exact h.process hnext
    · next hnext =>
      have hnext : next = s.chart.entries.size :=
        Nat.le_antisymm h.next_le (Nat.le_of_not_lt hnext)
      exact hnext ▸ hI

/-- Saturation processes all entries of a column. -/
lemma saturate_filled (hG : G.Closed) {column start bound next : Nat} {s : Progress}
    (h : Filling G w column start next s.chart)
    (hb : start + G.columnBound column ≤ bound + next) :
    Filling G w column start (G.saturate w column bound next s).chart.entries.size
      (G.saturate w column bound next s).chart := by
  refine saturate_induction (I := fun next s => Filling G w column start next s.chart) hG ?_ h h hb
  intro next s h hnext _
  rw [Progress.chart_foldl_perform]
  exact h.process hnext

lemma fill_filled (hG : G.Closed) {column start : Nat} {s : Progress}
    (h : Filling G w column start start s.chart) :
    Filling G w column start (G.fill w column start s).chart.entries.size
      (G.fill w column start s).chart :=
  saturate_filled hG h (Nat.le_of_eq (Nat.add_comm _ _))

/-- What filling a column and reading a token keep holds when recognition stops, wherever that is. -/
lemma advance_induction (hG : G.Closed) {I : Nat → Progress → Prop}
    (hfill : ∀ {column start s}, Filling G w column start start s.chart → I start s →
      I (G.fill w column start s).chart.entries.size (G.fill w column start s))
    (hread : ∀ {column start t s s' e}, Filling G w column start s.chart.entries.size s.chart →
      w[column]? = some t → I s.chart.entries.size s → G.read column t s = (s', e) →
      I s.chart.entries.size s')
    {rest : List Token} {column start : Nat} {s : Progress}
    (h : Filling G w column start start s.chart) (hrest : rest = w.drop column) (hI : I start s) :
    ∃ i, Filled G w i (G.advance w rest column start s).1.chart ∧
      I (G.advance w rest column start s).1.chart.entries.size
        (G.advance w rest column start s).1 := by
  induction rest generalizing column start s with
  | nil => exact ⟨column, ⟨start, fill_filled hG h⟩, hfill h hI⟩
  | cons t rest ih =>
    have ht := getElem?_of_cons_eq_drop hrest
    have hfilled := fill_filled hG h
    obtain ⟨s', e, hs'⟩ : ∃ s' e, G.read column t (G.fill w column start s) = (s', e) :=
      ⟨_, _, rfl⟩
    have hI' := hread hfilled ht (hfill h hI) hs'
    rw [Grammar.advance, hs']
    cases e with
    | some e =>
      have hchart := Grammar.chart_of_read_error hs'
      dsimp only
      rw [hchart]
      exact ⟨column, ⟨start, hfilled⟩, hI'⟩
    | none =>
      refine ih ?_ (by rw [← List.tail_drop, ← hrest]; rfl) hI'
      rw [Grammar.chart_of_read hs']
      exact hfilled.scan ht

/-! ### The first column -/

lemma initialChart_eq :
    G.initialChart w = ⟨#[⟨.start G.start, 0, 0, []⟩],
      (Array.replicate (w.length + 1) #[]).modify 0 (·.push 0)⟩ := by
  have hnone : (Chart.empty (w.length + 1)).find? (.start G.start) 0 0 = none :=
    (Chart.indexed_empty _).find?_eq_none.2 fun id e he => by simp [Chart.empty] at he
  rw [Grammar.initialChart, Chart.insert_of_find?_eq_none hnone]
  rfl

/-- Recognition begins with nothing processed. -/
lemma filling_initialChart : Filling G w 0 0 0 (G.initialChart w) := by
  have hplace : ∀ id x, (G.initialChart w).place? id = some x →
      x = ⟨.start G.start, 0, 0⟩ := by
    intro id x hx
    rw [initialChart_eq] at hx
    obtain ⟨e, he, rfl⟩ := Chart.place?_eq_some.1 hx
    have he := List.mem_of_getElem? (l := [_]) (by simpa using he)
    rw [List.mem_singleton.1 he]
    rfl
  have hentry : ∀ (id : Nat) (e : Entry), (G.initialChart w).entries[id]? = some e →
      e.antecedents = [] := by
    intro id e he
    rw [initialChart_eq] at he
    have he := List.mem_of_getElem? (l := [_]) (by simpa using he)
    rw [List.mem_singleton.1 he]
  refine ⟨(Chart.indexed_empty _).insert (by simp [Chart.empty]), fun id e he => ?_, ?_,
    Nat.zero_le _, Nat.le_refl _, Nat.zero_le _, fun id x _ hid => absurd hid (Nat.not_lt_zero _),
    fun id x hx _ => hplace id x hx ▸ rfl, fun id x hx => hplace id x hx ▸ .start .start,
    fun a x => ?_, fun a x hx => ?_, ⟨0, ?_⟩⟩
  · rw [hentry id e he]
    exact List.nodup_nil
  · simp [initialChart_eq]
  · rintro ⟨id, e, he, -, ha⟩
    rw [hentry id e he] at ha
    cases ha
  · have hnone : ∀ id, below 0 (G.initialChart w).place? id = none := fun id => by simp [below]
    cases hx <;> simp_all
  · simp [initialChart_eq, Chart.place?, Entry.place]

end ParseForest
