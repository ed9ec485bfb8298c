import ParseForest.Grammar.Samples
import ParseForest.Proofs.Chart.Files
import Mathlib.Data.List.MinMax

/-!
# Charts as records of pushes

Whatever is pushed into an empty chart, in whichever order, the chart is a record of the pushes: its
entries are the places that were pushed, numbered in the order of their first push, and each has the
antecedents that it was pushed for, in the order of their first push (`Chart.RecordOf`). Each push
keeps that, and what the columns and their files say follows from it. The main statement is
`push_faithful`.
-/

namespace ParseForest

/-! ### First occurrences -/

lemma eraseDups_concat {α : Type} [DecidableEq α] (l : List α) (a : α) :
    (l ++ [a]).eraseDups = if a ∈ l then l.eraseDups else l.eraseDups ++ [a] := by
  rw [List.eraseDups_append]
  split
  · next h => simp [List.removeAll, h]
  · next h => simp [List.removeAll, h, List.eraseDups_cons]

lemma nodup_eraseDups {α : Type} [DecidableEq α] (l : List α) : l.eraseDups.Nodup := by
  induction l using List.reverseRecOn with
  | nil => simp
  | append_singleton l a ih =>
    rw [eraseDups_concat]
    split
    · exact ih
    · next h => simpa [List.nodup_append, ih] using fun b hb => ne_of_mem_of_not_mem hb h

/-- The last number below a bound that passes a test is the greatest that does. -/
lemma find?_reverse_range {test : Nat → Bool} {l : List Nat} {n : Nat} (hn : ∀ i ∈ l, i < n)
    (htest : ∀ i, test i = true ↔ i ∈ l) : (List.range n).reverse.find? test = l.max? := by
  cases hmax : l.max? with
  | none =>
    obtain rfl := List.max?_eq_none_iff.1 hmax
    exact List.find?_eq_none.2 fun i _ hi => List.not_mem_nil ((htest i).1 hi)
  | some m =>
    obtain ⟨hm, hle⟩ := List.max?_eq_some_iff.1 hmax
    obtain ⟨k, rfl⟩ := Nat.exists_eq_add_of_lt (hn m hm)
    rw [List.find?_eq_some_iff_append]
    refine ⟨(htest m).2 hm, ((List.range k).map (m + 1 + ·)).reverse, (List.range m).reverse, ?_, ?_⟩
    · rw [Nat.add_right_comm, List.range_add, List.range_succ]
      simp
    · intro i hi
      obtain ⟨j, -, rfl⟩ : ∃ j < k, m + 1 + j = i := by simpa using hi
      rw [Bool.not_eq_true', ← Bool.not_eq_true, htest]
      intro hmem
      have := hle _ hmem
      omega

/-! ### Pushing one after another -/

namespace Entry

variable {e : Entry} {antecedent : Option Nat}

lemma antecedents_addAntecedent (e : Entry) (a : Nat) :
    (e.addAntecedent a).antecedents =
      if a ∈ e.antecedents then e.antecedents else e.antecedents ++ [a] := by
  unfold addAntecedent
  split <;> rfl

lemma antecedents_gain_prefix : e.antecedents <+: (e.gain antecedent).antecedents := by
  cases antecedent with
  | none => exact List.prefix_refl _
  | some a =>
    rw [gain, Option.elim_some, antecedents_addAntecedent]
    split
    · exact List.prefix_refl _
    · exact List.prefix_append _ _

end Entry

namespace Push

def place (p : Push) : Place := ⟨p.vertex, p.origin, p.column⟩

/-- The antecedents that a place was pushed for, in the order of their first push. -/
def antecedentsOf (ps : List Push) (x : Place) : List Nat :=
  ((ps.filter fun p => p.place = x).filterMap Push.antecedent).eraseDups

/-- What may be pushed into a chart with so many entries and columns. -/
def Fits (p : Push) (entries columns : Nat) : Prop :=
  (∀ a ∈ p.antecedent, a < entries) ∧ p.origin ≤ p.column ∧ p.column < columns

variable {ps : List Push} {p : Push} {x : Place}

lemma antecedentsOf_concat_of_ne (h : p.place ≠ x) :
    antecedentsOf (ps ++ [p]) x = antecedentsOf ps x := by
  simp [antecedentsOf, h]

/-- One more push for a place gains an entry what it gains the place. -/
lemma antecedents_gain {e : Entry} (h : e.antecedents = antecedentsOf ps p.place) :
    (e.gain p.antecedent).antecedents = antecedentsOf (ps ++ [p]) p.place := by
  have hself : [p].filter (fun q => q.place = p.place) = [p] := by simp
  unfold antecedentsOf at h ⊢
  rw [List.filter_append, List.filterMap_append, hself]
  cases hant : p.antecedent with
  | none => simp [Entry.gain, hant, h]
  | some a =>
    rw [Entry.gain, Option.elim_some, Entry.antecedents_addAntecedent, h,
      List.filterMap_cons_some hant, List.filterMap_nil, eraseDups_concat]
    exact if_congr List.mem_eraseDups rfl rfl

lemma antecedentsOf_eq_nil (h : x ∉ ps.map place) : antecedentsOf ps x = [] := by
  have hfilter : ps.filter (fun p => p.place = x) = [] :=
    List.filter_eq_nil_iff.2 fun p hp hx => h (List.mem_map.2 ⟨p, hp, by simpa using hx⟩)
  simp [antecedentsOf, hfilter]

end Push

/-- Pushes one after another, until one fails. -/
def Chart.pushAll (c : Chart) (ps : List Push) : Except Fault Chart :=
  ps.foldlM (fun c p => (c.push p.vertex p.origin p.column p.antecedent).map (·.1)) c

/-- Pushes one after another, until one fails. -/
def FiledChart.pushAll (G : Grammar) (c : FiledChart) (ps : List Push) :
    Except Fault FiledChart :=
  ps.foldlM (fun c p => (c.push G p).map (·.1)) c

lemma Chart.pushAll_concat {c : Chart} {ps : List Push} {p : Push} :
    c.pushAll (ps ++ [p]) =
      (c.pushAll ps).bind fun c =>
        (c.push p.vertex p.origin p.column p.antecedent).map (·.1) := by
  simp only [pushAll, List.foldlM_append, List.foldlM_cons, List.foldlM_nil, bind_pure]
  rfl

lemma FiledChart.pushAll_concat {G : Grammar} {c : FiledChart} {ps : List Push} {p : Push} :
    c.pushAll G (ps ++ [p]) = (c.pushAll G ps).bind fun c => (c.push G p).map (·.1) := by
  simp only [pushAll, List.foldlM_append, List.foldlM_cons, List.foldlM_nil, bind_pure]
  rfl

/-! ### The record that a chart is -/

namespace Chart

/-- The entries are what was pushed, in the order of the first push of each. -/
structure RecordOf (n : Nat) (ps : List Push) (c : Chart) : Prop where
  indexed : c.Indexed
  columns_size : c.columns.size = n
  places_eq : c.entries.toList.map Entry.place = (ps.map Push.place).eraseDups
  antecedents_eq : ∀ e ∈ c.entries, e.antecedents = Push.antecedentsOf ps e.place

lemma Indexed.ids_eq_filter {c : Chart} (h : c.Indexed) (i : Nat) :
    c.ids i = (List.range c.entries.size).filter fun id => c.entries[id]?.any (·.column == i) := by
  rcases Nat.lt_or_ge i c.columns.size with hi | hi
  · exact h.ids_eq i hi
  · rw [ids_of_le hi, eq_comm, List.filter_eq_nil_iff]
    intro id _ hid
    obtain ⟨e, he, hcol⟩ := (Option.any_eq_true _ _).1 hid
    have hlt := h.column_lt id e he
    rw [beq_iff_eq.1 hcol] at hlt
    exact Nat.not_le.2 hlt hi

lemma vertexOf?_of_place? {c : Chart} {id : Nat} {x : Place} (h : c.place? id = some x) :
    c.vertexOf? id = some x.vertex := by
  obtain ⟨e, he, rfl⟩ := place?_eq_some.1 h
  rw [vertexOf?, he]
  rfl

namespace RecordOf

variable {n id : Nat} {ps : List Push} {p : Push} {c : Chart} {x : Place}

lemma empty (n : Nat) : RecordOf n [] (.empty n) where
  indexed := indexed_empty n
  columns_size := by simp [Chart.empty]
  places_eq := by simp [Chart.empty]
  antecedents_eq e he := by simp [Chart.empty] at he

lemma place?_eq (h : RecordOf n ps c) (id : Nat) :
    c.place? id = (ps.map Push.place).eraseDups[id]? := by
  rw [← h.places_eq, List.getElem?_map, Array.getElem?_toList, place?]

lemma holds_iff (h : RecordOf n ps c) : c.Holds x ↔ x ∈ ps.map Push.place := by
  rw [← List.mem_eraseDups, List.mem_iff_getElem?]
  exact exists_congr fun id => by rw [h.place?_eq]

lemma find?_eq_none_iff (h : RecordOf n ps c) :
    c.find? p.vertex p.origin p.column = none ↔ p.place ∉ ps.map Push.place := by
  rw [h.indexed.find?_eq_none_iff, h.holds_iff]
  rfl

/-- A place that is new has the antecedent that it is first pushed for. -/
lemma insert_of_not_mem (h : RecordOf n ps c) (hp : p.column < n)
    (hnew : p.place ∉ ps.map Push.place) :
    RecordOf n (ps ++ [p]) (c.insert p.vertex p.origin p.column p.antecedent).1 := by
  have hf := h.find?_eq_none_iff.2 hnew
  constructor
  · exact h.indexed.insert (h.columns_size ▸ hp)
  · exact insert_columns_size.trans h.columns_size
  · rw [insert_of_find?_eq_none hf, List.map_append, List.map_singleton, eraseDups_concat,
      if_neg hnew, ← h.places_eq]
    simp [Entry.place, Push.place]
  · intro e he
    rw [insert_of_find?_eq_none hf, Array.mem_push] at he
    rcases he with he | rfl
    · have hne : p.place ≠ e.place := by
        rintro heq
        apply hnew
        rw [heq, ← List.mem_eraseDups, ← h.places_eq]
        exact List.mem_map_of_mem he.val
      rw [Push.antecedentsOf_concat_of_ne hne, h.antecedents_eq e he]
    · let bare : Entry := ⟨p.vertex, p.origin, p.column, []⟩
      have hbare : bare.antecedents = Push.antecedentsOf ps p.place :=
        (Push.antecedentsOf_eq_nil hnew).symm
      show p.antecedent.toList = Push.antecedentsOf (ps ++ [p]) p.place
      rw [← Push.antecedents_gain hbare]
      cases p.antecedent <;> rfl

/-- A place that was pushed before gains the antecedent, unless it has it. -/
lemma insert_of_mem (h : RecordOf n ps c) (hp : p.column < n) (hold : p.place ∈ ps.map Push.place) :
    RecordOf n (ps ++ [p]) (c.insert p.vertex p.origin p.column p.antecedent).1 := by
  cases hf : c.find? p.vertex p.origin p.column with
  | none => exact absurd hold (h.find?_eq_none_iff.1 hf)
  | some j =>
    have hj : c.place? j = some p.place := h.indexed.find?_eq_some_iff.1 hf
    constructor
    · exact h.indexed.insert (h.columns_size ▸ hp)
    · exact insert_columns_size.trans h.columns_size
    · rw [List.map_append, List.map_singleton, eraseDups_concat, if_pos hold, ← h.places_eq]
      apply List.ext_getElem?
      intro id
      rw [List.getElem?_map, List.getElem?_map]
      simpa [place?] using place?_insert_of_find?_eq_some hf id
    · intro e' he'
      obtain ⟨id, hid⟩ := Array.mem_iff_getElem?.1 he'
      rw [getElem?_insert_of_find?_eq_some hf] at hid
      obtain ⟨e, he, rfl⟩ := Option.map_eq_some_iff.1 hid
      have hants := h.antecedents_eq e (Array.mem_of_getElem? he)
      have hplace : c.place? id = some e.place := place?_eq_some.2 ⟨e, he, rfl⟩
      by_cases hid : j = id
      · subst hid
        have heq : e.place = p.place := Option.some.inj (hplace.symm.trans hj)
        rw [heq] at hants
        rw [if_pos rfl, Entry.place_gain, heq, Push.antecedents_gain hants]
      · have hne : p.place ≠ e.place := by
          intro heq
          apply hid
          exact h.indexed.place?_inj hj (heq ▸ hplace)
        rw [if_neg hid, Push.antecedentsOf_concat_of_ne hne, hants]

lemma insert (h : RecordOf n ps c) (hp : p.column < n) :
    RecordOf n (ps ++ [p]) (c.insert p.vertex p.origin p.column p.antecedent).1 := by
  by_cases hmem : p.place ∈ ps.map Push.place
  · exact h.insert_of_mem hp hmem
  · exact h.insert_of_not_mem hp hmem

/-- The vertices of a column are those that were pushed into it. -/
lemma exists_mem_ids_iff (h : RecordOf n ps c) {i : Nat} {P : Vertex → Prop} :
    (∃ id ∈ c.ids i, ∃ v, c.vertexOf? id = some v ∧ P v) ↔ ∃ p ∈ ps, p.column = i ∧ P p.vertex := by
  constructor
  · rintro ⟨id, hid, v, hv, hP⟩
    obtain ⟨w, origin, hx⟩ := h.indexed.mem_ids_iff.1 hid
    obtain rfl : w = v := Option.some.inj ((vertexOf?_of_place? hx).symm.trans hv)
    obtain ⟨p, hp, hplace⟩ := List.mem_map.1 (h.holds_iff.1 ⟨id, hx⟩)
    cases hplace
    exact ⟨p, hp, rfl, hP⟩
  · rintro ⟨p, hp, rfl, hP⟩
    obtain ⟨id, hx⟩ := h.holds_iff.2 (List.mem_map_of_mem (f := Push.place) hp)
    exact ⟨id, h.indexed.mem_ids_iff.2 ⟨_, _, hx⟩, _, vertexOf?_of_place? hx, hP⟩

lemma mem_expected_iff (h : RecordOf n ps c) {G : Grammar} {t : Terminal} {i : Nat} :
    t ∈ c.expected G i ↔ ∃ p ∈ ps, p.column = i ∧ G.next? p.vertex = some (.terminal t) := by
  rw [Chart.mem_expected_iff, awaiting_ne_nil_iff]
  simp only [nextOf?, Option.bind_eq_some_iff]
  exact h.exists_mem_ids_iff

lemma lastNonEmpty?_eq (h : RecordOf n ps c) : c.lastNonEmpty? = (ps.map Push.column).max? := by
  have htest (i : Nat) : (!(c.ids i).isEmpty) = true ↔ i ∈ ps.map Push.column := by
    rw [Bool.not_eq_true', List.isEmpty_eq_false_iff_exists_mem, List.mem_map]
    constructor
    · rintro ⟨id, hid⟩
      obtain ⟨v, origin, hx⟩ := h.indexed.mem_ids_iff.1 hid
      obtain ⟨p, hp, hplace⟩ := List.mem_map.1 (h.holds_iff.1 ⟨id, hx⟩)
      exact ⟨p, hp, congrArg Place.column hplace⟩
    · rintro ⟨p, hp, rfl⟩
      obtain ⟨id, hx⟩ := h.holds_iff.2 (List.mem_map_of_mem (f := Push.place) hp)
      exact ⟨id, h.indexed.mem_ids_iff.2 ⟨_, _, hx⟩⟩
  refine find?_reverse_range (fun i hi => ?_) htest
  rw [← htest, Bool.not_eq_true'] at hi
  by_contra hle
  rw [ids_of_le (Nat.le_of_not_lt hle)] at hi
  cases hi

end RecordOf

end Chart

/-! ### What a filed chart is after pushes -/

namespace FiledChart

/-- The chart is what was pushed into an empty chart with so many columns. -/
structure Reflects (G : Grammar) (n : Nat) (ps : List Push) (c : FiledChart) : Prop where
  columns_size : c.columns.size = n
  /-- The entries are numbered in the order of the first push of each. -/
  places_eq : c.entries.toList.map Entry.place = (ps.map Push.place).eraseDups
  nodup_places : (c.entries.toList.map Entry.place).Nodup
  antecedents_eq : ∀ e ∈ c.entries, e.antecedents = Push.antecedentsOf ps e.place
  /-- A column lists its entries in the order of their creation. -/
  ids_eq : ∀ i, c.ids i =
    (List.range c.entries.size).filter fun id => c.entries[id]?.any (·.column == i)
  count_ids : ∀ (id : Nat) (e : Entry), c.entries[id]? = some e →
    ∀ i, (c.ids i).count id = if i = e.column then 1 else 0
  find?_eq_some_iff : ∀ v origin i id, c.find? v origin i = some id ↔
    c.entries[id]?.map Entry.place = some ⟨v, origin, i⟩
  isSome_find?_iff : ∀ v origin i, (c.find? v origin i).isSome ↔ ⟨v, origin, i⟩ ∈ ps.map Push.place
  awaiting_eq : ∀ s i, c.awaiting s i =
    (c.ids i).filter fun id => c.entries[id]?.any fun e => G.next? e.vertex == some s
  increasing_expected : ∀ i, Ordered.Increasing (c.expected i)
  mem_expected_iff : ∀ t i, t ∈ c.expected i ↔
    ∃ p ∈ ps, p.column = i ∧ G.next? p.vertex = some (.terminal t)
  lastNonEmpty?_eq : c.lastNonEmpty? = (ps.map Push.column).max?

/-- What a push reports, and that it leaves all else as it was. -/
structure Gains (ps : List Push) (p : Push) (c c' : FiledChart) (id : Nat) (isNew : Bool) :
    Prop where
  isNew_iff : isNew = true ↔ p.place ∉ ps.map Push.place
  place_eq : c'.entries[id]?.map Entry.place = some p.place
  id_eq : isNew = true → id = c.entries.size
  size_eq : c'.entries.size = c.entries.size + if isNew then 1 else 0
  /-- The entry of the push gains antecedents behind those that it has, other entries stay. -/
  keeps : ∀ (j : Nat) (e : Entry), c.entries[j]? = some e → ∃ e', c'.entries[j]? = some e' ∧
    e'.place = e.place ∧ e.antecedents <+: e'.antecedents ∧ (j ≠ id → e' = e)

variable {G : Grammar} {n : Nat} {ps : List Push} {p : Push} {c : FiledChart}

lemma push_eq_ok_iff {r : FiledChart × Nat × Bool} :
    c.push G p = .ok r ↔ p.Fits c.entries.size c.columns.size ∧ c.insert G p = r := by
  have hany : (p.antecedent.any fun a => decide (c.entries.size ≤ a)) = true ↔
      ¬ ∀ a ∈ p.antecedent, a < c.entries.size := by
    cases p.antecedent <;> simp
  constructor
  · intro h
    unfold push at h
    split_ifs at h with hant hcol hsize
    cases h
    exact ⟨⟨not_not.1 (mt hany.2 hant), Nat.le_of_not_lt hcol, hsize⟩, rfl⟩
  · rintro ⟨⟨hant, hcol, hsize⟩, rfl⟩
    rw [push, if_neg fun h => hany.1 h hant, if_neg (Nat.not_lt.2 hcol), if_pos hsize]

lemma exists_of_pushAll_concat {b : FiledChart} (h : b.pushAll G (ps ++ [p]) = .ok c) :
    ∃ a, b.pushAll G ps = .ok a ∧ p.Fits a.entries.size a.columns.size ∧ (a.insert G p).1 = c := by
  rw [pushAll_concat] at h
  cases ha : b.pushAll G ps with
  | error fault =>
    rw [ha] at h
    cases h
  | ok a =>
    rw [ha, Except.bind] at h
    cases hr : a.push G p with
    | error fault =>
      rw [hr] at h
      cases h
    | ok r =>
      rw [hr] at h
      cases h
      obtain ⟨hfits, rfl⟩ := push_eq_ok_iff.1 hr
      exact ⟨a, rfl, hfits, rfl⟩

lemma of_pushAll (h : (FiledChart.empty n).pushAll G ps = .ok c) :
    (Chart.empty n).pushAll ps = .ok c.plain ∧ InStep G c ∧ Chart.RecordOf n ps c.plain := by
  induction ps using List.reverseRecOn generalizing c with
  | nil =>
    cases h
    rw [plain_empty]
    exact ⟨rfl, .empty n, .empty n⟩
  | append_singleton ps p ih =>
    obtain ⟨b, hb, hfits, rfl⟩ := exists_of_pushAll_concat h
    obtain ⟨hplain, hstep, hrecord⟩ := ih hb
    have hpush := hstep.push_eq p
    rw [push_eq_ok_iff.2 ⟨hfits, rfl⟩] at hpush
    refine ⟨?_, hstep.insert hfits.2.2, ?_⟩
    · rw [Chart.pushAll_concat, hplain, Except.bind, hpush]
      rfl
    · rw [hstep.plain_insert]
      apply hrecord.insert
      rw [← hrecord.columns_size, plain_columns_size]
      exact hfits.2.2

lemma InStep.reflects (h : InStep G c) (hr : Chart.RecordOf n ps c.plain) :
    c.Reflects G n ps where
  columns_size := by rw [← plain_columns_size, hr.columns_size]
  places_eq := hr.places_eq
  nodup_places := by
    have hplaces : c.entries.toList.map Entry.place = _ := hr.places_eq
    rw [hplaces]
    exact nodup_eraseDups _
  antecedents_eq := hr.antecedents_eq
  ids_eq i := by
    rw [← plain_ids]
    exact h.indexed.ids_eq_filter i
  count_ids id e he i := by
    rw [← plain_ids]
    have hnodup : (c.plain.ids i).Nodup := (h.indexed.ids_pairwise i).imp Nat.ne_of_lt
    have hmem : id ∈ c.plain.ids i ↔ i = e.column := by
      rw [h.indexed.mem_ids, plain, he]
      simp [eq_comm]
    split
    · next hi => exact List.count_eq_one_of_mem hnodup (hmem.2 hi)
    · next hi => exact List.count_eq_zero.2 (mt hmem.1 hi)
  find?_eq_some_iff v origin i id := by
    rw [h.find?_eq, h.indexed.find?_eq_some_iff]
    rfl
  isSome_find?_iff v origin i := by
    rw [h.find?_eq, ← hr.holds_iff, Option.isSome_iff_exists]
    exact exists_congr fun id => h.indexed.find?_eq_some_iff
  awaiting_eq s i := by
    rw [h.awaiting_eq, Chart.awaiting, plain_ids]
    refine List.filter_congr fun id _ => ?_
    rw [Chart.nextOf?, Chart.vertexOf?, plain]
    cases c.entries[id]? <;> rfl
  increasing_expected i := by
    rw [h.expected_eq]
    exact Ordered.increasing_ofList _
  mem_expected_iff t i := by
    rw [h.expected_eq]
    exact hr.mem_expected_iff
  lastNonEmpty?_eq := by
    rw [← plain_lastNonEmpty?, hr.lastNonEmpty?_eq]

/-- A push of what is not there yet adds one entry behind the others. -/
lemma InStep.gains_new (h : InStep G c) (hr : Chart.RecordOf n ps c.plain)
    (hf : c.find? p.vertex p.origin p.column = none) :
    Gains ps p c (c.insert G p).1 (c.insert G p).2.1 (c.insert G p).2.2 := by
  have hnew : p.place ∉ ps.map Push.place := hr.find?_eq_none_iff.1 (h.find?_eq .. ▸ hf)
  rw [FiledChart.insert, hf]
  constructor
  · simpa using hnew
  · simp [Entry.place, Push.place]
  · intro _
    rfl
  · simp
  · intro j e he
    have hlt := (Array.getElem?_eq_some_iff.1 he).1
    refine ⟨e, ?_, rfl, List.prefix_refl _, fun _ => rfl⟩
    rw [Array.getElem?_push, if_neg (Nat.ne_of_lt hlt), he]

/-- A push of what is there changes nothing but the antecedents of its entry. -/
lemma InStep.gains_old (h : InStep G c) (hr : Chart.RecordOf n ps c.plain) {id : Nat}
    (hf : c.find? p.vertex p.origin p.column = some id) :
    Gains ps p c (c.insert G p).1 (c.insert G p).2.1 (c.insert G p).2.2 := by
  have hf' : c.plain.find? p.vertex p.origin p.column = some id := h.find?_eq .. ▸ hf
  have hid : c.plain.place? id = some p.place := hr.indexed.find?_eq_some_iff.1 hf'
  have hget (j : Nat) : (c.insert G p).1.plain.entries[j]? =
      c.plain.entries[j]?.map fun e => if id = j then e.gain p.antecedent else e := by
    rw [h.plain_insert, Chart.getElem?_insert_of_find?_eq_some hf']
  have hreport : (c.insert G p).2 = (id, false) := by
    rw [FiledChart.insert, hf]
    cases p.antecedent <;> rfl
  rw [hreport]
  constructor
  · have hold : p.place ∈ ps.map Push.place := hr.holds_iff.1 ⟨id, hid⟩
    simpa using hold
  · show (c.insert G p).1.plain.place? id = some p.place
    rw [h.plain_insert, Chart.place?_insert_of_find?_eq_some hf', hid]
  · intro hnew
    cases hnew
  · rw [FiledChart.insert, hf]
    cases p.antecedent <;> simp
  · intro j e he
    refine ⟨_, (hget j).trans (congrArg _ he), ?_, ?_, ?_⟩
    · split <;> simp
    · split
      · exact Entry.antecedents_gain_prefix
      · exact List.prefix_refl _
    · intro hj
      exact if_neg hj.symm

lemma InStep.gains (h : InStep G c) (hr : Chart.RecordOf n ps c.plain) (p : Push) :
    Gains ps p c (c.insert G p).1 (c.insert G p).2.1 (c.insert G p).2.2 := by
  cases hf : c.find? p.vertex p.origin p.column with
  | none => exact h.gains_new hr hf
  | some id => exact h.gains_old hr hf

end FiledChart

/-- After any pushes into an empty chart, the chart is what was pushed, its files included, and the
same pushes make a chart without files that gives the same answers. One more push succeeds exactly if
it fits, it reports whether what it pushes is new, and it changes nothing but the entry that it
reports. -/
theorem push_faithful {G : Grammar} {n : Nat} {ps : List Push} {c : FiledChart}
    (h : (FiledChart.empty n).pushAll G ps = .ok c) :
    c.Reflects G n ps ∧
      (∃ d, (Chart.empty n).pushAll ps = .ok d ∧ c.AgreesWith G d) ∧
      ∀ p, ((∃ r, c.push G p = .ok r) ↔ p.Fits c.entries.size n) ∧
        ∀ c' id isNew, c.push G p = .ok (c', id, isNew) →
          FiledChart.Gains ps p c c' id isNew := by
  obtain ⟨hplain, hstep, hrecord⟩ := FiledChart.of_pushAll h
  have hsize : c.columns.size = n := by
    rw [← c.plain_columns_size, hrecord.columns_size]
  refine ⟨hstep.reflects hrecord, ⟨c.plain, hplain, hstep.agreesWith⟩, fun p => ⟨?_, ?_⟩⟩
  · simp only [FiledChart.push_eq_ok_iff, hsize, exists_and_left, exists_eq', and_true]
  · intro c' id isNew hpush
    obtain ⟨-, hinsert⟩ := FiledChart.push_eq_ok_iff.1 hpush
    have hgains := hstep.gains hrecord p
    rwa [hinsert] at hgains

/-- An item that is pushed four times, for two antecedents in turn, after which it gains no more. -/
theorem push_faithful_repeated :
    ∃ c, (FiledChart.empty 3).pushAll Samples.abc
        [⟨.item 1 0, 0, 1, none⟩, ⟨.item 1 1, 0, 0, some 0⟩, ⟨.item 1 0, 0, 1, some 1⟩,
          ⟨.item 1 0, 0, 1, some 0⟩, ⟨.item 1 0, 0, 1, some 1⟩] = .ok c ∧
      c.lastNonEmpty? = some 1 ∧ c.expected 1 = [⟨"a"⟩] ∧
      (∀ e ∈ c.entries, e.place = ⟨.item 1 0, 0, 1⟩ → e.antecedents = [1, 0]) ∧
      ∀ c' id isNew, c.push Samples.abc ⟨.item 1 0, 0, 1, some 1⟩ = .ok (c', id, isNew) →
        isNew = false := by
  refine ⟨_, rfl, ?_⟩
  obtain ⟨hreflects, -, hpush⟩ := @push_faithful Samples.abc 3
    [⟨.item 1 0, 0, 1, none⟩, ⟨.item 1 1, 0, 0, some 0⟩, ⟨.item 1 0, 0, 1, some 1⟩,
      ⟨.item 1 0, 0, 1, some 0⟩, ⟨.item 1 0, 0, 1, some 1⟩] _ rfl
  refine ⟨hreflects.lastNonEmpty?_eq.trans rfl, rfl, fun e he hplace => ?_, ?_⟩
  · rw [hreflects.antecedents_eq e he, hplace]
    decide
  · intro c' id isNew hc'
    have hnew := ((hpush _).2 c' id isNew hc').isNew_iff
    revert hnew
    cases isNew
    · exact fun _ => rfl
    · decide

end ParseForest
