import ParseForest.Chart.Basic

/-!
# Charts as indexed sets

The columns of a chart are an index of its entries. The main statements say that insertion keeps the
index faithful, that looking up finds exactly the entry of a vertex and an origin, and what
insertion does to the entries.
-/

namespace ParseForest

namespace Entry

variable (e : Entry) (id : Nat)

@[simp]
theorem addAntecedent_vertex : (e.addAntecedent id).vertex = e.vertex := by
  unfold addAntecedent
  split <;> rfl

@[simp]
theorem addAntecedent_origin : (e.addAntecedent id).origin = e.origin := by
  unfold addAntecedent
  split <;> rfl

@[simp]
theorem addAntecedent_column : (e.addAntecedent id).column = e.column := by
  unfold addAntecedent
  split <;> rfl

/-- The entry after it is pushed once more, for an antecedent or for none. -/
def gain (antecedent : Option Nat) : Entry :=
  antecedent.elim e e.addAntecedent

variable {antecedent : Option Nat}

@[simp]
theorem gain_vertex : (e.gain antecedent).vertex = e.vertex := by
  cases antecedent <;> simp [gain]

@[simp]
theorem gain_origin : (e.gain antecedent).origin = e.origin := by
  cases antecedent <;> simp [gain]

@[simp]
theorem gain_column : (e.gain antecedent).column = e.column := by
  cases antecedent <;> simp [gain]

end Entry

namespace Chart

variable {c : Chart} {v : Vertex} {origin column : Nat} {antecedent : Option Nat}

/-- The columns list exactly the entries that belong to them, in the order of their creation, and no
two entries of a column have the same vertex and origin. -/
structure Indexed (c : Chart) : Prop where
  /-- The index lists the entries of each column. -/
  ids_eq : ∀ i, i < c.columns.size →
    c.ids i = (List.range c.entries.size).filter fun id => c.entries[id]?.any (·.column == i)
  /-- The entries belong to columns of the chart. -/
  column_lt : ∀ (id : Nat) (e : Entry), c.entries[id]? = some e → e.column < c.columns.size
  /-- The entries of a column differ in vertex or origin. -/
  unique : ∀ (i j : Nat) (e f : Entry), c.entries[i]? = some e → c.entries[j]? = some f →
    e.vertex = f.vertex → e.origin = f.origin → e.column = f.column → i = j

theorem ids_of_le {i : Nat} (h : c.columns.size ≤ i) : c.ids i = [] := by
  simp [ids, h]

namespace Indexed

theorem mem_ids (h : c.Indexed) {i id : Nat} :
    id ∈ c.ids i ↔ ∃ e, c.entries[id]? = some e ∧ e.column = i := by
  by_cases hi : i < c.columns.size
  · rw [h.ids_eq i hi, List.mem_filter, List.mem_range]
    constructor
    · rintro ⟨-, hid⟩
      simpa [Option.any_eq_true] using hid
    · rintro ⟨e, he, hc⟩
      exact ⟨(Array.getElem?_eq_some_iff.1 he).1, by simp [he, hc]⟩
  · rw [ids_of_le (Nat.le_of_not_lt hi)]
    constructor
    · intro hid
      cases hid
    · rintro ⟨e, he, rfl⟩
      exact absurd (h.column_lt id e he) hi

theorem ids_pairwise (h : c.Indexed) (i : Nat) : (c.ids i).Pairwise (· < ·) := by
  by_cases hi : i < c.columns.size
  · rw [h.ids_eq i hi]
    exact List.Pairwise.filter _ List.pairwise_lt_range
  · rw [ids_of_le (Nat.le_of_not_lt hi)]
    exact List.Pairwise.nil

/-- Looking up finds the entry of a vertex and an origin. -/
theorem find?_eq_some (h : c.Indexed) {id : Nat} :
    c.find? v origin column = some id ↔
      ∃ e, c.entries[id]? = some e ∧ e.vertex = v ∧ e.origin = origin ∧ e.column = column := by
  have key : ∀ {j : Nat}, (∃ e, c.entries[j]? = some e ∧ (e.isAt v origin) = true) ↔
      (c.entries[j]?.any (·.isAt v origin)) = true := by
    simp [Option.any_eq_true]
  have hfind : c.find? v origin column
      = (c.ids column).find? fun j => c.entries[j]?.any (·.isAt v origin) := by
    simp [find?, ids]
  rw [hfind]
  constructor
  · intro hs
    have hp := List.find?_some hs
    obtain ⟨e, he, hat⟩ := key.2 hp
    obtain ⟨f, hf, hcol⟩ := h.mem_ids.1 (List.mem_of_find?_eq_some hs)
    rw [he] at hf
    cases hf
    simp only [Entry.isAt, Bool.and_eq_true, beq_iff_eq] at hat
    exact ⟨e, he, hat.1, hat.2, hcol⟩
  · rintro ⟨e, he, rfl, rfl, rfl⟩
    cases hs : (c.ids e.column).find? fun j => c.entries[j]?.any (·.isAt e.vertex e.origin) with
    | none =>
      have := List.find?_eq_none.1 hs id (h.mem_ids.2 ⟨e, he, rfl⟩)
      simp [he, Entry.isAt] at this
    | some j =>
      have hp := List.find?_some hs
      obtain ⟨f, hf, hat⟩ := key.2 hp
      obtain ⟨g, hg, hcol⟩ := h.mem_ids.1 (List.mem_of_find?_eq_some hs)
      rw [hf] at hg
      cases hg
      simp only [Entry.isAt, Bool.and_eq_true, beq_iff_eq] at hat
      rw [h.unique j id f e hf he hat.1 hat.2 hcol]

/-- Looking up finds nothing if there is no entry of a vertex and an origin. -/
theorem find?_eq_none (h : c.Indexed) :
    c.find? v origin column = none ↔
      ∀ (id : Nat) (e : Entry), c.entries[id]? = some e →
        ¬ (e.vertex = v ∧ e.origin = origin ∧ e.column = column) := by
  constructor
  · intro hn id e he hk
    have := h.find?_eq_some.2 ⟨e, he, hk⟩
    rw [hn] at this
    cases this
  · intro hn
    cases hs : c.find? v origin column with
    | none => rfl
    | some id =>
      obtain ⟨e, he, hk⟩ := h.find?_eq_some.1 hs
      exact absurd hk (hn id e he)

end Indexed

/-! ### Insertion -/

/-- The chart after the insertion of an entry that is not there yet. -/
theorem insert_of_find?_eq_none (h : c.find? v origin column = none) :
    c.insert v origin column antecedent =
      (⟨c.entries.push ⟨v, origin, column, antecedent.toList⟩,
        c.columns.modify column (·.push c.entries.size)⟩, c.entries.size, true) := by
  simp [insert, h]

/-- The chart after the insertion of an entry that is there already. -/
theorem insert_of_find?_eq_some {id : Nat} (h : c.find? v origin column = some id) :
    c.insert v origin column antecedent =
      (⟨match antecedent with
        | none => c.entries
        | some a => c.entries.modify id (·.addAntecedent a), c.columns⟩, id, false) := by
  cases antecedent <;> simp [insert, h]

@[simp]
theorem insert_columns_size :
    (c.insert v origin column antecedent).1.columns.size = c.columns.size := by
  cases h : c.find? v origin column with
  | none => simp [insert_of_find?_eq_none h]
  | some id => simp [insert_of_find?_eq_some h]

/-- The entry of a vertex and an origin gains the antecedent, and the other entries stay. -/
theorem getElem?_insert_of_find?_eq_some {j : Nat} (h : c.find? v origin column = some j)
    (id : Nat) : (c.insert v origin column antecedent).1.entries[id]? =
      c.entries[id]?.map fun e => if j = id then e.gain antecedent else e := by
  rw [insert_of_find?_eq_some h]
  cases antecedent with
  | none => simp [Entry.gain]
  | some a =>
    rw [Array.getElem?_modify]
    split <;> simp [Entry.gain]

theorem getElem?_insert_of_find?_eq_none (h : c.find? v origin column = none) (id : Nat) :
    (c.insert v origin column antecedent).1.entries[id]? =
      if id = c.entries.size then some ⟨v, origin, column, antecedent.toList⟩
      else c.entries[id]? := by
  rw [insert_of_find?_eq_none h, Array.getElem?_push]

theorem size_insert_of_find?_eq_some {j : Nat} (h : c.find? v origin column = some j) :
    (c.insert v origin column antecedent).1.entries.size = c.entries.size := by
  rw [insert_of_find?_eq_some h]
  cases antecedent <;> simp

theorem size_insert_of_find?_eq_none (h : c.find? v origin column = none) :
    (c.insert v origin column antecedent).1.entries.size = c.entries.size + 1 := by
  rw [insert_of_find?_eq_none h, Array.size_push]

theorem ids_insert_of_find?_eq_some {j i : Nat} (h : c.find? v origin column = some j) :
    (c.insert v origin column antecedent).1.ids i = c.ids i := by
  rw [insert_of_find?_eq_some h]
  rfl

theorem ids_insert_of_find?_eq_none {i : Nat} (h : c.find? v origin column = none)
    (hcol : column < c.columns.size) :
    (c.insert v origin column antecedent).1.ids i =
      c.ids i ++ if i = column then [c.entries.size] else [] := by
  rw [insert_of_find?_eq_none h]
  simp only [ids, Array.getElem?_modify]
  by_cases hi : column = i
  · subst hi
    simp [hcol]
  · simp [hi, Ne.symm hi]

/-- The empty chart is indexed. -/
theorem indexed_empty (n : Nat) : (Chart.empty n).Indexed where
  ids_eq i hi := by
    have : i < n := by simpa [Chart.empty] using hi
    simp [Chart.empty, ids, this]
  column_lt id e he := by simp [Chart.empty] at he
  unique i j e f he := by simp [Chart.empty] at he

/-- An entry that gains an antecedent stays where it is. -/
theorem Indexed.insert_old {j : Nat} (h : c.Indexed)
    (hf : c.find? v origin column = some j) :
    (c.insert v origin column antecedent).1.Indexed := by
  have hget (i : Nat) (e : Entry)
      (he : (c.insert v origin column antecedent).1.entries[i]? = some e) :
      ∃ e', c.entries[i]? = some e' ∧ e.vertex = e'.vertex ∧ e.origin = e'.origin ∧
        e.column = e'.column := by
    rw [getElem?_insert_of_find?_eq_some hf] at he
    obtain ⟨e', he', rfl⟩ := Option.map_eq_some_iff.1 he
    refine ⟨e', he', ?_⟩
    split <;> simp
  constructor
  · intro i hi
    rw [insert_columns_size] at hi
    rw [ids_insert_of_find?_eq_some hf, size_insert_of_find?_eq_some hf, h.ids_eq i hi]
    refine List.filter_congr fun id _ => ?_
    rw [getElem?_insert_of_find?_eq_some hf]
    by_cases hid : j = id <;> cases c.entries[id]? <;> simp [hid]
  · intro i e he
    obtain ⟨e', he', -, -, hc⟩ := hget i e he
    rw [insert_columns_size, hc]
    exact h.column_lt i e' he'
  · intro i j e f he hf hv ho hc
    obtain ⟨e', he', hv', ho', hc'⟩ := hget i e he
    obtain ⟨f', hf', hv'', ho'', hc''⟩ := hget j f hf
    exact h.unique i j e' f' he' hf' (by rw [← hv', hv, hv'']) (by rw [← ho', ho, ho''])
      (by rw [← hc', hc, hc''])

/-- A new entry is the last one, and the only one of its vertex and origin in its column. -/
theorem Indexed.insert_new (h : c.Indexed) (hf : c.find? v origin column = none)
    (hcol : column < c.columns.size) :
    (c.insert v origin column antecedent).1.Indexed := by
  have hnone := h.find?_eq_none.1 hf
  have hget (i : Nat) (e : Entry)
      (he : (c.insert v origin column antecedent).1.entries[i]? = some e) :
      c.entries[i]? = some e ∨
        (i = c.entries.size ∧ e = ⟨v, origin, column, antecedent.toList⟩) := by
    rw [getElem?_insert_of_find?_eq_none hf] at he
    split at he
    · next hi => exact Or.inr ⟨hi, (Option.some.inj he).symm⟩
    · exact Or.inl he
  constructor
  · intro i hi
    rw [insert_columns_size] at hi
    have hfilter : (List.range c.entries.size).filter (fun id =>
        (c.insert v origin column antecedent).1.entries[id]?.any (·.column == i))
        = (List.range c.entries.size).filter fun id => c.entries[id]?.any (·.column == i) := by
      refine List.filter_congr fun id hid => ?_
      rw [getElem?_insert_of_find?_eq_none hf, if_neg (Nat.ne_of_lt (List.mem_range.1 hid))]
    rw [ids_insert_of_find?_eq_none hf hcol, size_insert_of_find?_eq_none hf, List.range_succ,
      List.filter_append, hfilter, ← h.ids_eq i hi, List.filter_cons, List.filter_nil,
      getElem?_insert_of_find?_eq_none hf, if_pos rfl]
    by_cases hic : i = column
    · simp [hic]
    · simp [hic, Ne.symm hic]
  · intro i e he
    rw [insert_columns_size]
    rcases hget i e he with he | ⟨-, rfl⟩
    · exact h.column_lt i e he
    · exact hcol
  · intro i j e f he hf' hv ho hc
    rcases hget i e he with he | ⟨rfl, rfl⟩ <;> rcases hget j f hf' with hf' | ⟨rfl, rfl⟩
    · exact h.unique i j e f he hf' hv ho hc
    · exact absurd ⟨hv, ho, hc⟩ (hnone i e he)
    · exact absurd ⟨hv.symm, ho.symm, hc.symm⟩ (hnone j f hf')
    · rfl

/-- Insertion keeps a chart indexed. -/
theorem Indexed.insert (h : c.Indexed) (hcol : column < c.columns.size) :
    (c.insert v origin column antecedent).1.Indexed := by
  cases hf : c.find? v origin column with
  | some id => exact h.insert_old hf
  | none => exact h.insert_new hf hcol

end Chart

end ParseForest
