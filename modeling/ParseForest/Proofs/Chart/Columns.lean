import ParseForest.Proofs.Chart.Places
import Mathlib.Data.List.Basic

/-!
# Columns that stay as they are

`Chart.SameUpTo` says that two charts have the same columns up to a position. Insertion into a column
leaves all other columns as they are, so steps into later columns keep the columns before. Charts
with the same entries have the same columns as far as both have columns, and the same insertions give
them the same entries again, `Chart.entries_performAll_congr`.
-/

namespace ParseForest

variable {G : Grammar} {c c' : Chart} {column i k id : Nat}

namespace Chart

/-! ### The same columns -/

/-- The charts have the same columns up to a position: the same entries in the same order. -/
def SameUpTo (i : Nat) (c c' : Chart) : Prop :=
  ∀ k ≤ i, c.ids k = c'.ids k ∧ ∀ id ∈ c.ids k, c.entries[id]? = c'.entries[id]?

namespace SameUpTo

lemma refl : SameUpTo i c c := fun _ _ => ⟨rfl, fun _ _ => rfl⟩

lemma symm (h : SameUpTo i c c') : SameUpTo i c' c := by
  intro k hk
  obtain ⟨hids, he⟩ := h k hk
  constructor
  · exact hids.symm
  · intro id hid
    exact (he id (hids ▸ hid)).symm

lemma trans {c'' : Chart} (h : SameUpTo i c c') (h' : SameUpTo i c' c'') : SameUpTo i c c'' := by
  intro k hk
  obtain ⟨hids, he⟩ := h k hk
  obtain ⟨hids', he'⟩ := h' k hk
  constructor
  · exact hids.trans hids'
  · intro id hid
    exact (he id hid).trans (he' id (hids ▸ hid))

lemma nextOf?_eq (h : SameUpTo i c c') (hk : k ≤ i) (hid : id ∈ c.ids k) :
    c.nextOf? G id = c'.nextOf? G id := by
  rw [nextOf?, nextOf?, vertexOf?, vertexOf?, (h k hk).2 id hid]

/-- The same entries await the same symbols. -/
lemma awaiting_eq (h : SameUpTo i c c') (hk : k ≤ i) (a : Symbol) :
    c.awaiting G a k = c'.awaiting G a k := by
  rw [awaiting, awaiting, ← (h k hk).1]
  apply List.filter_congr
  intro id hid
  rw [h.nextOf?_eq hk hid]

lemma expected_eq (h : SameUpTo i c c') (hk : k ≤ i) : c.expected G k = c'.expected G k := by
  rw [expected, expected, ← (h k hk).1]
  apply congrArg
  apply List.filterMap_congr
  intro id hid
  rw [h.nextOf?_eq hk hid]

lemma awaited_eq (h : SameUpTo i c c') (hk : k ≤ i) : c.awaited G k = c'.awaited G k := by
  rw [awaited, awaited, ← (h k hk).1]
  apply congrArg
  apply List.filterMap_congr
  intro id hid
  rw [h.nextOf?_eq hk hid]

end SameUpTo

/-- Insertion into a column changes no other column. -/
lemma Indexed.sameUpTo_insert (h : c.Indexed) {v : Vertex} {o a : Nat} (hi : i < column) :
    SameUpTo i c (c.insert v o column (some a)).1 := by
  intro k hk
  have hne : column ≠ k := Nat.ne_of_gt (Nat.lt_of_le_of_lt hk hi)
  cases hf : c.find? v o column with
  | some j =>
    refine ⟨(ids_insert_of_find?_eq_some hf).symm, ?_⟩
    intro id hid
    have hj : j ≠ id := by
      rintro rfl
      obtain ⟨e, he, -, -, hcolumn⟩ := h.find?_eq_some.1 hf
      obtain ⟨e', he', hk'⟩ := h.mem_ids.1 hid
      cases he.symm.trans he'
      exact hne (hcolumn.symm.trans hk')
    simp [getElem?_insert_of_find?_eq_some hf, hj]
  | none =>
    constructor
    · rw [insert_of_find?_eq_none hf, ids, ids, Array.getElem?_modify, if_neg hne]
    · intro id hid
      obtain ⟨e, he, -⟩ := h.mem_ids.1 hid
      have hlt := (Array.getElem?_eq_some_iff.1 he).1
      rw [getElem?_insert_of_find?_eq_none hf, if_neg (Nat.ne_of_lt hlt)]

lemma Indexed.perform (h : c.Indexed) {step : Step} (hs : step.column < c.columns.size) :
    (step.perform c).Indexed := by
  unfold Step.perform
  split
  · exact h
  · exact h.insert hs

@[simp] lemma columns_size_perform (step : Step) :
    (step.perform c).columns.size = c.columns.size := by
  unfold Step.perform
  split
  · rfl
  · exact insert_columns_size

/-- Steps into later columns change no column before. -/
lemma Indexed.sameUpTo_performAll (h : c.Indexed) {steps : List Step}
    (hs : ∀ step ∈ steps, i < step.column ∧ step.column < c.columns.size) :
    SameUpTo i c (c.performAll steps) := by
  induction steps generalizing c with
  | nil => exact .refl
  | cons step steps ih =>
    obtain ⟨hi, hsize⟩ := hs step List.mem_cons_self
    have hstep : SameUpTo i c (step.perform c) := by
      unfold Step.perform
      split
      · exact .refl
      · exact h.sameUpTo_insert hi
    apply hstep.trans
    apply ih (h.perform hsize)
    intro step' hstep'
    rw [columns_size_perform]
    exact hs step' (List.mem_cons_of_mem _ hstep')

/-! ### Charts with the same entries -/

section

variable (h : c.Indexed) (h' : c'.Indexed) (he : c.entries = c'.entries)

include h h' he

lemma find?_congr (v : Vertex) (o column : Nat) : c.find? v o column = c'.find? v o column := by
  ext id
  rw [h.find?_eq_some, h'.find?_eq_some, he]

lemma sameUpTo_of_entries_eq (hi : i < c.columns.size) (hi' : i < c'.columns.size) :
    SameUpTo i c c' := by
  intro k hk
  constructor
  · rw [h.ids_eq k (Nat.lt_of_le_of_lt hk hi), h'.ids_eq k (Nat.lt_of_le_of_lt hk hi'), he]
  · intro id _
    rw [he]

lemma entries_insert_congr (v : Vertex) (o column : Nat) (a : Option Nat) :
    (c.insert v o column a).1.entries = (c'.insert v o column a).1.entries := by
  have hfind := find?_congr h h' he v o column
  cases hf : c.find? v o column with
  | none =>
    rw [hf] at hfind
    rw [insert_of_find?_eq_none hf, insert_of_find?_eq_none hfind.symm, he]
  | some id =>
    rw [hf] at hfind
    rw [insert_of_find?_eq_some hf, insert_of_find?_eq_some hfind.symm, he]

end

end Chart

/-- What a step puts into a chart, and what it puts it there for. -/
def Step.puts? (s : Step) : Option (Nat × Place) :=
  if s.isVetoed then none else some (s.source, s.place)

lemma Chart.entries_perform_congr (h : c.Indexed) (h' : c'.Indexed) (he : c.entries = c'.entries)
    {step step' : Step} (hs : step.puts? = step'.puts?) :
    (step.perform c).entries = (step'.perform c').entries := by
  unfold Step.puts? at hs
  unfold Step.perform
  split at hs
  · split at hs
    · next hv hv' => rw [if_pos hv, if_pos hv', he]
    · cases hs
  · split at hs
    · cases hs
    · next hv hv' =>
      simp only [Option.some.injEq, Prod.mk.injEq, Step.place, Place.mk.injEq] at hs
      obtain ⟨hsource, hvertex, horigin, hcolumn⟩ := hs
      rw [if_neg hv, if_neg hv', hsource, hvertex, horigin, hcolumn]
      exact entries_insert_congr h h' he _ _ _ _

/-- Steps that put the same into charts with the same entries. -/
lemma Chart.entries_performAll_congr (h : c.Indexed) (h' : c'.Indexed)
    (he : c.entries = c'.entries) {steps steps' : List Step}
    (hs : steps.map Step.puts? = steps'.map Step.puts?)
    (hsize : ∀ step ∈ steps, step.column < c.columns.size)
    (hsize' : ∀ step ∈ steps', step.column < c'.columns.size) :
    (c.performAll steps).entries = (c'.performAll steps').entries := by
  induction steps generalizing c c' steps' with
  | nil =>
    rw [List.map_nil, eq_comm, List.map_eq_nil_iff] at hs
    subst hs
    exact he
  | cons step steps ih =>
    cases steps' with
    | nil => cases hs
    | cons step' steps' =>
      rw [List.map_cons, List.map_cons, List.cons.injEq] at hs
      obtain ⟨hfirst, hothers⟩ := List.forall_mem_cons.1 hsize
      obtain ⟨hfirst', hothers'⟩ := List.forall_mem_cons.1 hsize'
      apply ih (h.perform hfirst) (h'.perform hfirst') (entries_perform_congr h h' he hs.1) hs.2
      · intro s hs
        rw [columns_size_perform]
        exact hothers s hs
      · intro s hs
        rw [columns_size_perform]
        exact hothers' s hs

end ParseForest
