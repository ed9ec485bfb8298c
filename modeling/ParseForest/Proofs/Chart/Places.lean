import ParseForest.Chart.Lemmas
import ParseForest.Recognition.Step
import Mathlib.Tactic.Lemma
import Mathlib.Tactic.Set
import Mathlib.Data.List.Induction

/-!
# What a chart holds and records

Seen from outside, a chart is a table of places, one for each entry, together with the pairs of an
antecedent and a place that it records. The main statement, `performAll_grows`, says what a list of
steps does to this view: places that are there stay where they are, and exactly the steps that are
not vetoed are recorded.
-/

namespace ParseForest

/-- What identifies an entry: its vertex, where the phrase of the vertex began, and its column. -/
@[ext]
structure Place where
  vertex : Vertex
  origin : Nat
  column : Nat
deriving DecidableEq, Repr

def Entry.place (e : Entry) : Place := ⟨e.vertex, e.origin, e.column⟩

def Step.place (s : Step) : Place := ⟨s.vertex, s.origin, s.column⟩

@[simp] lemma Entry.place_addAntecedent (e : Entry) (id : Nat) :
    (e.addAntecedent id).place = e.place := by
  simp [Entry.place]

@[simp] lemma Entry.place_gain (e : Entry) (antecedent : Option Nat) :
    (e.gain antecedent).place = e.place := by
  simp [Entry.place]

lemma Entry.mem_addAntecedent {e : Entry} {a id : Nat} :
    a ∈ (e.addAntecedent id).antecedents ↔ a ∈ e.antecedents ∨ a = id := by
  unfold Entry.addAntecedent
  split
  · next h =>
    constructor
    · exact Or.inl
    · rintro (ha | rfl)
      · exact ha
      · exact h
  · simp

lemma Entry.nodup_addAntecedent {e : Entry} (id : Nat) (h : e.antecedents.Nodup) :
    (e.addAntecedent id).antecedents.Nodup := by
  unfold Entry.addAntecedent
  split
  · exact h
  · next hid => simpa [List.nodup_append, h] using fun a ha => ne_of_mem_of_not_mem ha hid

namespace Chart

/-- The place of the entry of a number. -/
def place? (c : Chart) (id : Nat) : Option Place :=
  c.entries[id]?.map Entry.place

/-- The chart has an entry of a place. -/
def Holds (c : Chart) (x : Place) : Prop :=
  ∃ id, c.place? id = some x

/-- The chart has an entry of a place with an antecedent. -/
def Records (c : Chart) (a : Nat) (x : Place) : Prop :=
  ∃ (id : Nat) (e : Entry), c.entries[id]? = some e ∧ e.place = x ∧ a ∈ e.antecedents

/-- No entry has an antecedent twice. -/
def Deduped (c : Chart) : Prop :=
  ∀ (id : Nat) (e : Entry), c.entries[id]? = some e → e.antecedents.Nodup

variable {c : Chart} {a id : Nat} {x : Place}

lemma place?_eq_some :
    c.place? id = some x ↔ ∃ e, c.entries[id]? = some e ∧ e.place = x := by
  simp [place?]

lemma lt_size_of_place? (h : c.place? id = some x) : id < c.entries.size := by
  obtain ⟨e, he, -⟩ := place?_eq_some.1 h
  exact (Array.getElem?_eq_some_iff.1 he).1

lemma exists_place? (h : id < c.entries.size) : ∃ x, c.place? id = some x :=
  ⟨_, place?_eq_some.2 ⟨c.entries[id], Array.getElem?_eq_getElem h, rfl⟩⟩

lemma Records.holds (h : c.Records a x) : c.Holds x := by
  obtain ⟨id, e, he, hx, -⟩ := h
  exact ⟨id, place?_eq_some.2 ⟨e, he, hx⟩⟩

namespace Indexed

lemma place?_inj (h : c.Indexed) {i j : Nat} (hi : c.place? i = some x)
    (hj : c.place? j = some x) : i = j := by
  obtain ⟨e, he, rfl⟩ := place?_eq_some.1 hi
  obtain ⟨f, hf, hfe⟩ := place?_eq_some.1 hj
  simp only [Entry.place, Place.mk.injEq] at hfe
  exact h.unique i j e f he hf hfe.1.symm hfe.2.1.symm hfe.2.2.symm

lemma find?_eq_some_iff (h : c.Indexed) {v : Vertex} {origin column : Nat} :
    c.find? v origin column = some id ↔ c.place? id = some ⟨v, origin, column⟩ := by
  rw [h.find?_eq_some, place?_eq_some]
  simp [Entry.place]

lemma find?_eq_none_iff (h : c.Indexed) {v : Vertex} {origin column : Nat} :
    c.find? v origin column = none ↔ ¬ c.Holds ⟨v, origin, column⟩ := by
  constructor
  · rintro hn ⟨id, hid⟩
    rw [h.find?_eq_some_iff.2 hid] at hn
    cases hn
  · intro hn
    cases hf : c.find? v origin column with
    | none => rfl
    | some id => exact absurd ⟨id, h.find?_eq_some_iff.1 hf⟩ hn

lemma mem_ids_iff (h : c.Indexed) {i : Nat} :
    id ∈ c.ids i ↔ ∃ v origin, c.place? id = some ⟨v, origin, i⟩ := by
  rw [h.mem_ids]
  constructor
  · rintro ⟨e, he, rfl⟩
    exact ⟨e.vertex, e.origin, place?_eq_some.2 ⟨e, he, rfl⟩⟩
  · rintro ⟨v, origin, hx⟩
    obtain ⟨e, he, hp⟩ := place?_eq_some.1 hx
    simp only [Entry.place, Place.mk.injEq] at hp
    exact ⟨e, he, hp.2.2⟩

lemma mem_awaiting_iff (h : c.Indexed) {G : Grammar} {s : Symbol} {i : Nat} :
    id ∈ c.awaiting G s i ↔
      ∃ p dot origin, c.place? id = some ⟨.item p dot, origin, i⟩ ∧
        G.symbolAt? p dot = some s := by
  rw [awaiting, List.mem_filter, h.mem_ids_iff]
  constructor
  · rintro ⟨⟨v, origin, hx⟩, hs⟩
    obtain ⟨e, he, hp⟩ := place?_eq_some.1 hx
    simp only [Entry.place, Place.mk.injEq] at hp
    obtain ⟨rfl, rfl, rfl⟩ := hp
    simp only [nextOf?, vertexOf?, he, Option.map_some, Option.bind_some, beq_iff_eq] at hs
    cases hv : e.vertex with
    | start n => simp [hv, Grammar.next?] at hs
    | finish n => simp [hv, Grammar.next?] at hs
    | item p dot =>
      rw [hv] at hs hx
      exact ⟨p, dot, e.origin, hx, hs⟩
  · rintro ⟨p, dot, origin, hx, hs⟩
    refine ⟨⟨_, _, hx⟩, ?_⟩
    obtain ⟨e, he, hp⟩ := place?_eq_some.1 hx
    simp only [Entry.place, Place.mk.injEq] at hp
    simp [nextOf?, vertexOf?, he, hp.1, Grammar.next?, hs]

end Indexed

/-! ### Inserting -/

section Insert

variable {v : Vertex} {origin column b : Nat}

lemma size_le_insert :
    c.entries.size ≤ (c.insert v origin column (some a)).1.entries.size := by
  cases hf : c.find? v origin column with
  | none =>
    rw [size_insert_of_find?_eq_none hf]
    exact Nat.le_succ _
  | some j => exact Nat.le_of_eq (size_insert_of_find?_eq_some hf).symm

/-- The entry that gains an antecedent keeps its place, and so do the other entries. -/
lemma place?_insert_of_find?_eq_some {antecedent : Option Nat} {j : Nat}
    (hf : c.find? v origin column = some j) (id : Nat) :
    (c.insert v origin column antecedent).1.place? id = c.place? id := by
  rw [place?, getElem?_insert_of_find?_eq_some hf, Option.map_map, place?]
  refine congrArg (Option.map · _) (funext fun e => ?_)
  by_cases hid : j = id <;> simp [hid]

lemma place?_insert_of_lt (h : id < c.entries.size) :
    (c.insert v origin column (some a)).1.place? id = c.place? id := by
  cases hf : c.find? v origin column with
  | none => rw [place?, getElem?_insert_of_find?_eq_none hf, if_neg (Nat.ne_of_lt h), place?]
  | some j => exact place?_insert_of_find?_eq_some hf id

/-- A place after an insertion was there before, or is the new one. -/
lemma place?_insert (h : (c.insert v origin column (some a)).1.place? id = some x) :
    c.place? id = some x ∨ (c.entries.size ≤ id ∧ x = ⟨v, origin, column⟩) := by
  cases hf : c.find? v origin column with
  | none =>
    rw [place?, getElem?_insert_of_find?_eq_none hf] at h
    split at h
    · next hid => exact Or.inr ⟨Nat.le_of_eq hid.symm, (Option.some.inj h).symm⟩
    · exact Or.inl h
  | some j => exact Or.inl (place?_insert_of_find?_eq_some hf id ▸ h)

lemma Indexed.records_insert (h : c.Indexed) :
    (c.insert v origin column (some a)).1.Records b x ↔
      c.Records b x ∨ (b = a ∧ x = ⟨v, origin, column⟩) := by
  cases hf : c.find? v origin column with
  | none =>
    unfold Records
    simp only [getElem?_insert_of_find?_eq_none hf]
    constructor
    · rintro ⟨id, e, he, rfl, hb⟩
      split at he
      · obtain rfl := Option.some.inj he
        exact Or.inr ⟨by simpa using hb, rfl⟩
      · exact Or.inl ⟨id, e, he, rfl, hb⟩
    · rintro (⟨id, e, he, rfl, hb⟩ | ⟨rfl, rfl⟩)
      · have hlt := (Array.getElem?_eq_some_iff.1 he).1
        exact ⟨id, e, by rw [if_neg (Nat.ne_of_lt hlt), he], rfl, hb⟩
      · exact ⟨c.entries.size, _, if_pos rfl, rfl, by simp⟩
  | some j =>
    have hj := h.find?_eq_some_iff.1 hf
    unfold Records
    simp only [getElem?_insert_of_find?_eq_some hf]
    constructor
    · rintro ⟨id, e, he, rfl, hb⟩
      obtain ⟨f, hfe, rfl⟩ := Option.map_eq_some_iff.1 he
      split at hb
      · next hji =>
        subst hji
        rcases Entry.mem_addAntecedent.1 hb with hb | rfl
        · exact Or.inl ⟨j, f, hfe, by simp, hb⟩
        · refine Or.inr ⟨rfl, ?_⟩
          rw [place?_eq_some.2 ⟨f, hfe, rfl⟩] at hj
          simpa using Option.some.inj hj
      · next hji => exact Or.inl ⟨id, f, hfe, by simp [hji], hb⟩
    · rintro (⟨id, e, he, rfl, hb⟩ | ⟨rfl, rfl⟩)
      · refine ⟨id, _, by rw [he, Option.map_some], ?_, ?_⟩
        · split <;> simp
        · split
          · exact Entry.mem_addAntecedent.2 (Or.inl hb)
          · exact hb
      · obtain ⟨f, hfe, hp⟩ := place?_eq_some.1 hj
        refine ⟨j, f.gain (some b), by rw [hfe, Option.map_some, if_pos rfl], by simpa using hp, ?_⟩
        exact Entry.mem_addAntecedent.2 (Or.inr rfl)

lemma Deduped.insert (h : c.Deduped) :
    (c.insert v origin column (some a)).1.Deduped := by
  intro id e he
  cases hf : c.find? v origin column with
  | none =>
    rw [getElem?_insert_of_find?_eq_none hf] at he
    split at he
    · obtain rfl := Option.some.inj he
      simp
    · exact h id e he
  | some j =>
    rw [getElem?_insert_of_find?_eq_some hf] at he
    obtain ⟨f, hfe, rfl⟩ := Option.map_eq_some_iff.1 he
    split
    · exact Entry.nodup_addAntecedent a (h id f hfe)
    · exact h id f hfe

end Insert

/-! ### Performing steps -/

def performAll (c : Chart) (steps : List Step) : Chart :=
  steps.foldl (fun c s => s.perform c) c

/-- What `steps` have made of the chart `c`. -/
structure Grows (c : Chart) (steps : List Step) (c' : Chart) : Prop where
  indexed : c'.Indexed
  deduped : c'.Deduped
  columns_size : c'.columns.size = c.columns.size
  size_le : c.entries.size ≤ c'.entries.size
  /-- Entries keep their places. -/
  place?_eq : ∀ id, id < c.entries.size → c'.place? id = c.place? id
  /-- New entries are at places that steps reach. -/
  place?_new : ∀ id x, c'.place? id = some x → c.place? id = some x ∨
    (c.entries.size ≤ id ∧ ∃ s ∈ steps, s.isVetoed = false ∧ s.place = x)
  /-- What is recorded is what was recorded and what the steps record. -/
  records_iff : ∀ a x, c'.Records a x ↔ c.Records a x ∨
    ∃ s ∈ steps, s.isVetoed = false ∧ s.source = a ∧ s.place = x

lemma Grows.refl (h : c.Indexed) (hd : c.Deduped) : Grows c [] c :=
  ⟨h, hd, rfl, Nat.le_refl _, fun _ _ => rfl, fun _ _ hx => Or.inl hx, by simp⟩

/-- Entries stay at their places. -/
lemma Grows.keeps {steps : List Step} {c' : Chart} (h : Grows c steps c')
    (hx : c.place? id = some x) : c'.place? id = some x :=
  (h.place?_eq id (lt_size_of_place? hx)).trans hx

lemma Grows.perform {steps : List Step} {c' : Chart} (h : Grows c steps c') {s : Step}
    (hs : s.column < c.columns.size) : Grows c (steps ++ [s]) (s.perform c') := by
  have hs' : s.column < c'.columns.size := h.columns_size ▸ hs
  unfold Step.perform
  cases hv : s.isVetoed with
  | true =>
    refine ⟨h.indexed, h.deduped, h.columns_size, h.size_le, h.place?_eq, fun id x hx => ?_,
      fun a x => ?_⟩
    · rcases h.place?_new id x hx with hx | ⟨hid, t, ht, htv⟩
      · exact Or.inl hx
      · exact Or.inr ⟨hid, t, by simp [ht], htv⟩
    · rw [if_pos rfl, h.records_iff]
      simp [or_and_right, exists_or, hv]
  | false =>
    rw [if_neg (by simp)]
    refine ⟨h.indexed.insert hs', h.deduped.insert, ?_, ?_, fun id hid => ?_, fun id x hx => ?_,
      fun a x => ?_⟩
    · simp [h.columns_size]
    · exact Nat.le_trans h.size_le size_le_insert
    · rw [place?_insert_of_lt (Nat.lt_of_lt_of_le hid h.size_le), h.place?_eq id hid]
    · rcases place?_insert hx with hx | ⟨hid, rfl⟩
      · rcases h.place?_new id x hx with hx | ⟨hid, t, ht, htv⟩
        · exact Or.inl hx
        · exact Or.inr ⟨hid, t, by simp [ht], htv⟩
      · exact Or.inr ⟨Nat.le_trans h.size_le hid, s, by simp, hv, rfl⟩
    · rw [h.indexed.records_insert, h.records_iff, or_assoc]
      refine or_congr_right ?_
      simp only [List.mem_append, List.mem_singleton, or_and_right, exists_or, exists_eq_left, hv,
        true_and]
      refine or_congr_right ?_
      simp only [Step.place, eq_comm]

lemma performAll_grows (h : c.Indexed) (hd : c.Deduped) (steps : List Step)
    (hs : ∀ s ∈ steps, s.column < c.columns.size) : Grows c steps (c.performAll steps) := by
  induction steps using List.reverseRecOn with
  | nil => exact Grows.refl h hd
  | append_singleton steps s ih =>
    rw [performAll, List.foldl_append]
    exact (ih fun t ht => hs t (by simp [ht])).perform (hs s (by simp))

end Chart

end ParseForest
