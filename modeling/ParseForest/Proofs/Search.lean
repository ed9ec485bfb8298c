import ParseForest.Search
import Mathlib.Data.Set.Card
import Mathlib.Logic.Relation
import Mathlib.Order.Lattice.Nat

/-!
# What a search finds

The level that is to be expanded holds the values at one distance from the initial ones, and what
is seen are the values up to that distance: this is the invariant of a search, `Stands`, and a level
that is expanded leaves it to the next. Each level takes at least one value out of those that are
not seen, so a search ends if only finitely many values can be reached. It has then seen exactly
these, and it has expanded each of them once, the nearer ones first, `breadthFirst_exact`.
-/

namespace ParseForest

open Relation

universe u

namespace Search

/-! ### Distance -/

section Steps

variable {α : Type u} {step : α → List α} {initial seen : List α} {a b : α} {m n : Nat}

/-- Steps lead from the first value to the second. -/
def Reaches (step : α → List α) : α → α → Prop :=
  ReflTransGen fun a b => b ∈ step a

/-- So many steps lead to a value from an initial one. -/
inductive ReachedIn (step : α → List α) (initial : List α) : Nat → α → Prop where
  | initial {a : α} (h : a ∈ initial) : ReachedIn step initial 0 a
  | step {a b : α} {n : Nat} (h : ReachedIn step initial n a) (hb : b ∈ step a) :
      ReachedIn step initial (n + 1) b

/-- The least number of steps that lead to a value from an initial one. -/
noncomputable def distance (step : α → List α) (initial : List α) (b : α) : Nat :=
  sInf {n | ReachedIn step initial n b}

/-- The value is expanded in this level: so many steps lead to it, and no fewer. -/
def InLevel (step : α → List α) (initial : List α) (n : Nat) (b : α) : Prop :=
  IsLeast {n | ReachedIn step initial n b} n

lemma InLevel.distance_eq (h : InLevel step initial n b) : distance step initial b = n :=
  h.csInf_eq

lemma ReachedIn.inLevel (h : ReachedIn step initial n b) :
    InLevel step initial (distance step initial b) b :=
  ⟨Nat.sInf_mem ⟨n, h⟩, fun _ hm => Nat.sInf_le hm⟩

lemma ReachedIn.exists_inLevel (h : ReachedIn step initial n b) :
    ∃ m ≤ n, InLevel step initial m b :=
  ⟨_, Nat.sInf_le h, h.inLevel⟩

/-- A value of the next level is stepped to from a value of the level before. -/
lemma InLevel.exists_mem_step (h : InLevel step initial (n + 1) b) :
    ∃ a, InLevel step initial n a ∧ b ∈ step a := by
  obtain ⟨h, hleast⟩ := h
  cases h with
  | @step a _ _ ha hb =>
    refine ⟨a, ⟨ha, fun m hm => ?_⟩, hb⟩
    exact Nat.le_of_succ_le_succ (hleast (ReachedIn.step hm hb))

lemma exists_reachedIn_iff :
    (∃ n, ReachedIn step initial n b) ↔ ∃ a ∈ initial, Reaches step a b := by
  constructor
  · rintro ⟨n, h⟩
    induction h with
    | initial ha => exact ⟨_, ha, .refl⟩
    | step _ hb ih =>
      obtain ⟨a, ha, hab⟩ := ih
      exact ⟨a, ha, hab.tail hb⟩
  · rintro ⟨a, ha, hab⟩
    induction hab with
    | refl => exact ⟨0, .initial ha⟩
    | tail _ hb ih =>
      obtain ⟨n, h⟩ := ih
      exact ⟨n + 1, .step h hb⟩

end Steps

variable {α : Type u} [Ord α] {step : α → List α} {level seen initial l : List α}
  {a b : α} {bound d rounds : Nat} {S : Set α}

/-! ### Levels in order -/

/-- A value comes before another if it is nearer to the initial ones, or as near and less. -/
def Precedes (step : α → List α) (initial : List α) (a b : α) : Prop :=
  distance step initial a < distance step initial b ∨
    distance step initial a = distance step initial b ∧ compare a b = .lt

/-- The level holds the values at a distance, and what is seen are the values up to it. -/
structure Stands (step : α → List α) (initial : List α) (d : Nat) (level seen : List α) :
    Prop where
  mem_level_iff : ∀ b, b ∈ level ↔ InLevel step initial d b
  mem_seen_iff : ∀ b, b ∈ seen ↔ ∃ n ≤ d, ReachedIn step initial n b
  increasing_level : Ordered.Increasing level
  increasing_seen : Ordered.Increasing seen

lemma stands_initial [Std.TransOrd α] [Std.LawfulEqOrd α] :
    Stands step initial 0 (Ordered.ofList initial) (Ordered.ofList initial) := by
  have hiff : ∀ b, ReachedIn step initial 0 b ↔ b ∈ initial := fun b =>
    ⟨fun h => by cases h with | initial h => exact h, .initial⟩
  refine ⟨fun b => ?_, fun b => ?_, Ordered.increasing_ofList _, Ordered.increasing_ofList _⟩
  · rw [Ordered.mem_ofList, ← hiff]
    exact ⟨fun h => ⟨h, fun _ _ => Nat.zero_le _⟩, fun h => h.1⟩
  · simp [hiff]

/-- Nothing lies beyond an empty level. -/
lemma Stands.not_inLevel (h : Stands step initial d [] seen) {n : Nat} (hn : d ≤ n) :
    ¬ InLevel step initial n b := by
  induction hn generalizing b with
  | refl => exact fun hb => List.not_mem_nil ((h.mem_level_iff b).2 hb)
  | step _ ih =>
    intro hb
    obtain ⟨a, ha, -⟩ := hb.exists_mem_step
    exact ih ha

variable [BEq α] {f : Frontier α} {r : Search α}

/-! ### Expanding a level -/

lemma expand_eq : expand step level f = (level.flatMap step).foldl Frontier.meet f := by
  rw [expand, List.foldl_flatMap]

section Members

variable [Std.LawfulEqOrd α] [LawfulBEq α]

/-- What is met is seen from then on. -/
lemma mem_seen_foldl_meet : b ∈ (l.foldl Frontier.meet f).seen ↔ b ∈ l ∨ b ∈ f.seen := by
  induction l generalizing f with
  | nil => simp
  | cons a l ih =>
    rw [List.foldl_cons, ih, Frontier.meet]
    split
    · next ha =>
      have ha : a ∈ f.seen := by simpa using ha
      rw [List.mem_cons, or_assoc]
      exact ⟨Or.inr, Or.rec (fun h => h ▸ Or.inr ha) id⟩
    · rw [Ordered.mem_insert, List.mem_cons]
      tauto

/-- What is met goes into the next level if it was not seen before. -/
lemma mem_next_foldl_meet :
    b ∈ (l.foldl Frontier.meet f).next ↔ b ∈ f.next ∨ b ∈ l ∧ b ∉ f.seen := by
  induction l generalizing f with
  | nil => simp
  | cons a l ih =>
    rw [List.foldl_cons, ih, Frontier.meet]
    split
    · next ha =>
      have ha : a ∈ f.seen := by simpa using ha
      have hne : b ∉ f.seen → b ≠ a := fun hb heq => hb (heq ▸ ha)
      rw [List.mem_cons]
      tauto
    · next ha =>
      have ha : a ∉ f.seen := by simpa using ha
      have heq : b = a → b ∉ f.seen := fun heq => heq ▸ ha
      rw [Ordered.mem_insert, Ordered.mem_insert, List.mem_cons]
      tauto

lemma mem_next_expand :
    b ∈ (expand step level ⟨[], seen⟩).next ↔ (∃ a ∈ level, b ∈ step a) ∧ b ∉ seen := by
  rw [expand_eq, mem_next_foldl_meet, List.mem_flatMap]
  simp

lemma mem_seen_expand :
    b ∈ (expand step level ⟨[], seen⟩).seen ↔ (∃ a ∈ level, b ∈ step a) ∨ b ∈ seen := by
  rw [expand_eq, mem_seen_foldl_meet, List.mem_flatMap]

end Members

lemma increasing_expand [Std.TransOrd α] [Std.LawfulEqOrd α] (hnext : Ordered.Increasing f.next)
    (hseen : Ordered.Increasing f.seen) :
    Ordered.Increasing (expand step level f).next ∧
      Ordered.Increasing (expand step level f).seen := by
  rw [expand_eq]
  induction level.flatMap step generalizing f with
  | nil => exact ⟨hnext, hseen⟩
  | cons a l ih =>
    rw [List.foldl_cons, Frontier.meet]
    split
    · exact ih hnext hseen
    · exact ih (Ordered.increasing_insert hnext) (Ordered.increasing_insert hseen)

/-! ### Loops -/

/-- The loop over the levels comes to its end, after so many levels that are not empty, with what it
has found. -/
inductive Ends (step : α → List α) : (level seen : List α) → Search α → Nat → Prop where
  | done {seen : List α} : Ends step [] seen ⟨seen, []⟩ 0
  | round {level seen : List α} {r : Search α} {rounds : Nat} (hlevel : level ≠ [])
      (h : Ends step (expand step level ⟨[], seen⟩).next (expand step level ⟨[], seen⟩).seen r
        rounds) : Ends step level seen ⟨r.seen, level ++ r.expanded⟩ (rounds + 1)

lemma Ends.of_eq_nil (h : level = []) : Ends step level seen ⟨seen, []⟩ 0 := by
  subst h
  exact .done

/-- A bound that the loop does not exceed makes no difference. -/
lemma Ends.levels_eq (h : Ends step level seen r rounds) (hbound : rounds ≤ bound) :
    levels step bound level seen = r := by
  induction h generalizing bound with
  | done => cases bound <;> rfl
  | @round level _ _ _ hlevel _ ih =>
    obtain ⟨bound, rfl⟩ := Nat.exists_eq_add_of_le' (Nat.le_trans (Nat.le_add_left 1 _) hbound)
    obtain ⟨a, level, rfl⟩ := List.exists_cons_of_ne_nil hlevel
    rw [levels, ih (Nat.le_of_succ_le_succ hbound)]

/-- The loop ends, as each level but the first takes a value out of those that are not seen. -/
lemma exists_ends [Std.LawfulEqOrd α] [LawfulBEq α] (hfinite : S.Finite)
    (hS : ∀ a ∈ S, ∀ b ∈ step a, b ∈ S) (seen : List α) (hlevel : ∀ a ∈ level, a ∈ S) :
    ∃ r rounds, Ends step level seen r rounds ∧ rounds ≤ (S \ {a | a ∈ seen}).ncard + 1 := by
  induction hn : (S \ {a | a ∈ seen}).ncard using Nat.strongRecOn generalizing level seen with
  | _ n ih =>
    by_cases hne : level = []
    · exact ⟨_, 0, .of_eq_nil hne, Nat.zero_le _⟩
    have hnext : ∀ b ∈ (expand step level ⟨[], seen⟩).next, b ∈ S ∧ b ∉ seen := by
      intro b hb
      obtain ⟨⟨a, ha, hab⟩, hno⟩ := mem_next_expand.1 hb
      exact ⟨hS a (hlevel a ha) b hab, hno⟩
    cases hcase : (expand step level ⟨[], seen⟩).next with
    | nil => exact ⟨_, 1, .round hne (.of_eq_nil hcase), Nat.le_add_left 1 n⟩
    | cons b next =>
      have hb : b ∈ (expand step level ⟨[], seen⟩).next := hcase ▸ List.mem_cons_self
      have hlt : (S \ {a | a ∈ (expand step level ⟨[], seen⟩).seen}).ncard < n := by
        rw [← hn]
        refine Set.ncard_lt_ncard ⟨fun c hc => ⟨hc.1, fun hc' => hc.2 ?_⟩, fun hsub => ?_⟩
          hfinite.sdiff
        · exact mem_seen_expand.2 (Or.inr hc')
        · exact (hsub (hnext b hb)).2 (mem_seen_expand.2 (Or.inl (mem_next_expand.1 hb).1))
      obtain ⟨r, rounds, hends, hrounds⟩ := ih _ hlt _ (fun c hc => (hnext c hc).1) rfl
      exact ⟨_, _, .round hne hends, by omega⟩

/-! ### What the loop keeps -/

/-- An expanded level leaves the values that are one step further away. -/
lemma Stands.expand [Std.TransOrd α] [Std.LawfulEqOrd α] [LawfulBEq α]
    (h : Stands step initial d level seen) :
    Stands step initial (d + 1) (expand step level ⟨[], seen⟩).next
      (expand step level ⟨[], seen⟩).seen := by
  obtain ⟨hnext, hseen⟩ : Ordered.Increasing (Search.expand step level ⟨[], seen⟩).next ∧
      Ordered.Increasing (Search.expand step level ⟨[], seen⟩).seen :=
    increasing_expand .nil h.increasing_seen
  refine ⟨fun b => ?_, fun b => ?_, hnext, hseen⟩
  · rw [mem_next_expand, h.mem_seen_iff]
    constructor
    · rintro ⟨⟨a, ha, hab⟩, hno⟩
      refine ⟨ReachedIn.step ((h.mem_level_iff a).1 ha).1 hab, fun n hn => ?_⟩
      exact Nat.lt_of_not_le fun hle => hno ⟨n, hle, hn⟩
    · intro hb
      obtain ⟨a, ha, hab⟩ := hb.exists_mem_step
      refine ⟨⟨a, (h.mem_level_iff a).2 ha, hab⟩, ?_⟩
      rintro ⟨n, hle, hn⟩
      exact absurd (hb.2 hn) (Nat.not_le_of_lt (Nat.lt_succ_of_le hle))
  · rw [mem_seen_expand, h.mem_seen_iff]
    constructor
    · rintro (⟨a, ha, hab⟩ | ⟨n, hle, hn⟩)
      · exact ⟨d + 1, Nat.le_refl _, .step ((h.mem_level_iff a).1 ha).1 hab⟩
      · exact ⟨n, Nat.le_succ_of_le hle, hn⟩
    · rintro ⟨n, hle, hn⟩
      obtain ⟨m, hm, hb⟩ := hn.exists_inLevel
      rcases Nat.lt_or_eq_of_le (Nat.le_trans hm hle) with hlt | rfl
      · exact Or.inr ⟨m, Nat.le_of_lt_succ hlt, hb.1⟩
      · obtain ⟨a, ha, hab⟩ := hb.exists_mem_step
        exact Or.inl ⟨a, (h.mem_level_iff a).2 ha, hab⟩

/-- What the loop finds from some level on: it sees all values, and it expands those that are at
least as far away as the level, in their order. -/
lemma Ends.spec [Std.TransOrd α] [Std.LawfulEqOrd α] [LawfulBEq α]
    (h : Ends step level seen r rounds) (hs : Stands step initial d level seen) :
    (∀ b, b ∈ r.seen ↔ ∃ n, ReachedIn step initial n b) ∧ Ordered.Increasing r.seen ∧
      (∀ b, b ∈ r.expanded ↔ ∃ n ≥ d, InLevel step initial n b) ∧
      r.expanded.Pairwise (Precedes step initial) := by
  induction h generalizing d with
  | done =>
    refine ⟨fun b => ?_, hs.increasing_seen, fun b => ?_, .nil⟩
    · rw [hs.mem_seen_iff]
      constructor
      · rintro ⟨n, -, hn⟩
        exact ⟨n, hn⟩
      · rintro ⟨n, hn⟩
        obtain ⟨m, -, hb⟩ := hn.exists_inLevel
        exact ⟨m, Nat.le_of_not_le fun hle => hs.not_inLevel hle hb, hb.1⟩
    · constructor
      · intro hb
        cases hb
      · rintro ⟨n, hn, hb⟩
        exact absurd hb (hs.not_inLevel hn)
  | @round level seen r rounds hlevel _ ih =>
    obtain ⟨hseen, hinc, hexpanded, hpairwise⟩ := ih hs.expand
    refine ⟨hseen, hinc, fun b => ?_, ?_⟩
    · rw [List.mem_append, hs.mem_level_iff, hexpanded]
      constructor
      · rintro (hb | ⟨n, hn, hb⟩)
        · exact ⟨d, Nat.le_refl _, hb⟩
        · exact ⟨n, Nat.le_of_succ_le hn, hb⟩
      · rintro ⟨n, hn, hb⟩
        rcases Nat.lt_or_eq_of_le hn with hlt | rfl
        · exact Or.inr ⟨n, hlt, hb⟩
        · exact Or.inl hb
    · refine List.pairwise_append.2 ⟨?_, hpairwise, fun a ha b hb => ?_⟩
      · refine hs.increasing_level.imp_of_mem fun {a b} ha hb hlt => Or.inr ⟨?_, hlt⟩
        rw [((hs.mem_level_iff a).1 ha).distance_eq, ((hs.mem_level_iff b).1 hb).distance_eq]
      · obtain ⟨n, hn, hb⟩ := (hexpanded b).1 hb
        refine Or.inl ?_
        rw [((hs.mem_level_iff a).1 ha).distance_eq, hb.distance_eq]
        exact hn

/-- A search whose bound exceeds the number of the values that can be met sees exactly the values
that steps lead to from the initial ones. -/
theorem mem_breadthFirst_seen [Std.TransOrd α] [Std.LawfulEqOrd α] [LawfulBEq α]
    (hfinite : S.Finite) (hS : ∀ a ∈ S, ∀ b ∈ step a, b ∈ S) (hinitial : ∀ a ∈ initial, a ∈ S)
    (hbound : S.ncard < bound) :
    b ∈ (breadthFirst bound initial step).seen ↔ ∃ a ∈ initial, Reaches step a b := by
  have hlevel : ∀ a ∈ Ordered.ofList initial, a ∈ S := by simpa using hinitial
  obtain ⟨r, rounds, hends, hrounds⟩ := exists_ends hfinite hS (Ordered.ofList initial) hlevel
  have hle := Set.ncard_le_ncard (Set.sdiff_subset (t := {a | a ∈ Ordered.ofList initial})) hfinite
  rw [breadthFirst, hends.levels_eq (by omega), (hends.spec stands_initial).1,
    exists_reachedIn_iff]

end Search

end ParseForest
