/-!
# Finite sets as increasing lists

A finite set of ordered values is kept as the list of its members in strictly increasing order, so
that the order in which members are listed is part of the value. The main statements say that
`Ordered.insert` adds one member, that `Ordered.ofList` keeps the members of a list, and that both
stay strictly increasing. Values can be filed under keys that are kept in the same way.
-/

namespace ParseForest.Ordered

universe u v

variable {α : Type u} {β : Type v} [Ord α]

/-- Adds a member to a set, in its place. -/
def insert (a : α) : List α → List α
  | [] => [a]
  | b :: l =>
    match compare a b with
    | .lt => a :: b :: l
    | .eq => b :: l
    | .gt => b :: insert a l

/-- The set of the members of a list. -/
def ofList (l : List α) : List α :=
  l.foldr insert []

/-- The list with its members in increasing order, equal ones kept. -/
def sort (l : List α) : List α :=
  l.mergeSort fun a b => (compare a b).isLE

/-- Adds a value to those that are kept under a key, behind them. -/
def file (a : α) (b : β) : List (α × List β) → List (α × List β)
  | [] => [(a, [b])]
  | (k, bs) :: l =>
    match compare a k with
    | .lt => (a, [b]) :: (k, bs) :: l
    | .eq => (k, bs ++ [b]) :: l
    | .gt => (k, bs) :: file a b l

/-- The values that are kept under a key. -/
def filed (a : α) : List (α × List β) → List β
  | [] => []
  | (k, bs) :: l => if compare a k = .eq then bs else filed a l

/-! ### Members -/

@[simp]
theorem mem_insert [Std.LawfulEqOrd α] {a x : α} {l : List α} :
    x ∈ insert a l ↔ x = a ∨ x ∈ l := by
  induction l with
  | nil => simp [insert]
  | cons b l ih =>
    rw [insert]
    split
    · simp
    · next h => simp [Std.LawfulEqOrd.eq_of_compare h]
    · simp only [List.mem_cons, ih]
      grind

@[simp]
theorem mem_ofList [Std.LawfulEqOrd α] {x : α} {l : List α} : x ∈ ofList l ↔ x ∈ l := by
  induction l with
  | nil => simp [ofList]
  | cons a l ih =>
    have h : ofList (a :: l) = insert a (ofList l) := rfl
    simp [h, ih]

/-! ### Order -/

/-- Every member comes strictly before the members after it. -/
def Increasing (l : List α) : Prop :=
  l.Pairwise fun a b => compare a b = .lt

theorem increasing_insert [Std.TransOrd α] [Std.LawfulEqOrd α] {a : α} {l : List α}
    (h : Increasing l) : Increasing (insert a l) := by
  induction l with
  | nil => simp [insert, Increasing]
  | cons b l ih =>
    have hb : (∀ x ∈ l, compare b x = .lt) ∧ Increasing l := List.pairwise_cons.1 h
    rw [insert]
    split
    · next hab =>
      refine List.pairwise_cons.2 ⟨fun x hx => ?_, h⟩
      rcases List.mem_cons.1 hx with rfl | hx
      · exact hab
      · exact Std.TransCmp.lt_trans hab (hb.1 x hx)
    · exact h
    · next hab =>
      refine List.pairwise_cons.2 ⟨fun x hx => ?_, ih hb.2⟩
      rcases mem_insert.1 hx with rfl | hx
      · exact Std.OrientedCmp.lt_of_gt hab
      · exact hb.1 x hx

theorem increasing_ofList [Std.TransOrd α] [Std.LawfulEqOrd α] (l : List α) :
    Increasing (ofList l) := by
  induction l with
  | nil => exact List.Pairwise.nil
  | cons a l ih => exact increasing_insert ih

instance irrefl_compare [Std.ReflOrd α] : Std.Irrefl fun a b : α => compare a b = .lt where
  irrefl a h := by simp at h

instance antisymm_compare [Std.TransOrd α] : Std.Antisymm fun a b : α => compare a b = .lt where
  antisymm a b hab hba := by
    have haa : compare a a = .lt := Std.TransCmp.lt_trans hab hba
    simp at haa

/-! ### Keys -/

/-- Filing adds the key to the set of keys. -/
theorem keys_file (a : α) (b : β) (l : List (α × List β)) :
    (file a b l).map Prod.fst = insert a (l.map Prod.fst) := by
  induction l with
  | nil => rfl
  | cons kbs l ih =>
    rw [file, List.map_cons, insert]
    split
    · rfl
    · rfl
    · simp [ih]

/-- Filing under a key that is there puts the value behind those of the key. -/
theorem file_map [Std.TransOrd α] [Std.LawfulEqOrd α] [DecidableEq α] {a : α} (b : β)
    {keys : List α} (f : α → List β) (h : Increasing keys) (ha : a ∈ keys) :
    file a b (keys.map fun k => (k, f k)) =
      keys.map fun k => (k, if k = a then f k ++ [b] else f k) := by
  induction keys with
  | nil => cases ha
  | cons k keys ih =>
    obtain ⟨hk, hkeys⟩ : (∀ x ∈ keys, compare k x = .lt) ∧ Increasing keys := List.pairwise_cons.1 h
    have hfirst : compare a k ≠ .lt := by
      intro hak
      have haa : compare a a = .lt := by
        rcases List.mem_cons.1 ha with rfl | ha
        · exact hak
        · exact Std.TransCmp.lt_trans hak (hk a ha)
      simp at haa
    rw [List.map_cons, List.map_cons, file]
    split
    · next hak => exact absurd hak hfirst
    · next hak =>
      obtain rfl := Std.LawfulEqOrd.eq_of_compare hak
      have hother : ∀ x ∈ keys, (x, f x) = (x, if x = a then f x ++ [b] else f x) := by
        intro x hx
        rw [if_neg]
        rintro rfl
        simpa using hk x hx
      rw [if_pos rfl, List.map_congr_left hother]
    · next hak =>
      have hne : k ≠ a := by
        rintro rfl
        simp at hak
      rw [if_neg hne, ih hkeys ((List.mem_cons.1 ha).resolve_left hne.symm)]

/-- Nothing is kept under what is not a key. -/
theorem filed_eq_nil [Std.LawfulEqOrd α] {a : α} {l : List (α × List β)}
    (h : a ∉ l.map Prod.fst) : filed a l = [] := by
  induction l with
  | nil => rfl
  | cons kbs l ih =>
    obtain ⟨hne, hl⟩ := List.ne_and_not_mem_of_not_mem_cons h
    rw [filed, if_neg fun heq => hne (Std.LawfulEqOrd.eq_of_compare heq), ih hl]

/-- What is filed under a key is kept under it. -/
theorem filed_file_self [Std.TransOrd α] [Std.LawfulEqOrd α] {a : α} (b : β)
    {l : List (α × List β)} (h : Increasing (l.map Prod.fst)) :
    filed a (file a b l) = filed a l ++ [b] := by
  induction l with
  | nil => simp [file, filed]
  | cons kbs l ih =>
    obtain ⟨k, bs⟩ := kbs
    have hk : (∀ x ∈ l.map Prod.fst, compare k x = .lt) ∧ Increasing (l.map Prod.fst) :=
      List.pairwise_cons.1 h
    rw [file]
    split
    · next hak =>
      -- The key comes before all keys that there are.
      have hnew : a ∉ ((k, bs) :: l).map Prod.fst := by
        rw [List.map_cons, List.mem_cons, not_or]
        constructor
        · rintro rfl
          simp at hak
        · intro ha
          have haa : compare a a = .lt := Std.TransCmp.lt_trans hak (hk.1 a ha)
          simp at haa
      rw [filed_eq_nil hnew]
      simp [filed]
    · next hak => simp [filed, hak]
    · next hak => simp [filed, hak, ih hk.2]

/-- What is filed under a key changes nothing under another. -/
theorem filed_file_of_ne [Std.LawfulEqOrd α] {a k : α} (hne : k ≠ a) (b : β)
    (l : List (α × List β)) : filed k (file a b l) = filed k l := by
  have hcompare : compare k a ≠ .eq := fun heq => hne (Std.LawfulEqOrd.eq_of_compare heq)
  induction l with
  | nil => simp [file, filed, hcompare]
  | cons kbs l ih =>
    rw [file]
    split
    · simp [filed, hcompare]
    · next hak =>
      obtain rfl := Std.LawfulEqOrd.eq_of_compare hak
      simp [filed, hcompare]
    · simp [filed, ih]

end ParseForest.Ordered
