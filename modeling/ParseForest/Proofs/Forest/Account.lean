import ParseForest.Proofs.Forest.Nodes
import ParseForest.Proofs.Walk.Moves
import Mathlib.Algebra.GroupWithZero.Nat

/-!
# The account of a phrase

The account says how often each reading of a phrase is stored or going to be stored: in the
containers of its node, in a complete item that is about to begin, and at the entries that the walk
will come back to. What the builder has saved for an entry decides which phrase and which pieces a
branch adds to; saving again for an entry changes this for all branches at the entry.
-/

namespace ParseForest

variable {P : Parsing} {nodes nodes' : Array ForestNode} {th th' : Nat → Thread} {i y id : Nat}
  {x x' : Phrase} {r : Reading} {τ : Thread}

/-! ### Containers -/

/-- How often the containers of a phrase store the reading or are going to. -/
noncomputable def heldWeight (P : Parsing) (nodes : Array ForestNode) (th : Nat → Thread)
    (x : Phrase) (r : Reading) : Nat :=
  sumBelow nodes.size fun i =>
    if (kindAt nodes i).bind Kind.container? = some x then
      (th i).weight P.grammar P.tokens r
    else 0

lemma heldWeight_congr (hsize : nodes'.size = nodes.size) (hk : kindAt nodes' = kindAt nodes) :
    heldWeight P nodes' th x r = heldWeight P nodes th x r := by
  rw [heldWeight, heldWeight, hsize, hk]

lemma heldWeight_push {k : Kind} (hsize : nodes'.size = nodes.size + 1)
    (hk : kindAt nodes' = Function.update (kindAt nodes) nodes.size (some k))
    (hcont : k.container? = none) : heldWeight P nodes' th x r = heldWeight P nodes th x r := by
  rw [heldWeight, hsize, sumBelow_succ, hk, Function.update_self, Option.bind_some, hcont,
    if_neg (by simp), Nat.add_zero]
  refine sumBelow_congr fun i hi => ?_
  rw [Function.update_of_ne (Nat.ne_of_lt hi)]

lemma heldWeight_push_container {k : Kind} (hsize : nodes'.size = nodes.size + 1)
    (hk : kindAt nodes' = Function.update (kindAt nodes) nodes.size (some k))
    (hcont : k.container? = some x) :
    heldWeight P nodes' (Function.update th nodes.size τ) x' r =
      heldWeight P nodes th x' r + added P x τ x' r := by
  rw [heldWeight, hsize, sumBelow_succ, hk, Function.update_self, Function.update_self,
    Option.bind_some, hcont]
  congr 1
  · refine sumBelow_congr fun i hi => ?_
    rw [Function.update_of_ne (Nat.ne_of_lt hi), Function.update_of_ne (Nat.ne_of_lt hi)]
  · simp only [added, Option.some.injEq]

/-- What an ambiguous node held itself has to go to an alternative. -/
lemma heldWeight_mark (hsize : nodes'.size = nodes.size) (hy : kindAt nodes y = some (.plain x))
    (hk : kindAt nodes' = Function.update (kindAt nodes) y (some (.ambiguous x))) :
    heldWeight P nodes' th x' r + added P x (th y) x' r = heldWeight P nodes th x' r := by
  have hsum := sumBelow_change (n := nodes.size) (i := y)
    (f := fun i => if (kindAt nodes i).bind Kind.container? = some x' then
      (th i).weight P.grammar P.tokens r else 0)
    (g := fun i => if (kindAt nodes' i).bind Kind.container? = some x' then
      (th i).weight P.grammar P.tokens r else 0)
    (lt_size_of_kindAt hy) fun j _ hj => by simp only [hk, Function.update_of_ne hj]
  simp only [hy, hk, Function.update_self, Option.bind_some, Kind.container?,
    Option.some.injEq] at hsum
  rw [heldWeight, hsize, hk]
  simpa [added, heldWeight] using hsum

lemma heldWeight_update (hi : (kindAt nodes i).bind Kind.container? = some x) :
    heldWeight P nodes (Function.update th i τ) x' r + added P x (th i) x' r =
      heldWeight P nodes th x' r + added P x τ x' r := by
  obtain ⟨k, hk, -⟩ := Option.bind_eq_some_iff.1 hi
  have hsum := sumBelow_change (n := nodes.size) (i := i)
    (f := fun i => if (kindAt nodes i).bind Kind.container? = some x' then
      (th i).weight P.grammar P.tokens r else 0)
    (g := fun j => if (kindAt nodes j).bind Kind.container? = some x' then
      (Function.update th i τ j).weight P.grammar P.tokens r else 0)
    (lt_size_of_kindAt hk) fun j _ hj => by simp only [Function.update_of_ne hj]
  simpa only [hi, Function.update_self, Option.some.injEq, added, heldWeight] using hsum

/-- The readings that are held are those that threads of containers can become. -/
lemma heldWeight_pos_iff :
    0 < heldWeight P nodes th x r ↔
      ∃ i, (kindAt nodes i).bind Kind.container? = some x ∧ (th i).Yields P.grammar P.tokens r := by
  rw [heldWeight, sumBelow_pos_iff]
  constructor
  · rintro ⟨i, -, hpos⟩
    split at hpos
    · next hi => exact ⟨i, hi, weight_pos_iff.1 hpos⟩
    · omega
  · rintro ⟨i, hi, hr⟩
    obtain ⟨k, hk, -⟩ := Option.bind_eq_some_iff.1 hi
    refine ⟨i, lt_size_of_kindAt hk, ?_⟩
    rw [if_pos hi, weight_pos_iff]
    exact hr

/-- A reading that is held once is held in one container. -/
lemma eq_of_heldWeight_le_one (h : heldWeight P nodes th x r ≤ 1)
    (hi : (kindAt nodes i).bind Kind.container? = some x) (hri : (th i).Yields P.grammar P.tokens r)
    (hy : (kindAt nodes y).bind Kind.container? = some x)
    (hry : (th y).Yields P.grammar P.tokens r) : i = y := by
  by_contra hne
  obtain ⟨k, hk, -⟩ := Option.bind_eq_some_iff.1 hi
  obtain ⟨k', hk', -⟩ := Option.bind_eq_some_iff.1 hy
  have hle := add_le_sumBelow (f := fun i => if (kindAt nodes i).bind Kind.container? = some x then
      (th i).weight P.grammar P.tokens r else 0) (lt_size_of_kindAt hk) (lt_size_of_kindAt hk') hne
  have hpi := weight_pos_iff.2 hri
  have hpy := weight_pos_iff.2 hry
  simp only [hi, hy, if_true] at hle
  rw [heldWeight] at h
  omega

lemma weight_le_heldWeight (hi : (kindAt nodes i).bind Kind.container? = some x) :
    (th i).weight P.grammar P.tokens r ≤ heldWeight P nodes th x r := by
  obtain ⟨k, hk, -⟩ := Option.bind_eq_some_iff.1 hi
  have := le_sumBelow (f := fun i => if (kindAt nodes i).bind Kind.container? = some x then
      (th i).weight P.grammar P.tokens r else 0) (lt_size_of_kindAt hk)
  simpa only [hi, if_true, heldWeight] using this

/-! ### Entries to come back to -/

/-- What the builder has saved for an entry: the phrase that it was inside of, and the pieces to the
right of the entry. -/
abbrev Saved :=
  Nat → Phrase × List Piece

variable {saved : Saved} {bs : List Branch} {v : Phrase × List Piece}

/-- What the antecedents that are left at an entry add to the account of a phrase. -/
noncomputable def branchWeight (P : Parsing) (saved : Saved) (b : Branch) (x : Phrase)
    (r : Reading) : Nat :=
  if (saved b.entry).1 = x then threadsWeight P b.site (saved b.entry).2 b.untried r else 0

/-- What all entries to come back to add to the account of a phrase. -/
noncomputable def pendingWeight (P : Parsing) (saved : Saved) (bs : List Branch) (x : Phrase)
    (r : Reading) : Nat :=
  (bs.map fun b => branchWeight P saved b x r).sum

@[simp] lemma pendingWeight_nil : pendingWeight P saved [] x r = 0 := rfl

@[simp] lemma pendingWeight_cons (b : Branch) :
    pendingWeight P saved (b :: bs) x r =
      branchWeight P saved b x r + pendingWeight P saved bs x r := by
  simp [pendingWeight]

lemma pendingWeight_append (bs' : List Branch) :
    pendingWeight P saved (bs ++ bs') x r =
      pendingWeight P saved bs x r + pendingWeight P saved bs' x r := by
  simp [pendingWeight]

lemma branchWeight_of_untried_nil {b : Branch} (h : b.untried = []) :
    branchWeight P saved b x r = 0 := by
  simp [branchWeight, h]

lemma pendingWeight_defer (b : Branch) :
    pendingWeight P saved (Walk.defer b bs) x r =
      branchWeight P saved b x r + pendingWeight P saved bs x r := by
  unfold Walk.defer
  split
  · next h => rw [branchWeight_of_untried_nil h, Nat.zero_add]
  · rw [pendingWeight_cons]

lemma pendingWeight_dead {dead : List Branch} (h : ∀ d ∈ dead, d.untried = []) :
    pendingWeight P saved (dead ++ bs) x r = pendingWeight P saved bs x r := by
  induction dead with
  | nil => rfl
  | cons d dead ih =>
    rw [List.cons_append, pendingWeight_cons, branchWeight_of_untried_nil (h d (by simp)),
      Nat.zero_add]
    exact ih fun d' hd' => h d' (by simp [hd'])

lemma pendingWeight_eq_zero (h : ∀ b ∈ bs, b.untried = []) : pendingWeight P saved bs x r = 0 := by
  have hdead : pendingWeight P saved (bs ++ []) x r = pendingWeight P saved [] x r :=
    pendingWeight_dead h
  simpa using hdead

lemma branchWeight_le_pendingWeight {b : Branch} (hb : b ∈ bs) :
    branchWeight P saved b x r ≤ pendingWeight P saved bs x r := by
  obtain ⟨l, l', rfl⟩ := List.append_of_mem hb
  rw [pendingWeight_append, pendingWeight_cons]
  omega

lemma branchWeight_update_of_ne {b : Branch} (h : b.entry ≠ id) :
    branchWeight P (Function.update saved id v) b x r = branchWeight P saved b x r := by
  simp only [branchWeight, Function.update_of_ne h]

/-- Some antecedent is left at an entry that the walk is going to come back to. -/
def Pending (id : Nat) (bs : List Branch) : Prop :=
  ∃ b ∈ bs, b.entry = id ∧ b.untried ≠ []

instance : Decidable (Pending id bs) :=
  inferInstanceAs (Decidable (∃ b ∈ bs, b.entry = id ∧ b.untried ≠ []))

/-- Saving for an entry that the walk does not come back to changes no account. -/
lemma pendingWeight_update (h : ¬ Pending id bs) :
    pendingWeight P (Function.update saved id v) bs x r = pendingWeight P saved bs x r := by
  unfold pendingWeight
  congr 1
  refine List.map_congr_left fun b hb => ?_
  by_cases hid : b.entry = id
  · have hnil : b.untried = [] := by
      by_contra hne
      exact h ⟨b, hb, hid, hne⟩
    rw [branchWeight_of_untried_nil hnil, branchWeight_of_untried_nil hnil]
  · exact branchWeight_update_of_ne hid

/-- What is added after saving was added before, or comes from what was saved. -/
lemma pendingWeight_update_pos
    (h : 0 < pendingWeight P (Function.update saved id v) bs x r) :
    0 < pendingWeight P saved bs x r ∨
      v.1 = x ∧ ∃ b ∈ bs, b.entry = id ∧ 0 < threadsWeight P b.site v.2 b.untried r := by
  induction bs with
  | nil => simp at h
  | cons b bs ih =>
    rw [pendingWeight_cons] at h
    rw [pendingWeight_cons]
    rcases Nat.eq_zero_or_pos (branchWeight P (Function.update saved id v) b x r) with hb | hb
    · rcases ih (by omega) with hpos | ⟨hv, b', hb', hrest⟩
      · exact Or.inl (by omega)
      · exact Or.inr ⟨hv, b', List.mem_cons_of_mem _ hb', hrest⟩
    · by_cases hid : b.entry = id
      · refine Or.inr ?_
        simp only [branchWeight, hid, Function.update_self] at hb
        split at hb
        · next hv => exact ⟨hv, b, List.mem_cons_self, hid, hb⟩
        · omega
      · rw [branchWeight_update_of_ne hid] at hb
        exact Or.inl (by omega)

/-- A reading that only a branch at the entry was going to store is lost by saving, unless what is
saved has it. -/
lemma pendingWeight_update_lost {b : Branch} (hb : b ∈ bs) (hid : b.entry = id)
    (hpos : 0 < branchWeight P saved b x r) (hone : pendingWeight P saved bs x r ≤ 1)
    (hnew : v.1 = x → ∀ b ∈ bs, b.entry = id → threadsWeight P b.site v.2 b.untried r = 0) :
    pendingWeight P (Function.update saved id v) bs x r = 0 := by
  have hzero : ∀ b' ∈ bs, b'.entry = id →
      branchWeight P (Function.update saved id v) b' x r = 0 := by
    intro b' hb' hid'
    simp only [branchWeight, hid', Function.update_self]
    split
    · next hv => exact hnew hv b' hb' hid'
    · rfl
  obtain ⟨l₁, l₂, rfl⟩ := List.append_of_mem hb
  have hsum : ∀ l : List Branch, pendingWeight P saved l x r = 0 → (∀ b' ∈ l, b' ∈ l₁ ++ b :: l₂) →
      pendingWeight P (Function.update saved id v) l x r = 0 := by
    intro l hl hsub
    by_contra hne
    rcases pendingWeight_update_pos (Nat.pos_of_ne_zero hne) with h | ⟨hv, b', hb', hid', h⟩
    · omega
    · rw [hnew hv b' (hsub b' hb') hid'] at h
      omega
  rw [pendingWeight_append, pendingWeight_cons] at hone
  rw [pendingWeight_append, pendingWeight_cons, hzero b hb hid, hsum l₁ (by omega) (by simp +contextual),
    hsum l₂ (by omega) (by simp +contextual)]

/-! ### The account -/

/-- What a complete item that is about to begin adds to the account of a phrase. -/
noncomputable def freshWeight (P : Parsing) (fresh : Option (Phrase × Thread)) (x : Phrase)
    (r : Reading) : Nat :=
  match fresh with
  | some (x', τ) => added P x' τ x r
  | none => 0

/-- How often the reading of the phrase is stored or going to be. -/
noncomputable def account (P : Parsing) (nodes : Array ForestNode) (th : Nat → Thread)
    (fresh : Option (Phrase × Thread)) (saved : Saved) (bs : List Branch) (x : Phrase)
    (r : Reading) : Nat :=
  heldWeight P nodes th x r + freshWeight P fresh x r + pendingWeight P saved bs x r

section Update

variable {fresh : Option (Phrase × Thread)}
  (hheld : ∀ d ∈ bs, d.entry = id → ∀ r, 0 < threadsWeight P d.site v.2 d.untried r →
    0 < heldWeight P nodes th v.1 r + freshWeight P fresh v.1 r)

include hheld

/-- Saving what a container is going to store as well brings nothing into an account. -/
lemma account_update_pos
    (h : 0 < account P nodes th fresh (Function.update saved id v) bs x r) :
    0 < account P nodes th fresh saved bs x r := by
  rw [account] at h ⊢
  by_contra hzero
  have hpend : 0 < pendingWeight P (Function.update saved id v) bs x r := by omega
  rcases pendingWeight_update_pos hpend with hold | ⟨rfl, d, hd, hid, hnew⟩
  · omega
  · have := hheld d hd hid r hnew
    omega

/-- A reading that was going to be stored once, by a branch at the entry, is lost by saving. -/
lemma account_update_lost {d : Branch} (hd : d ∈ bs) (hid : d.entry = id)
    (hpos : 0 < branchWeight P saved d x r) (hone : account P nodes th fresh saved bs x r ≤ 1) :
    account P nodes th fresh (Function.update saved id v) bs x r = 0 := by
  have hle : branchWeight P saved d x r ≤ pendingWeight P saved bs x r :=
    branchWeight_le_pendingWeight hd
  rw [account] at hone
  have hlost : pendingWeight P (Function.update saved id v) bs x r = 0 := by
    refine pendingWeight_update_lost hd hid hpos (by omega) fun hvx d' hd' hid' => ?_
    by_contra hne
    have hnew := hheld d' hd' hid' r (Nat.pos_of_ne_zero hne)
    rw [hvx] at hnew
    omega
  rw [account, hlost]
  omega

end Update

end ParseForest
