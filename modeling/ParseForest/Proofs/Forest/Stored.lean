import ParseForest.Proofs.Forest.Items
import Mathlib.Data.List.Forall2
import Mathlib.Data.List.Nodup
import Mathlib.Tactic.Choose

/-!
# What the nodes of a finished forest store

At the end no container is worked on, and the account of a phrase counts the containers of its node.
If all accounts are exact the forest is exhaustive, and if a reading is missing in one it is not.
-/

namespace ParseForest

variable {P : Parsing} {nodes : Array ForestNode} {th : Nat → Thread} {act vis : List Nat}
  {x : Phrase} {r : Reading} {i y root : Nat}

/-! ### The containers of a phrase -/

namespace Settled

/-- A phrase with one reading has its node as container. -/
lemma container_of_plain (h : Settled P nodes th act vis) (hy : kindAt nodes y = some (.plain x)) :
    (kindAt nodes i).bind Kind.container? = some x ↔ i = y := by
  have hphy : (kindAt nodes y).bind Kind.phrase? = some x := by simp [hy, Kind.phrase?]
  constructor
  · intro hi
    obtain ⟨kind, hk, hcont⟩ := Option.bind_eq_some_iff.1 hi
    cases kind with
    | leaf s => cases hcont
    | ambiguous x' => cases hcont
    | plain x' =>
      cases hcont
      exact h.unique i y x (by simp [hk, Kind.phrase?]) hphy
    | alternative x' p =>
      cases hcont
      obtain ⟨y', hy', -⟩ := h.owned i x p hk
      obtain rfl := h.unique y' y x (by simp [hy', Kind.phrase?]) hphy
      rw [hy] at hy'
      cases hy'
  · rintro rfl
    simp [hy, Kind.container?]

/-- A phrase with alternatives has these as containers. -/
lemma container_of_ambiguous (h : Settled P nodes th act vis)
    (hy : kindAt nodes y = some (.ambiguous x)) :
    (kindAt nodes i).bind Kind.container? = some x ↔ i ∈ childrenAt nodes y := by
  have hphy : (kindAt nodes y).bind Kind.phrase? = some x := by simp [hy, Kind.phrase?]
  constructor
  · intro hi
    obtain ⟨kind, hk, hcont⟩ := Option.bind_eq_some_iff.1 hi
    cases kind with
    | leaf s => cases hcont
    | ambiguous x' => cases hcont
    | plain x' =>
      cases hcont
      obtain rfl := h.unique i y x (by simp [hk, Kind.phrase?]) hphy
      rw [hk] at hy
      cases hy
    | alternative x' p =>
      cases hcont
      obtain ⟨y', hy', hmem⟩ := h.owned i x p hk
      obtain rfl := h.unique y' y x (by simp [hy', Kind.phrase?]) hphy
      exact hmem
  · intro hi
    obtain ⟨p, hp⟩ := (h.alternatives y x hy).2 i hi
    simp [hp, Kind.container?]

/-- When nothing is worked on, each container has a single reading. -/
lemma exists_reading (h : Settled P nodes th [] vis)
    (hi : (kindAt nodes i).bind Kind.container? = some x) :
    ∃ r : Reading, piecesOf nodes (childrenAt nodes i) = r.pieces.map some ∧
      (∀ q, kindAt nodes i = some (.alternative x q) → q = r.prod) ∧
      ∀ r', (th i).Yields P.grammar P.tokens r' ↔ r' = r := by
  obtain ⟨p, tail, hids, hq, hth⟩ := (h.sealed i x hi).resolve_left (by simp)
  exact ⟨⟨p, tail⟩, hids, fun q hk => hq x q hk, hth⟩

end Settled

/-! ### Nodes of nonterminals -/

lemma kindAt_of_nonterminal {n : NonTerminal} {lo hi : Nat} {children : List Nat}
    (h : nodes[i]? = some (.nonterminal n lo hi false children)) :
    kindAt nodes i = some (.plain ⟨n, lo, hi⟩) ∧ childrenAt nodes i = children :=
  ⟨kindAt_eq h, childrenAt_eq h⟩

lemma kindAt_of_ambiguous {n : NonTerminal} {lo hi : Nat} {children : List Nat}
    (h : nodes[i]? = some (.nonterminal n lo hi true children)) :
    kindAt nodes i = some (.ambiguous ⟨n, lo, hi⟩) ∧ childrenAt nodes i = children :=
  ⟨kindAt_eq h, childrenAt_eq h⟩

lemma Exact.yields_iff (he : Exact P nodes (heldWeight P nodes th)) (hx : Known nodes x) :
    P.grammar.Reads P.tokens x r ↔ ∃ i, (kindAt nodes i).bind Kind.container? = some x ∧
      (th i).Yields P.grammar P.tokens r := by
  rw [← heldWeight_pos_iff, he x hx, readsWeight_pos_iff]

/-- A forest with exact accounts is exhaustive. -/
theorem Exact.exhaustive (h : Settled P nodes th [] vis)
    (he : Exact P nodes (heldWeight P nodes th)) (root : Nat) :
    Forest.Exhaustive ⟨nodes, root⟩ P.grammar P.tokens := by
  intro y n lo hi ambiguous children hnode
  cases ambiguous with
  | false =>
    obtain ⟨hy, rfl⟩ := kindAt_of_nonterminal hnode
    have hcont := fun i => h.container_of_plain (i := i) hy
    obtain ⟨r, hids, -, hth⟩ := h.exists_reading ((hcont y).2 rfl)
    refine ⟨[r], List.nodup_singleton r, ⟨r, rfl, hids⟩, fun r' => ?_⟩
    rw [he.yields_iff ⟨y, by simp [hy, Kind.phrase?]⟩, List.mem_singleton, ← hth]
    constructor
    · exact fun hr => ⟨y, (hcont y).2 rfl, hr⟩
    · rintro ⟨i, hi, hr⟩
      rwa [(hcont i).1 hi] at hr
  | true =>
    obtain ⟨hy, rfl⟩ := kindAt_of_ambiguous hnode
    have hknown : Known nodes ⟨n, lo, hi⟩ := ⟨y, by simp [hy, Kind.phrase?]⟩
    have hcont := fun i => h.container_of_ambiguous (i := i) hy
    have : Nonempty Reading := ⟨⟨0, []⟩⟩
    choose! f hf using fun i (hi : i ∈ childrenAt nodes y) => h.exists_reading ((hcont i).2 hi)
    refine ⟨(childrenAt nodes y).map f, ?_, ?_, fun r => ?_⟩
    · refine List.Nodup.map_on (fun i hi j hj hij => ?_) (h.alternatives y _ hy).1
      refine eq_of_heldWeight_le_one (r := f i) ?_ ((hcont i).2 hi) (((hf i hi).2.2 _).2 rfl)
        ((hcont j).2 hj) (((hf j hj).2.2 _).2 hij)
      rw [he _ hknown]
      exact readsWeight_le_one _
    · refine List.forall₂_map_right_iff.2 (List.forall₂_same.2 fun i hi => ?_)
      obtain ⟨p, hp⟩ := (h.alternatives y _ hy).2 i hi
      obtain ⟨hids, hq, -⟩ := hf i hi
      obtain rfl := hq p hp
      exact ⟨n, lo, _, _, kindAt_eq_alternative_iff.1 hp, hids⟩
    · rw [he.yields_iff hknown, List.mem_map]
      constructor
      · rintro ⟨i, hi, rfl⟩
        exact ⟨i, (hcont i).2 hi, ((hf i hi).2.2 _).2 rfl⟩
      · rintro ⟨i, hi, hr⟩
        exact ⟨i, (hcont i).1 hi, (((hf i ((hcont i).1 hi)).2.2 r).1 hr).symm⟩

/-- A forest that misses a reading is not exhaustive. -/
theorem Lossy.not_exhaustive (h : Settled P nodes th [] vis)
    (hl : Lossy P nodes (heldWeight P nodes th)) (root : Nat) :
    ¬ Forest.Exhaustive ⟨nodes, root⟩ P.grammar P.tokens := by
  intro hex
  obtain ⟨x, r, ⟨y, hy⟩, hr, hzero⟩ := hl.lost
  have hlost : ∀ i, (kindAt nodes i).bind Kind.container? = some x →
      ¬ (th i).Yields P.grammar P.tokens r := by
    intro i hi hri
    have hpos := heldWeight_pos_iff.2 ⟨i, hi, hri⟩
    omega
  obtain ⟨kind, hk, hphrase⟩ := Option.bind_eq_some_iff.1 hy
  cases kind with
  | leaf s => cases hphrase
  | alternative x' p => cases hphrase
  | plain x' =>
    cases hphrase
    have hcont := (h.container_of_plain (i := y) hk).2 rfl
    obtain ⟨r', hids, -, hth⟩ := h.exists_reading hcont
    obtain ⟨rs, -, ⟨r₀, rfl, -⟩, hrs⟩ := hex y _ _ _ _ _ (kindAt_eq_plain_iff.1 hk)
    -- What the node stores is a reading, and there is only one.
    have hread : P.grammar.Reads P.tokens x r' :=
      hl.sound x r' ⟨y, hy⟩ (heldWeight_pos_iff.2 ⟨y, hcont, (hth r').2 rfl⟩)
    have heq := List.mem_singleton.1 ((hrs r).2 hr)
    have heq' := List.mem_singleton.1 ((hrs r').2 hread)
    exact hlost y hcont ((hth r).2 (heq.trans heq'.symm))
  | ambiguous x' =>
    cases hphrase
    obtain ⟨rs, -, hstores, hrs⟩ := hex y _ _ _ _ _ (kindAt_eq_ambiguous_iff.1 hk)
    have hstored : ∃ i ∈ childrenAt nodes y, ∃ n lo hi ids,
        nodes[i]? = some (.alternative n r.prod lo hi ids) ∧
          piecesOf nodes ids = r.pieces.map some := by
      obtain ⟨l, hl, rfl⟩ := List.getElem_of_mem ((hrs r).2 hr)
      exact ⟨_, List.getElem_mem _,
        List.Forall₂.get hstores (List.Forall₂.length_eq hstores ▸ hl) hl⟩
    obtain ⟨i, hi, n, lo, hi', ids, hnode, hids⟩ := hstored
    obtain ⟨p, hp⟩ := (h.alternatives y x hk).2 i hi
    have hcont : (kindAt nodes i).bind Kind.container? = some x := by simp [hp, Kind.container?]
    have hnode' := hp
    rw [kindAt_eq_alternative_iff, hnode] at hnode'
    simp only [Option.some.injEq, ForestNode.alternative.injEq] at hnode'
    obtain ⟨-, rfl, -, -, rfl⟩ := hnode'
    obtain ⟨r', hids', hq, hth⟩ := h.exists_reading hcont
    have hpieces : r.pieces = r'.pieces :=
      List.map_injective_iff.2 (fun _ _ => Option.some.inj) (hids.symm.trans hids')
    refine hlost i hcont ((hth r).2 ?_)
    rw [Reading.mk.injEq]
    exact ⟨hq _ hp, hpieces⟩

end ParseForest
