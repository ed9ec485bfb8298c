import ParseForest.Proofs.Forest.Growing
import ParseForest.Proofs.Forest.Overwriting

/-!
# Forests that pack all readings

When nothing is overwritten, the containers of a phrase and its readings belong to each other one to
one, `Forest.Packed`. Whatever is overwritten, the containers spell readings of phrases that are
reached from the whole input, and the leaves are tokens of the input, `Forest.Sound`. So a child
that stands for a phrase is a constituent of the phrase of its parent, and the graph of a forest has
no cycles if no phrase is a constituent of itself, `Sound.acyclic`.
-/

namespace ParseForest

/-- The phrase of a node, or of the node that an alternative belongs to. -/
def Kind.owner? : Kind → Option Phrase
  | leaf _ => none
  | plain x => some x
  | ambiguous x => some x
  | alternative x _ => some x

/-- The children of the container are the pieces of the reading, and it has the production of the
reading, if it has one. -/
def Contains (nodes : Array ForestNode) (i : Nat) (r : Reading) : Prop :=
  piecesOf nodes (childrenAt nodes i) = r.pieces.map some ∧
    ∀ x p, kindAt nodes i = some (.alternative x p) → p = r.prod

namespace Forest

/-- The second node is a child of the first. -/
def Child (F : Forest) (i j : Nat) : Prop :=
  ∃ m, F.nodes[i]? = some m ∧ j ∈ m.children

/-- No node can be reached from itself. -/
def Acyclic (F : Forest) : Prop :=
  ∀ i, ¬ Relation.TransGen F.Child i i

/-- The forest holds readings of the phrases of the parse and nothing else. -/
structure Sound (P : Parsing) (F : Forest) : Prop where
  settled : ∃ th vis, Settled P F.nodes th [] vis
  /-- Leaves are tokens of the input. -/
  leaves : ∀ (i index : Nat) t, F.nodes[i]? = some (.token index t) → P.tokens[index]? = some t
  root : (kindAt F.nodes F.root).bind Kind.piece? = some (.phrase P.whole)
  reached : ∀ i x, (kindAt F.nodes i).bind Kind.phrase? = some x →
    Relation.ReflTransGen (P.grammar.Has P.tokens) P.whole x
  /-- Each container of a phrase spells one of its readings. -/
  reading : ∀ i x, (kindAt F.nodes i).bind Kind.container? = some x →
    ∃ r, P.grammar.Reads P.tokens x r ∧ Contains F.nodes i r

/-- The forest packs the readings of the phrases of the parse. -/
structure Packed (P : Parsing) (F : Forest) : Prop extends Sound P F where
  /-- No container of a phrase spells two of its readings. -/
  reading_unique : ∀ i x r r', (kindAt F.nodes i).bind Kind.container? = some x →
    P.grammar.Reads P.tokens x r ∧ Contains F.nodes i r →
    P.grammar.Reads P.tokens x r' ∧ Contains F.nodes i r' → r = r'
  /-- Each reading of a phrase is spelled by one of its containers. -/
  container : ∀ x r, Known F.nodes x → P.grammar.Reads P.tokens x r →
    ∃! i, (kindAt F.nodes i).bind Kind.container? = some x ∧ Contains F.nodes i r

lemma Packed.existsUnique_reading {P : Parsing} {F : Forest} (h : F.Packed P) {i : Nat} {x : Phrase}
    (hi : (kindAt F.nodes i).bind Kind.container? = some x) :
    ∃! r, P.grammar.Reads P.tokens x r ∧ Contains F.nodes i r := by
  obtain ⟨r, hr⟩ := h.reading i x hi
  exact ⟨r, hr, fun r' hr' => h.reading_unique i x r' r hi hr' hr⟩

end Forest

variable {P : Parsing} {F : Forest} {w : Walk} {b : ForestBuilder} {th : Nat → Thread}
  {nodes : Array ForestNode} {i j : Nat} {x : Phrase} {r : Reading}

/-! ### Exact accounts -/

section Exact

variable {vis : List Nat}

/-- A container spells the reading that its thread has become, and no other of the phrase. -/
lemma Exact.contains_iff (he : Exact P nodes (heldWeight P nodes th)) (h : Settled P nodes th [] vis)
    (hi : (kindAt nodes i).bind Kind.container? = some x) :
    P.grammar.Reads P.tokens x r ∧ Contains nodes i r ↔ (th i).Yields P.grammar P.tokens r := by
  obtain ⟨r₀, hids, hprod, hth⟩ := h.exists_reading hi
  have hknown : Known nodes x := h.known_of_container hi
  constructor
  · rintro ⟨hr, hids', hprod'⟩
    obtain ⟨j, hj, hrj⟩ := (he.yields_iff hknown).1 hr
    obtain ⟨kind, hk, hcont⟩ := Option.bind_eq_some_iff.1 hi
    cases kind with
    | leaf s => cases hcont
    | ambiguous x' => cases hcont
    | plain x' =>
      cases hcont
      rwa [(h.container_of_plain hk).1 hj] at hrj
    | alternative x' p =>
      cases hcont
      have hpieces : r.pieces = r₀.pieces :=
        List.map_injective_iff.2 (fun _ _ => Option.some.inj) (hids'.symm.trans hids)
      rw [hth, Reading.mk.injEq]
      exact ⟨(hprod' _ _ hk).symm.trans (hprod _ hk), hpieces⟩
  · intro hr
    refine ⟨(he.yields_iff hknown).2 ⟨i, hi, hr⟩, ?_⟩
    obtain rfl := (hth r).1 hr
    refine ⟨hids, fun x' p hk => ?_⟩
    obtain rfl : x' = x := by simpa [hk, Kind.container?] using hi
    exact hprod p hk

end Exact

/-! ### Finished forests -/

namespace Parsing.Builds

/-- The root is the node of the whole input. -/
lemma root_eq (hP : P.Complete) (h : P.Builds F w b th) :
    (kindAt F.nodes F.root).bind Kind.piece? = some (.phrase P.whole) := by
  obtain ⟨hroot, hpiece⟩ := h.root_eq_zero hP
  obtain ⟨m, hm, hs⟩ := Option.bind_eq_some_iff.1 hpiece
  rw [hroot, kindAt_eq hm, Option.bind_some, m.piece?_kind, hs]
  rfl

lemma leaves (h : P.Builds F w b th) {index : Nat} {t : Token}
    (ht : F.nodes[i]? = some (.token index t)) : P.tokens[index]? = some t := by
  have hkeeps : ForestBuilder.empty.Keeps P b := .of_feeds h.feeds
  rw [← h.nodes] at ht
  rcases hkeeps.leaves i index t ht with ht | ht
  · simp [ForestBuilder.empty] at ht
  · exact ht

/-- The nodes are those of phrases that occur in the derivations of the input. -/
lemma reached (hP : P.Complete) (h : P.Builds F w b th)
    (hi : (kindAt F.nodes i).bind Kind.phrase? = some x) :
    Relation.ReflTransGen (P.grammar.Has P.tokens) P.whole x := by
  obtain ⟨-, hfits⟩ := Walk.startAt_fits (G := P.grammar) hP.accepting
  obtain ⟨evs, hr⟩ := h.feeds.exists_runs
  obtain ⟨act, pend, done, hfollows, -⟩ :=
    SpineReader.Follows.run hP hr hfits (SpineReader.Follows.empty hP)
  exact hfollows.reached x ((h.settled.known x).1 ⟨i, hi⟩)

/-- Whatever is overwritten, what the containers store are readings. -/
lemma reads (h : P.Builds F w b th) (hi : (kindAt F.nodes i).bind Kind.container? = some x)
    (hr : (th i).Yields P.grammar P.tokens r) : P.grammar.Reads P.tokens x r := by
  have hknown : Known F.nodes x := h.settled.known_of_container hi
  have hheld : 0 < heldWeight P F.nodes th x r := heldWeight_pos_iff.2 ⟨i, hi, hr⟩
  rcases h.judged with ⟨he, -⟩ | ⟨hl, -⟩
  · exact he.sound hknown hheld
  · exact hl.sound x r hknown hheld

/-- A finished forest holds readings only. -/
theorem sound (hP : P.Complete) (h : P.Builds F w b th) : F.Sound P := by
  refine ⟨⟨th, _, h.settled⟩, fun i index t => h.leaves, h.root_eq hP, fun i x => h.reached hP,
    fun i x hi => ?_⟩
  obtain ⟨r, hids, hprod, hth⟩ := h.settled.exists_reading hi
  refine ⟨r, h.reads hi ((hth r).2 rfl), hids, fun x' p hk => ?_⟩
  obtain rfl : x' = x := by simpa [hk, Kind.container?] using hi
  exact hprod p hk

/-- If nothing is overwritten the forest packs all readings. -/
theorem packed (hP : P.Complete) (h : P.Builds F w b th) (hn : P.NeverOverwrites) :
    F.Packed P := by
  obtain ⟨he, -⟩ := h.judged.resolve_right fun hl => hl.2 hn
  refine ⟨h.sound hP, fun i x r r' hi hr hr' => ?_, fun x r hx hr => ?_⟩
  · obtain ⟨r₀, -, -, hth⟩ := h.settled.exists_reading hi
    exact ((hth r).1 ((he.contains_iff h.settled hi).1 hr)).trans
      ((hth r').1 ((he.contains_iff h.settled hi).1 hr')).symm
  · obtain ⟨i, hi, hri⟩ := (he.yields_iff hx).1 hr
    refine ⟨i, ⟨hi, ((he.contains_iff h.settled hi).2 hri).2⟩, ?_⟩
    rintro j ⟨hj, hrj⟩
    refine eq_of_heldWeight_le_one (r := r) ?_ hj ((he.contains_iff h.settled hj).1 ⟨hr, hrj⟩) hi hri
    rw [he x hx]
    exact readsWeight_le_one x

end Parsing.Builds

/-! ### The graph -/

namespace Forest

lemma child_iff : F.Child i j ↔ j ∈ childrenAt F.nodes i := by
  unfold Child childrenAt
  cases F.nodes[i]? with
  | none => simp
  | some m => simp

lemma child_iff_mem {m : ForestNode} (hm : F.nodes[i]? = some m) :
    F.Child i j ↔ j ∈ m.children := by
  rw [child_iff, childrenAt_eq hm]

lemma childrenAt_leaf {s : Piece} (h : kindAt nodes i = some (.leaf s)) :
    childrenAt nodes i = [] := by
  obtain ⟨m, hm, hk⟩ := Option.map_eq_some_iff.1 h
  cases m with
  | nonterminal n lo hi ambiguous ids => cases ambiguous <;> cases hk
  | alternative => cases hk
  | _ => simp [childrenAt, hm, ForestNode.children]

namespace Sound

/-- A child of a node is a constituent of its phrase, or a leaf, or one of its alternatives. -/
lemma child_cases (h : F.Sound P) (hc : F.Child i j) :
    ∃ x, (kindAt F.nodes i).bind Kind.owner? = some x ∧
      ((∃ y, (kindAt F.nodes j).bind Kind.owner? = some y ∧ P.grammar.Has P.tokens x y) ∨
        (∃ s, kindAt F.nodes j = some (.leaf s)) ∨
        kindAt F.nodes i = some (.ambiguous x) ∧
          ∃ p, kindAt F.nodes j = some (.alternative x p)) := by
  obtain ⟨th, vis, hset⟩ := h.settled
  rw [child_iff] at hc
  -- The pieces of a container are those of a reading.
  have piece : ∀ {x}, (kindAt F.nodes i).bind Kind.container? = some x →
      (∃ y, (kindAt F.nodes j).bind Kind.owner? = some y ∧ P.grammar.Has P.tokens x y) ∨
        ∃ s, kindAt F.nodes j = some (.leaf s) := by
    intro x hi
    obtain ⟨r, hr, hids, -⟩ := h.reading i x hi
    have hmem : (kindAt F.nodes j).bind Kind.piece? ∈ r.pieces.map some := by
      rw [← hids, piecesOf_eq]
      exact List.mem_map_of_mem hc
    obtain ⟨s, hs, heq⟩ := List.mem_map.1 hmem
    obtain ⟨kind, hk, hpiece⟩ := Option.bind_eq_some_iff.1 heq.symm
    cases kind with
    | leaf s' => exact Or.inr ⟨s', hk⟩
    | plain y =>
      cases hpiece
      exact Or.inl ⟨y, by simp [hk, Kind.owner?], r, hr, hs⟩
    | ambiguous y =>
      cases hpiece
      exact Or.inl ⟨y, by simp [hk, Kind.owner?], r, hr, hs⟩
    | alternative => cases hpiece
  cases hk : kindAt F.nodes i with
  | none =>
    obtain hi := Option.map_eq_none_iff.1 hk
    simp [childrenAt, hi] at hc
  | some kind =>
    cases kind with
    | leaf s => simp [childrenAt_leaf hk] at hc
    | plain x => exact ⟨x, rfl, (piece (by simp [hk, Kind.container?])).imp_right Or.inl⟩
    | alternative x p => exact ⟨x, rfl, (piece (by simp [hk, Kind.container?])).imp_right Or.inl⟩
    | ambiguous x => exact ⟨x, rfl, Or.inr (Or.inr ⟨rfl, (hset.alternatives i x hk).2 j hc⟩)⟩

/-- What is reached from a node is reached from its phrase, or a leaf, or one of its
alternatives. -/
lemma path_cases (h : F.Sound P) (hp : Relation.TransGen F.Child i j) :
    ∃ x, (kindAt F.nodes i).bind Kind.owner? = some x ∧
      ((∃ y, (kindAt F.nodes j).bind Kind.owner? = some y ∧
          Relation.TransGen (P.grammar.Has P.tokens) x y) ∨
        (∃ s, kindAt F.nodes j = some (.leaf s)) ∨
        kindAt F.nodes i = some (.ambiguous x) ∧
          ∃ p, kindAt F.nodes j = some (.alternative x p)) := by
  induction hp with
  | single hc =>
    obtain ⟨x, hx, hcase⟩ := h.child_cases hc
    exact ⟨x, hx, hcase.imp_left fun ⟨y, hy, hxy⟩ => ⟨y, hy, .single hxy⟩⟩
  | tail _ hc ih =>
    obtain ⟨x, hx, hpath⟩ := ih
    obtain ⟨y, hy, hstep⟩ := h.child_cases hc
    refine ⟨x, hx, ?_⟩
    rcases hpath with ⟨y', hy', hxy⟩ | ⟨s, hs⟩ | ⟨hi, p, hj⟩
    · obtain rfl := Option.some.inj (hy.symm.trans hy')
      rcases hstep with ⟨z, hz, hyz⟩ | hleaf | ⟨-, p, hk⟩
      · exact Or.inl ⟨z, hz, hxy.tail hyz⟩
      · exact Or.inr (Or.inl hleaf)
      · exact Or.inl ⟨y, by simp [hk, Kind.owner?], hxy⟩
    · simp [hs, Kind.owner?] at hy
    · obtain rfl : y = x := by simpa [hj, Kind.owner?] using hy.symm
      rcases hstep with ⟨z, hz, hyz⟩ | hleaf | ⟨hamb, -⟩
      · exact Or.inl ⟨z, hz, .single hyz⟩
      · exact Or.inr (Or.inl hleaf)
      · rw [hj] at hamb
        cases hamb

/-- If no phrase of the input is a constituent of itself, no node is reached from itself. -/
theorem acyclic (h : F.Sound P) (hac : P.grammar.Acyclic P.tokens P.whole) : F.Acyclic := by
  intro i hii
  obtain ⟨x, hx, ⟨y, hy, hxy⟩ | ⟨s, hs⟩ | ⟨hamb, p, halt⟩⟩ := h.path_cases hii
  · obtain rfl := Option.some.inj (hx.symm.trans hy)
    have hreached : ∃ j, (kindAt F.nodes j).bind Kind.phrase? = some x := by
      obtain ⟨kind, hk, howner⟩ := Option.bind_eq_some_iff.1 hx
      cases kind with
      | leaf => cases howner
      | plain => exact ⟨i, by rw [hk, ← howner]; rfl⟩
      | ambiguous => exact ⟨i, by rw [hk, ← howner]; rfl⟩
      | alternative x' p =>
        cases howner
        obtain ⟨th, vis, hset⟩ := h.settled
        obtain ⟨y, hy, -⟩ := hset.owned i x p hk
        exact ⟨y, by simp [hy, Kind.phrase?]⟩
    obtain ⟨j, hj⟩ := hreached
    exact hac x (h.reached j x hj) hxy
  · simp [hs, Kind.owner?] at hx
  · rw [hamb] at halt
    cases halt

end Sound

end Forest

end ParseForest
