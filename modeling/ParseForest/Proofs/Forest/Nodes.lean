import ParseForest.Forest.Builder
import ParseForest.Proofs.Forest.Weights
import Mathlib.Logic.Function.Basic

/-!
# What the nodes of a builder mean

The nodes are looked at as two functions, of what kind a node is and which children it has, so that
what an operation does is an update of these functions. A node whose children are the pieces of a
reading is a container: a nonterminal that is not ambiguous, or an alternative. `Settled` says that
a container that is not worked on stores a single reading, and where alternatives belong; each
operation keeps it, and the weight of the containers changes by what the operation adds.
-/

namespace ParseForest

/-- What a node is, apart from its children. -/
inductive Kind where
  | leaf (s : Piece)
  | plain (x : Phrase)
  | ambiguous (x : Phrase)
  | alternative (x : Phrase) (p : Nat)
deriving DecidableEq

namespace Kind

/-- What the node stands for as a child. -/
def piece? : Kind → Option Piece
  | leaf s => some s
  | plain x => some (.phrase x)
  | ambiguous x => some (.phrase x)
  | alternative _ _ => none

def phrase? : Kind → Option Phrase
  | plain x => some x
  | ambiguous x => some x
  | _ => none

/-- The phrase whose reading the children spell. -/
def container? : Kind → Option Phrase
  | plain x => some x
  | alternative x _ => some x
  | _ => none

end Kind

def ForestNode.kind : ForestNode → Kind
  | .token index _ => .leaf (.token index)
  | .epsilon position => .leaf (.epsilon position)
  | .nonterminal n lo hi false _ => .plain ⟨n, lo, hi⟩
  | .nonterminal n lo hi true _ => .ambiguous ⟨n, lo, hi⟩
  | .alternative n p lo hi _ => .alternative ⟨n, lo, hi⟩ p

def kindAt (nodes : Array ForestNode) (i : Nat) : Option Kind :=
  nodes[i]?.map ForestNode.kind

def childrenAt (nodes : Array ForestNode) (i : Nat) : List Nat :=
  (nodes[i]?.map ForestNode.children).getD []

variable {nodes nodes' : Array ForestNode} {i j y n : Nat} {x x' : Phrase} {p : Nat}

/-! ### Looking up -/

lemma ForestNode.piece?_kind (m : ForestNode) : m.kind.piece? = m.piece? := by
  cases m with
  | nonterminal n lo hi ambiguous ids => cases ambiguous <;> rfl
  | _ => rfl

lemma ForestNode.phrase?_kind (n : NonTerminal) (lo hi : Nat) (ambiguous : Bool) (ids : List Nat) :
    (nonterminal n lo hi ambiguous ids).kind.phrase? = some ⟨n, lo, hi⟩ := by
  cases ambiguous <;> rfl

lemma kindAt_eq {m : ForestNode} (h : nodes[i]? = some m) : kindAt nodes i = some m.kind := by
  rw [kindAt, h, Option.map_some]

lemma childrenAt_eq {m : ForestNode} (h : nodes[i]? = some m) :
    childrenAt nodes i = m.children := by
  rw [childrenAt, h, Option.map_some, Option.getD_some]

lemma piecesOf_eq (nodes : Array ForestNode) (ids : List Nat) :
    piecesOf nodes ids = ids.map fun i => (kindAt nodes i).bind Kind.piece? := by
  refine List.map_congr_left fun i _ => ?_
  unfold kindAt
  cases nodes[i]? with
  | none => rfl
  | some m => exact m.piece?_kind.symm

lemma lt_size_of_kindAt {k : Kind} (h : kindAt nodes i = some k) : i < nodes.size := by
  obtain ⟨m, hm, -⟩ := Option.map_eq_some_iff.1 h
  exact (Array.getElem?_eq_some_iff.1 hm).1

lemma kindAt_size : kindAt nodes nodes.size = none := by
  simp [kindAt]

lemma kindAt_eq_plain_iff :
    kindAt nodes i = some (.plain x) ↔
      nodes[i]? = some (.nonterminal x.symbol x.lo x.hi false (childrenAt nodes i)) := by
  unfold kindAt childrenAt
  cases hm : nodes[i]? with
  | none => simp
  | some m =>
    cases m with
    | nonterminal n lo hi ambiguous ids =>
      obtain ⟨symbol, lo', hi'⟩ := x
      cases ambiguous <;> simp [ForestNode.kind, ForestNode.children]
    | _ => simp [ForestNode.kind]

lemma kindAt_eq_ambiguous_iff :
    kindAt nodes i = some (.ambiguous x) ↔
      nodes[i]? = some (.nonterminal x.symbol x.lo x.hi true (childrenAt nodes i)) := by
  unfold kindAt childrenAt
  cases hm : nodes[i]? with
  | none => simp
  | some m =>
    cases m with
    | nonterminal n lo hi ambiguous ids =>
      obtain ⟨symbol, lo', hi'⟩ := x
      cases ambiguous <;> simp [ForestNode.kind, ForestNode.children]
    | _ => simp [ForestNode.kind]

lemma kindAt_eq_alternative_iff :
    kindAt nodes i = some (.alternative x p) ↔
      nodes[i]? = some (.alternative x.symbol p x.lo x.hi (childrenAt nodes i)) := by
  unfold kindAt childrenAt
  cases hm : nodes[i]? with
  | none => simp
  | some m =>
    obtain ⟨symbol, lo', hi'⟩ := x
    cases m with
    | nonterminal n lo hi ambiguous ids => cases ambiguous <;> simp [ForestNode.kind]
    | alternative n p' lo hi ids => simp [ForestNode.kind, ForestNode.children]; tauto
    | _ => simp [ForestNode.kind]

section Pieces

variable {s : Piece} {index position : Nat}

lemma exists_node_of_piece (h : (kindAt nodes i).bind Kind.piece? = some s) :
    ∃ m, nodes[i]? = some m ∧ m.piece? = some s := by
  obtain ⟨kind, hk, hs⟩ := Option.bind_eq_some_iff.1 h
  obtain ⟨m, hm, rfl⟩ := Option.map_eq_some_iff.1 hk
  exact ⟨m, hm, m.piece?_kind ▸ hs⟩

lemma exists_token_of_kind {m : ForestNode} (h : m.kind = .leaf (.token index)) :
    ∃ v, m = .token index v := by
  cases m with
  | token index' v =>
    cases h
    exact ⟨v, rfl⟩
  | nonterminal n lo hi ambiguous ids => cases ambiguous <;> cases h
  | _ => cases h

lemma node_of_token (h : (kindAt nodes i).bind Kind.piece? = some (.token index)) :
    kindAt nodes i = some (.leaf (.token index)) ∧ ∃ v, nodes[i]? = some (.token index v) := by
  obtain ⟨m, hm, hs⟩ := exists_node_of_piece h
  cases m with
  | token index' v =>
    cases hs
    exact ⟨kindAt_eq hm, v, hm⟩
  | _ => cases hs

lemma node_of_epsilon (h : (kindAt nodes i).bind Kind.piece? = some (.epsilon position)) :
    kindAt nodes i = some (.leaf (.epsilon position)) ∧ nodes[i]? = some (.epsilon position) := by
  obtain ⟨m, hm, hs⟩ := exists_node_of_piece h
  cases m with
  | epsilon position' =>
    cases hs
    exact ⟨kindAt_eq hm, hm⟩
  | _ => cases hs

lemma phrase_of_piece (h : (kindAt nodes i).bind Kind.piece? = some (.phrase x)) :
    (kindAt nodes i).bind Kind.phrase? = some x := by
  obtain ⟨m, hm, hs⟩ := exists_node_of_piece h
  cases m with
  | nonterminal n lo hi ambiguous ids =>
    cases hs
    rw [kindAt_eq hm, Option.bind_some, ForestNode.phrase?_kind]
  | _ => cases hs

end Pieces

/-- What a new value of a function adds. -/
lemma update_eq_some_iff {f : Nat → Option Kind} (hn : f n = none) {k k' : Kind} :
    Function.update f n (some k) i = some k' ↔ f i = some k' ∨ (i = n ∧ k = k') := by
  by_cases h : i = n
  · subst h
    simp [hn]
  · simp [h]

lemma bind_update_eq_some_iff {f : Nat → Option Kind} (hn : f n = none) {k : Kind}
    {g : Kind → Option Phrase} :
    (Function.update f n (some k) i).bind g = some x ↔
      (f i).bind g = some x ∨ (i = n ∧ g k = some x) := by
  by_cases h : i = n
  · subst h
    simp [hn]
  · simp [h]

/-! ### Operations -/

lemma kindAt_push (m : ForestNode) :
    kindAt (nodes.push m) = Function.update (kindAt nodes) nodes.size (some m.kind) := by
  funext j
  by_cases h : j = nodes.size
  · subst h
    simp [kindAt]
  · simp [kindAt, Array.getElem?_push, h]

lemma childrenAt_push (m : ForestNode) :
    childrenAt (nodes.push m) = Function.update (childrenAt nodes) nodes.size m.children := by
  funext j
  by_cases h : j = nodes.size
  · subst h
    simp [childrenAt]
  · simp [childrenAt, Array.getElem?_push, h]

lemma kindAt_withChildren (f : List Nat → List Nat) :
    kindAt (nodes.modify i (ForestBuilder.withChildren f)) = kindAt nodes := by
  funext j
  unfold kindAt
  rw [Array.getElem?_modify]
  split
  · cases nodes[j]? with
    | none => rfl
    | some m =>
      cases m with
      | nonterminal n lo hi ambiguous ids => cases ambiguous <;> rfl
      | _ => rfl
  · rfl

lemma childrenAt_withChildren {k : Kind} (hk : kindAt nodes i = some k) (hl : ∀ s, k ≠ .leaf s)
    (f : List Nat → List Nat) :
    childrenAt (nodes.modify i (ForestBuilder.withChildren f)) =
      Function.update (childrenAt nodes) i (f (childrenAt nodes i)) := by
  obtain ⟨m, hm, rfl⟩ := Option.map_eq_some_iff.1 hk
  funext j
  by_cases h : j = i
  · subst h
    cases m with
    | token index t => exact absurd rfl (hl _)
    | epsilon position => exact absurd rfl (hl _)
    | _ => simp [childrenAt, Array.getElem?_modify, hm, ForestBuilder.withChildren,
        ForestNode.children]
  · simp [childrenAt, Array.getElem?_modify, Ne.symm h, h]

lemma kindAt_markAmbiguous (h : kindAt nodes i = some (.plain x)) :
    kindAt (nodes.modify i ForestBuilder.markAmbiguous) =
      Function.update (kindAt nodes) i (some (.ambiguous x)) := by
  rw [kindAt_eq_plain_iff] at h
  funext j
  by_cases hj : j = i
  · subst hj
    simp [kindAt, Array.getElem?_modify, h, ForestBuilder.markAmbiguous, ForestNode.kind]
  · simp [kindAt, Array.getElem?_modify, Ne.symm hj, hj]

lemma childrenAt_markAmbiguous :
    childrenAt (nodes.modify i ForestBuilder.markAmbiguous) = childrenAt nodes := by
  funext j
  unfold childrenAt
  rw [Array.getElem?_modify]
  split
  · cases nodes[j]? with
    | none => rfl
    | some m => cases m <;> rfl
  · rfl

lemma modify_modify (f g : ForestNode → ForestNode) :
    (nodes.modify i f).modify i g = nodes.modify i fun m => g (f m) := by
  apply Array.ext_getElem?
  intro j
  simp only [Array.getElem?_modify]
  split
  · cases nodes[j]? <;> rfl
  · rfl

/-! ### Nodes keep standing for the same -/

/-- Nodes stand for what they stood for, and stay ambiguous once they are. -/
def Evolves (nodes nodes' : Array ForestNode) : Prop :=
  ∀ i k, kindAt nodes i = some k → ∃ k', kindAt nodes' i = some k' ∧ k'.piece? = k.piece? ∧
    ∀ x, k = .ambiguous x → k' = .ambiguous x

lemma Evolves.of_kindAt_eq (h : kindAt nodes' = kindAt nodes) : Evolves nodes nodes' := by
  intro i k hk
  exact ⟨k, by rw [h, hk], rfl, fun x hx => hx⟩

lemma Evolves.trans {nodes'' : Array ForestNode} (h : Evolves nodes nodes')
    (h' : Evolves nodes' nodes'') : Evolves nodes nodes'' := by
  intro i k hk
  obtain ⟨k', hk', hp, ha⟩ := h i k hk
  obtain ⟨k'', hk'', hp', ha'⟩ := h' i k' hk'
  exact ⟨k'', hk'', hp'.trans hp, fun x hx => ha' x (ha x hx)⟩

lemma Evolves.push (m : ForestNode) : Evolves nodes (nodes.push m) := by
  intro i k hk
  refine ⟨k, ?_, rfl, fun x hx => hx⟩
  rw [kindAt_push, Function.update_of_ne (Nat.ne_of_lt (lt_size_of_kindAt hk)), hk]

lemma Evolves.mark (h : kindAt nodes y = some (.plain x))
    (hk : kindAt nodes' = Function.update (kindAt nodes) y (some (.ambiguous x))) :
    Evolves nodes nodes' := by
  intro i k hki
  by_cases hi : i = y
  · subst hi
    rw [h] at hki
    cases hki
    exact ⟨.ambiguous x, by rw [hk, Function.update_self], rfl, fun x' hx' => by cases hx'⟩
  · exact ⟨k, by rw [hk, Function.update_of_ne hi, hki], rfl, fun x hx => hx⟩

/-- What a node that becomes ambiguous stands for is the same. -/
lemma Evolves.markAmbiguous (i : Nat) :
    Evolves nodes (nodes.modify i ForestBuilder.markAmbiguous) := by
  intro j k hk
  obtain ⟨m, hm, rfl⟩ := Option.map_eq_some_iff.1 hk
  by_cases hi : i = j
  · refine ⟨(ForestBuilder.markAmbiguous m).kind, ?_, ?_, ?_⟩
    · simp [kindAt, Array.getElem?_modify, hi, hm]
    · cases m with
      | nonterminal n lo hi ambiguous ids => cases ambiguous <;> rfl
      | _ => rfl
    · intro x hx
      cases m with
      | nonterminal n lo hi ambiguous ids =>
        cases ambiguous with
        | true => exact hx
        | false => cases hx
      | _ => cases hx
  · exact ⟨m.kind, by simp [kindAt, Array.getElem?_modify, hi, hm], rfl, fun _ hx => hx⟩

lemma Evolves.ambiguous (h : Evolves nodes nodes') (hy : kindAt nodes y = some (.ambiguous x)) :
    kindAt nodes' y = some (.ambiguous x) := by
  obtain ⟨k, hk, -, ha⟩ := h y _ hy
  rw [hk, ha x rfl]

/-- What children spell, they keep spelling. -/
lemma Evolves.piecesOf_eq (h : Evolves nodes nodes') {ids : List Nat} {ss : List Piece}
    (hids : piecesOf nodes ids = ss.map some) : piecesOf nodes' ids = ss.map some := by
  rw [← hids, ParseForest.piecesOf_eq, ParseForest.piecesOf_eq]
  refine List.map_congr_left fun i hi => ?_
  have hsome : (kindAt nodes i).bind Kind.piece? ∈ ss.map some := by
    rw [← hids, ParseForest.piecesOf_eq]
    exact List.mem_map_of_mem hi
  obtain ⟨s, -, hs⟩ := List.mem_map.1 hsome
  obtain ⟨k, hk, -⟩ := Option.bind_eq_some_iff.1 hs.symm
  obtain ⟨k', hk', hp, -⟩ := h i k hk
  rw [hk, hk', Option.bind_some, Option.bind_some, hp]

/-! ### Settled nodes -/

variable {P : Parsing} {th th' : Nat → Thread} {act act' visited : List Nat}

/-- The container stores a single reading, which is what its thread has become. -/
def Sealed (P : Parsing) (nodes : Array ForestNode) (th : Nat → Thread) (i : Nat) : Prop :=
  ∃ p tail, piecesOf nodes (childrenAt nodes i) = tail.map some ∧
    (∀ x q, kindAt nodes i = some (.alternative x q) → q = p) ∧
    ∀ r, (th i).Yields P.grammar P.tokens r ↔ r = ⟨p, tail⟩

/-- The nodes of a builder while it works on the containers `act`. -/
structure Settled (P : Parsing) (nodes : Array ForestNode) (th : Nat → Thread)
    (act visited : List Nat) : Prop where
  /-- A phrase has one node. -/
  unique : ∀ i j x, (kindAt nodes i).bind Kind.phrase? = some x →
    (kindAt nodes j).bind Kind.phrase? = some x → i = j
  /-- The children of an ambiguous node are alternatives of its phrase. -/
  alternatives : ∀ y x, kindAt nodes y = some (.ambiguous x) →
    (childrenAt nodes y).Nodup ∧
      ∀ j ∈ childrenAt nodes y, ∃ p, kindAt nodes j = some (.alternative x p)
  /-- Alternatives are children of the node of their phrase. -/
  owned : ∀ j x p, kindAt nodes j = some (.alternative x p) →
    ∃ y, kindAt nodes y = some (.ambiguous x) ∧ j ∈ childrenAt nodes y
  /-- The phrases that have nodes are those of the finish entries that were gone into. -/
  known : ∀ x, (∃ y, (kindAt nodes y).bind Kind.phrase? = some x) ↔
    ∃ id ∈ visited, P.chart.place? id = some ⟨.finish x.symbol, x.lo, x.hi⟩
  /-- A container that is not worked on stores a single reading. -/
  sealed : ∀ i x, (kindAt nodes i).bind Kind.container? = some x →
    i ∈ act ∨ Sealed P nodes th i

lemma Sealed.of_evolves (h : Sealed P nodes th i) (hev : Evolves nodes nodes')
    (hk : kindAt nodes' i = kindAt nodes i) (hc : childrenAt nodes' i = childrenAt nodes i) :
    Sealed P nodes' th i := by
  obtain ⟨p, tail, hids, hq, hr⟩ := h
  exact ⟨p, tail, by rw [hc]; exact hev.piecesOf_eq hids, by rw [hk]; exact hq, hr⟩

namespace Settled

/-- Threads of containers that are worked on may change. -/
lemma rethread (h : Settled P nodes th act visited) (hth : ∀ j, j ∉ act → th' j = th j) :
    Settled P nodes th' act visited where
  unique := h.unique
  alternatives := h.alternatives
  owned := h.owned
  known := h.known
  sealed := by
    intro i x hx
    by_cases hi : i ∈ act
    · exact Or.inl hi
    · obtain ⟨p, tail, hids, hq, hr⟩ := (h.sealed i x hx).resolve_left hi
      exact Or.inr ⟨p, tail, hids, hq, by rw [hth i hi]; exact hr⟩

/-- Containers that store a single reading need not be worked on. -/
lemma leave (h : Settled P nodes th act visited)
    (hact : ∀ i ∈ act, i ∈ act' ∨ Sealed P nodes th i) : Settled P nodes th act' visited where
  unique := h.unique
  alternatives := h.alternatives
  owned := h.owned
  known := h.known
  sealed := by
    intro i x hx
    rcases h.sealed i x hx with hi | hi
    · exact hact i hi
    · exact Or.inr hi

/-- Passing an entry that is not a finish makes no phrase known. -/
lemma visit {id o k : Nat} {m : NonTerminal} (h : Settled P nodes th act visited)
    (hx : P.chart.place? id = some ⟨.start m, o, k⟩) :
    Settled P nodes th act (id :: visited) where
  unique := h.unique
  alternatives := h.alternatives
  owned := h.owned
  known := by
    intro x
    rw [h.known x, List.exists_mem_cons_iff]
    refine (or_iff_right fun hfin => ?_).symm
    rw [hx] at hfin
    cases hfin
  sealed := h.sealed

/-- A phrase that was not gone into has no node. -/
lemma not_known {id : Nat} (hP : P.Complete) (h : Settled P nodes th act visited)
    (hx : P.chart.place? id = some ⟨.finish x.symbol, x.lo, x.hi⟩) (hid : id ∉ visited) (y : Nat) :
    (kindAt nodes y).bind Kind.phrase? ≠ some x := by
  intro hy
  obtain ⟨id', hid', hx'⟩ := (h.known x).1 ⟨y, hy⟩
  exact hid (hP.filled.indexed.place?_inj hx hx' ▸ hid')

/-- The children of a container that is worked on may change. -/
lemma attach (h : Settled P nodes th act visited) (hi : i ∈ act)
    (hcont : (kindAt nodes i).bind Kind.container? = some x) {ids : List Nat}
    (hk : kindAt nodes' = kindAt nodes)
    (hc : childrenAt nodes' = Function.update (childrenAt nodes) i ids) :
    Settled P nodes' th act visited := by
  have hne : ∀ y x, kindAt nodes y = some (.ambiguous x) →
      childrenAt nodes' y = childrenAt nodes y := by
    intro y x hy
    rw [hc, Function.update_of_ne]
    rintro rfl
    simp [hy, Kind.container?] at hcont
  refine ⟨by rw [hk]; exact h.unique, fun y x hy => ?_, fun j x p hj => ?_, by rw [hk]; exact h.known,
    fun j x hj => ?_⟩
  · rw [hk] at hy ⊢
    rw [hne y x hy]
    exact h.alternatives y x hy
  · rw [hk] at hj ⊢
    obtain ⟨y, hy, hmem⟩ := h.owned j x p hj
    exact ⟨y, hy, by rwa [hne y x hy]⟩
  · rw [hk] at hj
    by_cases hji : j = i
    · exact Or.inl (hji ▸ hi)
    · rcases h.sealed j x hj with hact | hs
      · exact Or.inl hact
      · refine Or.inr (hs.of_evolves (.of_kindAt_eq hk) (by rw [hk]) ?_)
        rw [hc, Function.update_of_ne hji]

/-- A leaf, or the node of a phrase that has none, may be pushed. -/
lemma push (h : Settled P nodes th act visited) {m : ForestNode} (hm : m.children = [])
    (halt : ∀ x p, m.kind ≠ .alternative x p)
    (hnew : ∀ x, m.kind.phrase? = some x → ∀ y, (kindAt nodes y).bind Kind.phrase? ≠ some x)
    {visited' : List Nat}
    (hvis : ∀ x : Phrase, (∃ id ∈ visited', P.chart.place? id = some ⟨.finish x.symbol, x.lo, x.hi⟩) ↔
      (∃ id ∈ visited, P.chart.place? id = some ⟨.finish x.symbol, x.lo, x.hi⟩) ∨
        m.kind.phrase? = some x)
    (hact : ∀ i ∈ act, i ∈ act') (hsize : ∀ x, m.kind.container? = some x → nodes.size ∈ act') :
    Settled P (nodes.push m) th act' visited' := by
  have hev : Evolves nodes (nodes.push m) := .push m
  have hc : ∀ {j : Nat} {k : Kind}, kindAt nodes j = some k →
      childrenAt (nodes.push m) j = childrenAt nodes j := by
    intro j k hj
    rw [childrenAt_push, Function.update_of_ne (Nat.ne_of_lt (lt_size_of_kindAt hj))]
  refine ⟨fun i j x hi hj => ?_, fun y x hy => ?_, fun j x p hj => ?_, fun x => ?_, fun i x hi => ?_⟩
  · rw [kindAt_push, bind_update_eq_some_iff kindAt_size] at hi hj
    rcases hi with hi | ⟨rfl, hi⟩
    · rcases hj with hj | ⟨-, hj⟩
      · exact h.unique i j x hi hj
      · exact absurd hi (hnew x hj i)
    · rcases hj with hj | ⟨rfl, -⟩
      · exact absurd hj (hnew x hi j)
      · rfl
  · rw [kindAt_push, update_eq_some_iff kindAt_size] at hy
    rcases hy with hy | ⟨rfl, -⟩
    · rw [hc hy]
      refine ⟨(h.alternatives y x hy).1, fun j hj => ?_⟩
      obtain ⟨p, hp⟩ := (h.alternatives y x hy).2 j hj
      exact ⟨p, by rw [kindAt_push, update_eq_some_iff kindAt_size]; exact Or.inl hp⟩
    · rw [childrenAt_push, Function.update_self, hm]
      simp
  · rw [kindAt_push, update_eq_some_iff kindAt_size] at hj
    rcases hj with hj | ⟨-, hj⟩
    · obtain ⟨y, hy, hmem⟩ := h.owned j x p hj
      exact ⟨y, hev.ambiguous hy, by rwa [hc hy]⟩
    · exact absurd hj (halt x p)
  · rw [hvis x, ← h.known x]
    simp only [kindAt_push, bind_update_eq_some_iff kindAt_size, exists_or, exists_eq_left]
  · rw [kindAt_push, bind_update_eq_some_iff kindAt_size] at hi
    rcases hi with hi | ⟨rfl, hi⟩
    · rcases h.sealed i x hi with hi' | hs
      · exact Or.inl (hact i hi')
      · obtain ⟨k, hk, -⟩ := Option.bind_eq_some_iff.1 hi
        refine Or.inr (hs.of_evolves hev ?_ (hc hk))
        rw [kindAt_push, Function.update_of_ne (Nat.ne_of_lt (lt_size_of_kindAt hk))]
    · exact Or.inl (hsize x hi)

/-- A new alternative and those that an ambiguous node has are distinct alternatives of it. -/
lemma alternatives_concat (h : Settled P nodes th act visited)
    (hy : kindAt nodes y = some (.ambiguous x))
    (hold : ∀ {j : Nat} {k : Kind}, kindAt nodes j = some k → kindAt nodes' j = some k) {p : Nat}
    (hnew : kindAt nodes' nodes.size = some (.alternative x p)) :
    (childrenAt nodes y ++ [nodes.size]).Nodup ∧
      ∀ j ∈ childrenAt nodes y ++ [nodes.size], ∃ q, kindAt nodes' j = some (.alternative x q) := by
  obtain ⟨hnodup, halts⟩ := h.alternatives y x hy
  refine ⟨List.nodup_append.2 ⟨hnodup, by simp, fun j hj j' hj' => ?_⟩, fun j hj => ?_⟩
  · obtain ⟨q, hq⟩ := halts j hj
    rw [List.mem_singleton.1 hj']
    exact Nat.ne_of_lt (lt_size_of_kindAt hq)
  · rcases List.mem_append.1 hj with hj | hj
    · obtain ⟨q, hq⟩ := halts j hj
      exact ⟨q, hold hq⟩
    · exact ⟨p, List.mem_singleton.1 hj ▸ hnew⟩

/-- An alternative may be added to an ambiguous node, if it is worked on. -/
lemma alternative (h : Settled P nodes th act visited) (hy : kindAt nodes y = some (.ambiguous x))
    (p : Nat) (ids : List Nat)
    (hk : kindAt nodes' = Function.update (kindAt nodes) nodes.size (some (.alternative x p)))
    (hc : childrenAt nodes' = Function.update (Function.update (childrenAt nodes) nodes.size ids) y
      (childrenAt nodes y ++ [nodes.size])) :
    Settled P nodes' th (nodes.size :: act) visited := by
  have hylt := lt_size_of_kindAt hy
  have hcy : childrenAt nodes' y = childrenAt nodes y ++ [nodes.size] := by
    rw [hc, Function.update_self]
  have hcj : ∀ {j : Nat} {k : Kind}, kindAt nodes j = some k → j ≠ y →
      childrenAt nodes' j = childrenAt nodes j := by
    intro j k hj hne
    rw [hc, Function.update_of_ne hne,
      Function.update_of_ne (Nat.ne_of_lt (lt_size_of_kindAt hj))]
  have hold : ∀ {j : Nat} {k : Kind}, kindAt nodes j = some k → kindAt nodes' j = some k := by
    intro j k hj
    rw [hk, update_eq_some_iff kindAt_size]
    exact Or.inl hj
  have hev : Evolves nodes nodes' := fun i k hi => ⟨k, hold hi, rfl, fun x hx => hx⟩
  have hphrase : ∀ j x, (kindAt nodes' j).bind Kind.phrase? = some x ↔
      (kindAt nodes j).bind Kind.phrase? = some x := by
    intro j x
    rw [hk, bind_update_eq_some_iff kindAt_size]
    simp [Kind.phrase?]
  refine ⟨fun i j x hi hj => ?_, fun y' x' hy' => ?_, fun j x' q hj => ?_, fun x => ?_,
    fun i x' hi => ?_⟩
  · exact h.unique i j x ((hphrase i x).1 hi) ((hphrase j x).1 hj)
  · rw [hk, update_eq_some_iff kindAt_size] at hy'
    rcases hy' with hy' | ⟨-, hy'⟩
    · by_cases hyy : y' = y
      · subst hyy
        rw [hy] at hy'
        cases hy'
        rw [hcy]
        exact h.alternatives_concat hy hold (by rw [hk, Function.update_self])
      · obtain ⟨hnodup, halts⟩ := h.alternatives y' x' hy'
        rw [hcj hy' hyy]
        refine ⟨hnodup, fun j hj => ?_⟩
        obtain ⟨q, hq⟩ := halts j hj
        exact ⟨q, hold hq⟩
    · cases hy'
  · rw [hk, update_eq_some_iff kindAt_size] at hj
    rcases hj with hj | ⟨rfl, hj⟩
    · obtain ⟨y', hy', hmem⟩ := h.owned j x' q hj
      refine ⟨y', hold hy', ?_⟩
      by_cases hyy : y' = y
      · subst hyy
        rw [hcy]
        exact List.mem_append_left _ hmem
      · rwa [hcj hy' hyy]
    · cases hj
      exact ⟨y, hold hy, by rw [hcy]; simp⟩
  · rw [← h.known x]
    exact exists_congr fun j => hphrase j x
  · rw [hk, bind_update_eq_some_iff kindAt_size] at hi
    rcases hi with hi | ⟨rfl, -⟩
    · rcases h.sealed i x' hi with hi' | hs
      · exact Or.inl (List.mem_cons_of_mem _ hi')
      · obtain ⟨k, hki, hcont⟩ := Option.bind_eq_some_iff.1 hi
        refine Or.inr (hs.of_evolves hev (by rw [hold hki, hki]) (hcj hki ?_))
        rintro rfl
        rw [hy] at hki
        cases hki
        cases hcont
    · exact Or.inl List.mem_cons_self

/-- A node that is worked on may become ambiguous without alternatives. -/
lemma mark (h : Settled P nodes th act visited) (hy : kindAt nodes y = some (.plain x))
    (hk : kindAt nodes' = Function.update (kindAt nodes) y (some (.ambiguous x)))
    (hc : childrenAt nodes' = Function.update (childrenAt nodes) y [])
    (hact : ∀ i ∈ act, i ≠ y → i ∈ act') : Settled P nodes' th act' visited := by
  have hne : ∀ {j : Nat}, j ≠ y →
      kindAt nodes' j = kindAt nodes j ∧ childrenAt nodes' j = childrenAt nodes j := by
    intro j hj
    rw [hk, hc, Function.update_of_ne hj, Function.update_of_ne hj]
    exact ⟨rfl, rfl⟩
  have hself : kindAt nodes' y = some (.ambiguous x) := by rw [hk, Function.update_self]
  have hev : Evolves nodes nodes' := .mark hy hk
  have hphrase : ∀ j, (kindAt nodes' j).bind Kind.phrase? = (kindAt nodes j).bind Kind.phrase? := by
    intro j
    by_cases hj : j = y
    · subst hj
      rw [hself, hy]
      rfl
    · rw [(hne hj).1]
  refine ⟨fun i j x hi hj => ?_, fun y' x' hy' => ?_, fun j x' q hj => ?_, fun x => ?_,
    fun i x' hi => ?_⟩
  · rw [hphrase] at hi hj
    exact h.unique i j x hi hj
  · by_cases hyy : y' = y
    · subst hyy
      rw [hc, Function.update_self]
      simp
    · rw [(hne hyy).1] at hy'
      rw [(hne hyy).2]
      obtain ⟨hnodup, halts⟩ := h.alternatives y' x' hy'
      refine ⟨hnodup, fun j hj => ?_⟩
      obtain ⟨q, hq⟩ := halts j hj
      refine ⟨q, ?_⟩
      rwa [(hne ?_).1]
      rintro rfl
      rw [hy] at hq
      cases hq
  · have hjy : j ≠ y := by
      rintro rfl
      rw [hself] at hj
      cases hj
    rw [(hne hjy).1] at hj
    obtain ⟨y', hy', hmem⟩ := h.owned j x' q hj
    refine ⟨y', hev.ambiguous hy', ?_⟩
    rwa [(hne ?_).2]
    rintro rfl
    rw [hy] at hy'
    cases hy'
  · rw [← h.known x]
    simp only [hphrase]
  · have hiy : i ≠ y := by
      rintro rfl
      rw [hself] at hi
      cases hi
    rw [(hne hiy).1] at hi
    rcases h.sealed i x' hi with hi' | hs
    · exact Or.inl (hact i hi' hiy)
    · exact Or.inr (hs.of_evolves hev (hne hiy).1 (hne hiy).2)

end Settled

end ParseForest
