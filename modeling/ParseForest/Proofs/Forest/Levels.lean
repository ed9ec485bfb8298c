import ParseForest.Proofs.Forest.Growing
import ParseForest.Proofs.Walk.Spines

/-!
# Where a builder stands in its graph

A phrase leads to another if there is a path between their nodes. The path of a builder goes through
nodes and their alternatives, the innermost first; `Levels` says that the nodes on it are reached
from given phrases, one for each node. Each operation of a builder keeps this, and what the builder
saves for an entry is reached from the innermost of the phrases.
-/

namespace ParseForest

open Relation

/-- The node is that of the phrase. -/
def NodeOf (nodes : Array ForestNode) (x : Phrase) (i : Nat) : Prop :=
  (kindAt nodes i).bind Kind.phrase? = some x

/-- No phrase has two nodes. -/
def PhrasesOnce (nodes : Array ForestNode) : Prop :=
  ∀ i j x, NodeOf nodes x i → NodeOf nodes x j → i = j

/-- There is a path from the node of the first phrase to that of the second, which may be the
same. -/
def Reaches (nodes : Array ForestNode) (x y : Phrase) : Prop :=
  ∃ i j, NodeOf nodes x i ∧ NodeOf nodes y j ∧ ReflTransGen (ParentOf nodes) i j

/-- There is a path with at least one step from the node of the first phrase to that of the
second. -/
def Links (nodes : Array ForestNode) (x y : Phrase) : Prop :=
  ∃ i j, NodeOf nodes x i ∧ NodeOf nodes y j ∧ TransGen (ParentOf nodes) i j

/-- The nodes of the path are reached from the phrases, as far as there are phrases; alternatives do
not count. -/
inductive Levels (nodes : Array ForestNode) : List Nat → List Phrase → Prop where
  | nil {path : List Nat} : Levels nodes path []
  /-- A node. -/
  | node {i : Nat} {x y : Phrase} {path : List Nat} {xs : List Phrase} (hi : NodeOf nodes y i)
      (hx : Reaches nodes x y) (h : Levels nodes path xs) : Levels nodes (i :: path) (x :: xs)
  /-- A node and its alternative. -/
  | alternative {i j p : Nat} {x y z : Phrase} {path : List Nat} {xs : List Phrase}
      (hj : kindAt nodes j = some (.alternative z p)) (hi : NodeOf nodes y i)
      (hc : TransGen (ParentOf nodes) i j) (hx : Reaches nodes x y) (h : Levels nodes path xs) :
      Levels nodes (j :: i :: path) (x :: xs)

variable {nodes nodes' : Array ForestNode} {i j : Nat} {x y z : Phrase} {path : List Nat}
  {xs : List Phrase}

lemma NodeOf.evolves (h : NodeOf nodes x i) (hev : Evolves nodes nodes') : NodeOf nodes' x i := by
  obtain ⟨k, hk, hx⟩ := Option.bind_eq_some_iff.1 h
  obtain ⟨k', hk', hpiece, -⟩ := hev i k hk
  refine phrase_of_piece ?_
  rw [hk', Option.bind_some, hpiece]
  cases k with
  | plain => rw [← Option.some.inj hx, Kind.piece?]
  | ambiguous => rw [← Option.some.inj hx, Kind.piece?]
  | leaf => cases hx
  | alternative => cases hx

lemma Evolves.alternative {p : Nat} (h : Evolves nodes nodes')
    (hi : kindAt nodes i = some (.alternative x p)) :
    ∃ x' p', kindAt nodes' i = some (.alternative x' p') := by
  obtain ⟨k', hk', hpiece, -⟩ := h i _ hi
  cases k' with
  | alternative x' p' => exact ⟨x', p', hk'⟩
  | _ => cases hpiece

lemma Reaches.known_left (h : Reaches nodes x y) : Known nodes x := by
  obtain ⟨i, -, hi, -⟩ := h
  exact ⟨i, hi⟩

lemma Reaches.known_right (h : Reaches nodes x y) : Known nodes y := by
  obtain ⟨-, j, -, hj, -⟩ := h
  exact ⟨j, hj⟩

lemma Reaches.refl (h : Known nodes x) : Reaches nodes x x := by
  obtain ⟨i, hi⟩ := h
  exact ⟨i, i, hi, hi, .refl⟩

lemma Reaches.trans (hone : PhrasesOnce nodes) (h : Reaches nodes x y) (h' : Reaches nodes y z) :
    Reaches nodes x z := by
  obtain ⟨i, j, hi, hj, hp⟩ := h
  obtain ⟨j', k, hj', hk, hp'⟩ := h'
  obtain rfl := hone j j' y hj hj'
  exact ⟨i, k, hi, hk, hp.trans hp'⟩

lemma Links.reaches (h : Links nodes x y) : Reaches nodes x y := by
  obtain ⟨i, j, hi, hj, hp⟩ := h
  exact ⟨i, j, hi, hj, hp.to_reflTransGen⟩

lemma Reaches.trans_links (hone : PhrasesOnce nodes) (h : Reaches nodes x y)
    (h' : Links nodes y z) : Links nodes x z := by
  obtain ⟨i, j, hi, hj, hp⟩ := h
  obtain ⟨j', k, hj', hk, hp'⟩ := h'
  obtain rfl := hone j j' y hj hj'
  exact ⟨i, k, hi, hk, TransGen.trans_right hp hp'⟩

/-- What is put below the innermost node of the path is below the innermost phrase. -/
lemma Levels.links (hone : PhrasesOnce nodes) (h : Levels nodes (i :: path) (x :: xs))
    (hc : ParentOf nodes i j) (hj : NodeOf nodes z j) : Links nodes x z := by
  cases h with
  | node hi hx => exact hx.trans_links hone ⟨i, j, hi, hj, .single hc⟩
  | alternative _ hi hp hx => exact hx.trans_links hone ⟨_, j, hi, hj, hp.tail hc⟩

/-- The innermost node of the path can have children. -/
lemma Levels.exists_kind (h : Levels nodes path (x :: xs)) :
    ∃ i rest k, path = i :: rest ∧ kindAt nodes i = some k ∧ ∀ s, k ≠ .leaf s := by
  cases h with
  | node hi =>
    obtain ⟨k, hk, hphrase⟩ := Option.bind_eq_some_iff.1 hi
    refine ⟨_, _, k, rfl, hk, ?_⟩
    rintro s rfl
    cases hphrase
  | alternative hj => exact ⟨_, _, _, rfl, hj, nofun⟩

/-! ### Operations -/

namespace ForestBuilder

variable {P : Parsing} {b b' : ForestBuilder} {p : Nat} {ids : List Nat} {e : Entry}
  {ev : WalkEvent}

lemma Grows.reaches (h : Grows b b') (hl : Reaches b.nodes x y) : Reaches b'.nodes x y := by
  obtain ⟨i, j, hi, hj, hp⟩ := hl
  exact ⟨i, j, hi.evolves h.evolves, hj.evolves h.evolves, h.reflTransGen hp⟩

lemma Grows.links (h : Grows b b') (hl : Links b.nodes x y) : Links b'.nodes x y := by
  obtain ⟨i, j, hi, hj, hp⟩ := hl
  exact ⟨i, j, hi.evolves h.evolves, hj.evolves h.evolves, h.transGen hp⟩

lemma Grows.levels (h : Grows b b') (hl : Levels b.nodes path xs) : Levels b'.nodes path xs := by
  induction hl with
  | nil => exact .nil
  | node hi hx _ ih => exact .node (hi.evolves h.evolves) (h.reaches hx) ih
  | alternative hj hi hc hx _ ih =>
    obtain ⟨z, p, hj'⟩ := h.evolves.alternative hj
    exact .alternative hj' (hi.evolves h.evolves) (h.transGen hc) (h.reaches hx) ih

/-! ### Paths -/

lemma Grows.levels_of_adds {b₁ : ForestBuilder} {y : Nat} (h : Grows b b')
    (hadds : Adds b₁ b' p ids y x) (hb₁ : b₁.path = b.path) (hl : Levels b.nodes b.path xs) :
    Levels b'.nodes b'.path xs := by
  obtain ⟨rest, hpath⟩ := hadds.path
  have hphrase : NodeOf b'.nodes x y := NodeOf.evolves hadds.phrase (Grows.adds hadds).evolves
  rw [hadds.path', hpath]
  rw [← hb₁, hpath] at hl
  cases h.levels hl with
  | nil => exact .nil
  | node hi hx hrest =>
    have hj : kindAt b'.nodes b₁.nodes.size = some (.alternative x p) := by
      rw [hadds.kinds, Function.update_self]
    exact .alternative hj hi (.single hadds.parentOf) hx hrest
  | alternative hj =>
    rw [NodeOf, hj] at hphrase
    cases hphrase

lemma levels_of_split (h : b.split p = .ok b') (hl : Levels b.nodes b.path xs) :
    Levels b'.nodes b'.path xs := by
  rcases split_cases h with rfl | ⟨y, x, b₁, hpath, -, -, -, -, hadds⟩
  · exact hl
  · exact (Grows.split h).levels_of_adds hadds hpath hl

/-- The builder has saved where it is for an entry. -/
def Saves (b b' : ForestBuilder) (entry : Nat) : Prop :=
  ∃ children, b'.snapshots = (entry, ⟨b'.outerPath, children⟩) :: b.snapshots

/-- Passing an item the builder stays below the phrases. -/
lemma levels_of_passSymbol {dot : Nat} (hin : b.Inner) (h : b.passSymbol P p dot e ev = .ok b')
    (hl : Levels b.nodes b.path xs) : Levels b'.nodes b'.path xs := by
  rcases passSymbol_cases h with hattach | ⟨-, b₁, hsplit, rfl⟩ | rfl
  · rw [hattach.path_eq]
    exact (Grows.attaches hin hattach).levels hl
  · have hl₁ : Levels b₁.nodes b₁.path xs := levels_of_split hsplit hl
    exact hl₁
  · exact hl

lemma snapshots_of_passSymbol {dot : Nat} (h : b.passSymbol P p dot e ev = .ok b')
    (he : e.isBranching = false) : b'.snapshots = b.snapshots := by
  rcases passSymbol_cases h with hattach | ⟨hbr, -⟩ | rfl
  · exact hattach.snapshots_eq
  · rw [he] at hbr
    cases hbr
  · rfl

lemma saves_of_passSymbol {dot : Nat} {n : NonTerminal} (h : b.passSymbol P p dot e ev = .ok b')
    (hs : P.grammar.prev? (.item p dot) = some (.nonterminal n)) (he : e.isBranching = true) :
    Saves b b' ev.entry := by
  simp only [passSymbol, hs, he, if_true] at h
  obtain ⟨b₁, hsplit, rfl⟩ := exists_of_map_eq_ok h
  have hsnap : b₁.snapshots = b.snapshots := by
    rcases split_cases hsplit with rfl | ⟨y, x, b₂, -, hsnap, -, -, -, hadds⟩
    · rfl
    · rw [hadds.snapshots, hsnap]
  exact ⟨b₁.topChildren, by rw [← hsnap]; rfl⟩

/-- An item is passed by a builder that stands below the same phrases, and has saved the same. -/
lemma exists_of_passItem {dot : Nat} (hin : b.Inner) (h : b.passItem P p dot e ev = .ok b')
    (hl : Levels b.nodes b.path xs) :
    ∃ b₁ : ForestBuilder, b₁.passSymbol P p dot e ev = .ok b' ∧ b₁.Inner ∧
      Levels b₁.nodes b₁.path xs ∧ b₁.snapshots = b.snapshots := by
  unfold passItem at h
  split at h
  · split at h
    · next b₁ hbegin =>
      obtain ⟨y, x, hadds⟩ := exists_adds hbegin
      exact ⟨b₁, h, hadds.inner, (Grows.adds hadds).levels_of_adds hadds rfl hl, hadds.snapshots⟩
    · cases h
  · exact ⟨b, h, hin, hl, rfl⟩

/-! ### Going in and out -/

lemma outerPath_of_levels (h : Levels b.nodes b.path (x :: xs)) :
    ∃ i y rest, b.outerPath = i :: rest ∧ NodeOf b.nodes y i ∧ Reaches b.nodes x y ∧
      Levels b.nodes rest xs := by
  unfold outerPath
  cases hpath : b.path with
  | nil =>
    rw [hpath] at h
    cases h
  | cons i path =>
    rw [hpath] at h
    cases h with
    | node hi hx hrest =>
      have hno : ¬ b.isAlternative i = true := by
        rw [isAlternative_iff]
        rintro ⟨z, p, hz⟩
        rw [NodeOf, hz] at hi
        cases hi
      exact ⟨i, _, path, if_neg hno, hi, hx, hrest⟩
    | alternative hj hi _ hx hrest =>
      exact ⟨_, _, _, if_pos (isAlternative_iff.2 ⟨_, _, hj⟩), hi, hx, hrest⟩

lemma levels_of_close (h : b.close = .ok b') (hl : Levels b.nodes b.path (x :: xs)) :
    Levels b'.nodes b'.path xs ∧ b'.snapshots = b.snapshots := by
  obtain ⟨i, y, rest, hpath, -, -, hrest⟩ := outerPath_of_levels hl
  unfold close at h
  rw [hpath] at h
  cases h
  exact ⟨hrest, rfl⟩

lemma attach_parentOf {rest : List Nat} {k : Kind} (hpath : b.path = i :: rest)
    (hk : kindAt b.nodes i = some k) (hleaf : ∀ s, k ≠ .leaf s) (child : Nat) :
    ParentOf (b.attach child).nodes i child := by
  simp only [attach, hpath, modify]
  rw [ParentOf, childrenAt_withChildren hk hleaf, Function.update_self]
  exact List.mem_cons_self

/-- The node of a phrase is found or added. -/
lemma nonterminal_spec (b : ForestBuilder) (n : NonTerminal) (lo hi : Nat) :
    ∃ b₁ id, b.nonterminal n lo hi = (b₁, id) ∧ b₁.path = b.path ∧ b₁.snapshots = b.snapshots ∧
      NodeOf b₁.nodes ⟨n, lo, hi⟩ id ∧
      ∀ i k, kindAt b.nodes i = some k → kindAt b₁.nodes i = some k := by
  by_cases hknown : Known b.nodes ⟨n, lo, hi⟩
  · obtain ⟨id, heq, hid⟩ := nonterminal_of_known hknown
    exact ⟨b, id, heq, rfl, rfl, hid, fun i k hk => hk⟩
  · refine ⟨_, _, nonterminal_of_not_known hknown, rfl, rfl, ?_, fun i k hk => ?_⟩
    · rw [NodeOf, kindAt_push, Function.update_self]
      rfl
    · rw [kindAt_push, Function.update_of_ne (Nat.ne_of_lt (lt_size_of_kindAt hk)), hk]

/-- The node of the phrase is put below the innermost node of the path, if there is one. -/
def Puts (b b' : ForestBuilder) (x : Phrase) (id : Nat) : Prop :=
  NodeOf b'.nodes x id ∧ ∀ i rest k, b.path = i :: rest → kindAt b.nodes i = some k →
    (∀ s, k ≠ .leaf s) → ParentOf b'.nodes i id

lemma puts_nonterminal (b : ForestBuilder) (n : NonTerminal) (lo hi : Nat) :
    ∃ b' id, b.nonterminal n lo hi = (b', id) ∧ (b'.attach id).path = b.path ∧
      (b'.attach id).snapshots = b.snapshots ∧ Puts b (b'.attach id) ⟨n, lo, hi⟩ id := by
  obtain ⟨b₁, id, heq, hpath, hsnap, hid, hkeep⟩ := b.nonterminal_spec n lo hi
  refine ⟨b₁, id, heq, by rw [attach_path, hpath], by rw [attach_snapshots, hsnap],
    hid.evolves (Grows.attach id).evolves, fun i rest k hi hk hleaf => ?_⟩
  exact attach_parentOf (hpath.trans hi) (hkeep i k hk) hleaf id

/-- Going into a phrase that branches, the builder saves where it is. -/
lemma enter_spec (b : ForestBuilder) (n : NonTerminal) (e : Entry) (ev : WalkEvent) :
    ∃ id, (b.enter n e ev).path = id :: b.path ∧
      Puts b (b.enter n e ev) ⟨n, e.origin, ev.column⟩ id ∧
      if e.isBranching then Saves b (b.enter n e ev) ev.entry
      else (b.enter n e ev).snapshots = b.snapshots := by
  obtain ⟨b₁, id, heq, hpath, hsnap, hid, hparent⟩ := b.puts_nonterminal n e.origin ev.column
  unfold enter
  rw [heq]
  dsimp only
  by_cases he : e.isBranching = true
  · rw [if_pos he, if_pos he]
    have hgrows : Grows (b₁.attach id) ((b₁.attach id).modify id markAmbiguous) := .markAmbiguous id
    refine ⟨id, congrArg (id :: ·) hpath, ⟨hid.evolves hgrows.evolves, ?_⟩, [],
      congrArg (_ :: ·) hsnap⟩
    intro i rest k hi hk hleaf
    have hc := hparent i rest k hi hk hleaf
    rw [ParentOf, ← childrenAt_markAmbiguous] at hc
    exact hc
  · rw [if_neg he, if_neg he]
    exact ⟨id, by rw [hpath], ⟨hid, hparent⟩, hsnap⟩

/-! ### Reports -/

/-- A phrase that is gone into. -/
lemma handle_enter {id : Nat} (hx : P.chart.place? id = some x.place)
    (hh : b.handle P ⟨.visit, id, x.hi⟩ = .ok b') :
    ∃ j, b'.path = j :: b.path ∧ Puts b b' x j ∧
      if P.chart.branches id then Saves b b' id else b'.snapshots = b.snapshots := by
  obtain ⟨e, he, hp⟩ := Chart.place?_eq_some.1 hx
  simp only [Entry.place, Phrase.place, Place.mk.injEq] at hp
  simp only [handle, he, hp.1, Except.ok.injEq] at hh
  obtain ⟨j, hpath, hputs, hsnap⟩ := b.enter_spec x.symbol e ⟨.visit, id, x.hi⟩
  rw [hp.2.1] at hputs
  rw [Chart.branches_eq_isBranching he]
  rw [hh] at hpath hputs hsnap
  exact ⟨j, hpath, hputs, hsnap⟩

/-- A phrase that is met again. -/
lemma handle_revisit {id : Nat} (hx : P.chart.place? id = some x.place)
    (hh : b.handle P ⟨.revisit, id, x.hi⟩ = .ok b') :
    b'.path = b.path ∧ b'.snapshots = b.snapshots ∧ ∃ j, Puts b b' x j := by
  obtain ⟨b₁, j, heq, hpath, hsnap, hputs⟩ := b.puts_nonterminal x.symbol x.lo x.hi
  rw [handle_finishAgain hx, heq] at hh
  cases hh
  exact ⟨hpath, hsnap, j, hputs⟩

/-- An item. -/
lemma handle_visit_item {id o k dot : Nat} (hx : P.chart.place? id = some ⟨.item p dot, o, k⟩)
    (hin : b.Inner) (hh : b.handle P ⟨.visit, id, k⟩ = .ok b')
    (hl : Levels b.nodes b.path xs) :
    Levels b'.nodes b'.path xs ∧ (P.chart.branches id = false → b'.snapshots = b.snapshots) ∧
      ∀ n, P.grammar.prev? (.item p dot) = some (.nonterminal n) →
        P.chart.branches id = true → Saves b b' id := by
  obtain ⟨e, he, heq⟩ := handle_item (b := b) hx
  rw [heq] at hh
  obtain ⟨b₁, hpass, hin₁, hl₁, hsnap⟩ := exists_of_passItem hin hh hl
  refine ⟨levels_of_passSymbol hin₁ hpass hl₁, fun hbr => ?_, fun n hs hbr => ?_⟩
  · rw [snapshots_of_passSymbol hpass (he.trans hbr), hsnap]
  · have hsaves := saves_of_passSymbol hpass hs (he.trans hbr)
    rwa [Saves, hsnap] at hsaves

end ForestBuilder

end ParseForest
