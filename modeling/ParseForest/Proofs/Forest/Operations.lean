import ParseForest.Proofs.Forest.Frames

/-!
# What the operations of a builder do

Each operation of a builder of forests in terms of what it is in the middle of: which container it
works on afterwards, and what it adds to the accounts. `Alike` says that nothing is added.
-/

namespace ParseForest

variable {P : Parsing} {nodes nodes' nodes'' : Array ForestNode} {th th' th'' : Nat → Thread}
  {x x' : Phrase} {r : Reading} {i y p : Nat}

/-- The phrase has a node. -/
def Known (nodes : Array ForestNode) (x : Phrase) : Prop :=
  ∃ y, (kindAt nodes y).bind Kind.phrase? = some x

lemma known_push {k : Kind}
    (hk : kindAt nodes' = Function.update (kindAt nodes) nodes.size (some k)) :
    Known nodes' x ↔ Known nodes x ∨ k.phrase? = some x := by
  simp only [Known, hk, bind_update_eq_some_iff kindAt_size, exists_or, exists_eq_left]

lemma known_mark (hy : kindAt nodes y = some (.plain x))
    (hk : kindAt nodes' = Function.update (kindAt nodes) y (some (.ambiguous x))) (x' : Phrase) :
    Known nodes' x' ↔ Known nodes x' := by
  refine exists_congr fun j => ?_
  by_cases hj : j = y
  · subst hj
    rw [hk, Function.update_self, hy]
    rfl
  · rw [hk, Function.update_of_ne hj]

/-- The nodes have evolved, and hold the same readings of the same phrases. -/
structure Alike (P : Parsing) (nodes : Array ForestNode) (th : Nat → Thread)
    (nodes' : Array ForestNode) (th' : Nat → Thread) : Prop where
  evolves : Evolves nodes nodes'
  known : ∀ x, Known nodes' x ↔ Known nodes x
  held : ∀ x r, heldWeight P nodes' th' x r = heldWeight P nodes th x r

/-- The nodes have evolved, and hold some more readings of the same phrases. -/
structure Gains (P : Parsing) (nodes : Array ForestNode) (th : Nat → Thread)
    (nodes' : Array ForestNode) (th' : Nat → Thread) (gain : Phrase → Reading → Nat) : Prop where
  evolves : Evolves nodes nodes'
  known : ∀ x, Known nodes' x ↔ Known nodes x
  held : ∀ x r, heldWeight P nodes' th' x r = heldWeight P nodes th x r + gain x r

lemma Gains.trans {gain : Phrase → Reading → Nat} (h : Gains P nodes th nodes' th' gain)
    (h' : Alike P nodes' th' nodes'' th'') : Gains P nodes th nodes'' th'' gain :=
  ⟨h.evolves.trans h'.evolves, fun x => (h'.known x).trans (h.known x),
    fun x r => (h'.held x r).trans (h.held x r)⟩

namespace Alike

lemma refl : Alike P nodes th nodes th :=
  ⟨.of_kindAt_eq rfl, fun _ => Iff.rfl, fun _ _ => rfl⟩

/-- Nothing is gained. -/
lemma gains (h : Alike P nodes th nodes' th') :
    Gains P nodes th nodes' th' (freshWeight P none) :=
  ⟨h.evolves, h.known, h.held⟩

lemma withChildren (f : List Nat → List Nat) :
    Alike P nodes th (nodes.modify i (ForestBuilder.withChildren f)) th := by
  have hk : kindAt (nodes.modify i (ForestBuilder.withChildren f)) = _ := kindAt_withChildren f
  refine ⟨.of_kindAt_eq hk, fun x => ?_, fun x r => heldWeight_congr (by simp) hk⟩
  simp only [Known, hk]

lemma push_leaf {m : ForestNode} {s : Piece} (hm : m.kind = .leaf s) :
    Alike P nodes th (nodes.push m) th := by
  have hk : kindAt (nodes.push m) = _ := kindAt_push m
  refine ⟨.push m, fun x => ?_, fun x r => heldWeight_push (by simp) hk (by simp [hm, Kind.container?])⟩
  simp [known_push hk, hm, Kind.phrase?]

/-- The thread of a container may change if it can become the same readings. -/
lemma rethread (hi : (kindAt nodes i).bind Kind.container? = some x) {τ : Thread}
    (hτ : ∀ r, τ.weight P.grammar P.tokens r = (th i).weight P.grammar P.tokens r) :
    Alike P nodes th nodes (Function.update th i τ) := by
  refine ⟨.of_kindAt_eq rfl, fun _ => Iff.rfl, fun x' r => ?_⟩
  have hsum : heldWeight P nodes (Function.update th i τ) x' r + _ = _ := heldWeight_update hi
  have hadd : added P x τ x' r = added P x (th i) x' r := by simp only [added, hτ]
  omega

end Alike

/-! ### Nodes of phrases and tokens -/

namespace ForestBuilder

variable {b : ForestBuilder}

lemma isAt_iff {m : ForestNode} {n : NonTerminal} {lo hi : Nat} :
    m.isAt n lo hi = true ↔ m.kind.phrase? = some ⟨n, lo, hi⟩ := by
  cases m with
  | nonterminal symbol lo' hi' ambiguous ids =>
    cases ambiguous <;> simp [ForestNode.isAt, ForestNode.kind, Kind.phrase?, and_assoc]
  | _ => simp [ForestNode.isAt, ForestNode.kind, Kind.phrase?]

section

variable {nodes : Array ForestNode} {n : NonTerminal} {lo hi y : Nat}

/-- What is looked up for a phrase is its node. -/
lemma phrase_of_findIdx? (h : nodes.findIdx? (·.isAt n lo hi) = some y) :
    (kindAt nodes y).bind Kind.phrase? = some ⟨n, lo, hi⟩ := by
  obtain ⟨hlt, hy, -⟩ := Array.findIdx?_eq_some_iff_getElem.1 h
  rw [isAt_iff] at hy
  simpa [kindAt, hlt] using hy

/-- The phrases for which a node is found are those that have one. -/
lemma exists_findIdx?_iff :
    (∃ y, nodes.findIdx? (·.isAt n lo hi) = some y) ↔ Known nodes ⟨n, lo, hi⟩ := by
  constructor
  · rintro ⟨y, hy⟩
    exact ⟨y, phrase_of_findIdx? hy⟩
  · rintro ⟨y, hy⟩
    obtain ⟨k, hk, hphrase⟩ := Option.bind_eq_some_iff.1 hy
    obtain ⟨m, hm, rfl⟩ := Option.map_eq_some_iff.1 hk
    cases hf : nodes.findIdx? (·.isAt n lo hi) with
    | some y' => exact ⟨y', rfl⟩
    | none =>
      have := Array.findIdx?_eq_none_iff.1 hf m (Array.mem_of_getElem? hm)
      rw [isAt_iff.2 hphrase] at this
      cases this

end

/-- A phrase that has a node is found. -/
lemma nonterminal_of_known {n : NonTerminal} {lo hi : Nat} (h : Known b.nodes ⟨n, lo, hi⟩) :
    ∃ y, b.nonterminal n lo hi = (b, y) ∧
      (kindAt b.nodes y).bind Kind.phrase? = some ⟨n, lo, hi⟩ := by
  obtain ⟨y, hy⟩ := exists_findIdx?_iff.2 h
  exact ⟨y, by rw [nonterminal, hy], phrase_of_findIdx? hy⟩

/-- A phrase that has no node is given one. -/
lemma nonterminal_of_not_known {n : NonTerminal} {lo hi : Nat}
    (h : ¬ Known b.nodes ⟨n, lo, hi⟩) :
    b.nonterminal n lo hi =
      ({ b with nodes := b.nodes.push (.nonterminal n lo hi false []) }, b.nodes.size) := by
  unfold nonterminal
  cases hf : b.nodes.findIdx? (·.isAt n lo hi) with
  | some y => exact absurd (exists_findIdx?_iff.1 ⟨y, hf⟩) h
  | none => rfl

variable {vis path act : List Nat} {fl o : Nat} {cs : List CallSite} {tail : List Piece}

/-- The leaf of a token is found or added. -/
lemma token_spec {index : Nat} {u : Token} (hu : P.tokens[index]? = some u)
    (h : Inside P b.nodes th vis path i x p tail fl o cs act) :
    ∃ nodes' leaf, b.token P.tokens index = .ok ({ b with nodes := nodes' }, leaf) ∧
      Inside P nodes' th vis path i x p tail fl o cs act ∧ Alike P b.nodes th nodes' th ∧
      (kindAt nodes' leaf).bind Kind.piece? = some (.token index) := by
  unfold token
  cases hf : b.nodes.findIdx? (isTokenAt index) with
  | some leaf =>
    obtain ⟨hlt, hleaf, -⟩ := Array.findIdx?_eq_some_iff_getElem.1 hf
    refine ⟨b.nodes, leaf, rfl, h, .refl, ?_⟩
    rw [kindAt, Array.getElem?_eq_getElem hlt]
    cases hm : b.nodes[leaf] with
    | token index' t =>
      rw [hm] at hleaf
      obtain rfl : index' = index := by simpa [isTokenAt] using hleaf
      rfl
    | _ => simp [hm, isTokenAt] at hleaf
  | none =>
    dsimp only
    rw [hu]
    refine ⟨b.nodes.push (.token index u), b.nodes.size, rfl, h.push_leaf rfl rfl, .push_leaf rfl, ?_⟩
    simp [kindAt, ForestNode.kind, Kind.piece?]

lemma attach_eq {rest : List Nat} (h : Stands nodes b.path rest i y x p tail) (child : Nat) :
    b.attach child = { b with nodes := b.nodes.modify i (withChildren (child :: ·)) } := by
  obtain ⟨l, hl⟩ := h.path_eq
  simp only [attach, hl, modify]

/-- A child is put in front of the others. -/
lemma attach_spec (h : Inside P b.nodes th vis b.path i x p tail fl o cs act) {child : Nat}
    {s : Piece} (hs : (kindAt b.nodes child).bind Kind.piece? = some s) :
    ∃ nodes', b.attach child = { b with nodes := nodes' } ∧
      Inside P nodes' th vis b.path i x p (s :: tail) fl o cs act ∧ Alike P b.nodes th nodes' th := by
  obtain ⟨rest, y, hst, -⟩ := h.stands
  exact ⟨_, attach_eq hst child, h.attach hs, .withChildren _⟩

/-! ### Alternatives -/

/-- An ambiguous node is given an alternative, which is worked on. -/
lemma beginAlternative_spec {rest ids : List Nat} (hpath : b.path = y :: rest)
    (hy : kindAt b.nodes y = some (.ambiguous x)) (hids : piecesOf b.nodes ids = tail.map some)
    (hset : Settled P b.nodes th act vis) (hout : Outer P b.nodes th fl y o cs rest act)
    (τ : Thread) :
    ∃ nodes', b.beginAlternative p ids =
        .ok { b with nodes := nodes', path := b.nodes.size :: b.path } ∧
      Inside P nodes' (Function.update th b.nodes.size τ) vis (b.nodes.size :: b.path) b.nodes.size x
        p tail fl o cs act ∧
      Stands nodes' (b.nodes.size :: b.path) rest b.nodes.size y x p tail ∧
      Gains P b.nodes th nodes' (Function.update th b.nodes.size τ) (added P x τ) := by
  have hylt := lt_size_of_kindAt hy
  obtain ⟨m, hm⟩ : ∃ m : ForestNode, m = .alternative x.symbol p x.lo x.hi ids := ⟨_, rfl⟩
  have hmk : m.kind = .alternative x p := by rw [hm]; rfl
  have hk : kindAt ((b.nodes.push m).modify y (withChildren (· ++ [b.nodes.size]))) = _ :=
    kindAt_withChildren _
  rw [kindAt_push, hmk] at hk
  have hev : Evolves b.nodes ((b.nodes.push m).modify y (withChildren (· ++ [b.nodes.size]))) :=
    .trans (.push m) (.of_kindAt_eq (kindAt_withChildren _))
  have hy' : kindAt (b.nodes.push m) y = some (.ambiguous x) := by
    rw [kindAt_push, Function.update_of_ne (Nat.ne_of_lt hylt), hy]
  have hc := childrenAt_withChildren hy' (by simp) (· ++ [b.nodes.size])
  rw [childrenAt_push, Function.update_of_ne (Nat.ne_of_lt hylt)] at hc
  have hmc : m.children = ids := by rw [hm]; rfl
  rw [hmc] at hc
  have hst : Stands ((b.nodes.push m).modify y (withChildren (· ++ [b.nodes.size])))
      (b.nodes.size :: b.path) rest b.nodes.size y x p tail := by
    rw [hpath]
    refine .alternative (hev.ambiguous hy) (by rw [hk, Function.update_self]) ?_ hylt
    rw [hc, Function.update_of_ne (Nat.ne_of_gt hylt), Function.update_self]
    exact hev.piecesOf_eq hids
  refine ⟨_, ?_, ⟨?_, rest, y, hst, ?_⟩, hst, hev, fun x' => ?_, fun x' r => ?_⟩
  · rw [beginAlternative, hpath]
    dsimp only
    rw [kindAt_eq_ambiguous_iff.1 hy]
    simp only [addNode, modify, ← hm, hpath]
  · refine (hset.alternative hy p ids hk hc).rethread fun j hj => Function.update_of_ne ?_ _ _
    rintro rfl
    simp at hj
  · refine hout.mono hev (fun j hj => ?_) (fun j hj => ?_) fun j hj => ?_
    · rw [hk, Function.update_of_ne (Nat.ne_of_lt (Nat.lt_trans hj hylt))]
    · rw [hc, Function.update_of_ne (Nat.ne_of_lt hj),
        Function.update_of_ne (Nat.ne_of_lt (Nat.lt_trans hj hylt))]
    · rw [Function.update_of_ne (Nat.ne_of_lt (Nat.lt_trans hj hylt))]
  · simp [known_push hk, Kind.phrase?]
  · exact heldWeight_push_container (by simp) hk rfl

lemma isAlternative_iff {i : Nat} :
    b.isAlternative i = true ↔ ∃ x p, kindAt b.nodes i = some (.alternative x p) := by
  unfold isAlternative kindAt
  cases b.nodes[i]? with
  | none => simp
  | some m =>
    cases m with
    | nonterminal n lo hi ambiguous ids =>
      cases ambiguous <;> simp [ForestNode.isAlternative, ForestNode.kind]
    | alternative n p lo hi ids => simp [ForestNode.isAlternative, ForestNode.kind]
    | _ => simp [ForestNode.isAlternative, ForestNode.kind]

/-- Without the alternative the path begins with the node. -/
lemma outerPath_eq {rest : List Nat} (h : Stands b.nodes b.path rest i y x p tail) :
    b.outerPath = y :: rest := by
  unfold outerPath
  generalize hpath : b.path = path at h
  cases h with
  | plain hy hids =>
    have hno : ¬ b.isAlternative i = true := by
      rw [isAlternative_iff]
      rintro ⟨x', p', h⟩
      rw [hy] at h
      cases h
    exact if_neg hno
  | alternative hy hi hids hlt => exact if_pos (isAlternative_iff.2 ⟨_, _, hi⟩)

lemma topChildren_eq {rest : List Nat} (h : Stands b.nodes b.path rest i y x p tail) :
    b.topChildren = childrenAt b.nodes i := by
  obtain ⟨l, hl⟩ := h.path_eq
  simp [topChildren, hl, childrenAt]

lemma close_eq {rest : List Nat} (h : Stands b.nodes b.path rest i y x p tail) :
    b.close = .ok { b with path := rest } := by
  rw [close, outerPath_eq h]

lemma topIsAmbiguous_of_stands {rest : List Nat} (h : Stands b.nodes b.path rest i y x p tail) :
    b.topIsAmbiguous = false := by
  obtain ⟨l, hl⟩ := h.path_eq
  have hcont := h.container
  unfold topIsAmbiguous
  rw [hl]
  simp only [List.head?_cons, Option.any_some]
  obtain ⟨k, hk, hx⟩ := Option.bind_eq_some_iff.1 hcont
  obtain ⟨m, hm, rfl⟩ := Option.map_eq_some_iff.1 hk
  rw [hm]
  cases m with
  | nonterminal n lo hi ambiguous ids =>
    cases ambiguous with
    | false => rfl
    | true => cases hx
  | _ => rfl

lemma topIsAmbiguous_of_ambiguous {rest : List Nat} (hpath : b.path = y :: rest)
    (hy : kindAt b.nodes y = some (.ambiguous x)) : b.topIsAmbiguous = true := by
  simp [topIsAmbiguous, hpath, kindAt_eq_ambiguous_iff.1 hy, ForestNode.isAmbiguous]

/-- What a node was given so far goes to an alternative. -/
lemma split_spec (h : Inside P b.nodes th vis b.path i x p tail fl o cs act) :
    ∃ nodes' path' i' y' rest th', b.split p = .ok { b with nodes := nodes', path := path' } ∧
      path' = i' :: y' :: rest ∧ kindAt nodes' y' = some (.ambiguous x) ∧
      Stands nodes' path' rest i' y' x p tail ∧
      Inside P nodes' th' vis path' i' x p tail fl o cs act ∧ th' i' = th i ∧
      Alike P b.nodes th nodes' th' := by
  obtain ⟨rest, y, hst, hout⟩ := h.stands
  generalize hpath : b.path = path at hst h
  cases hst with
  | alternative hy hi hids hlt =>
    refine ⟨b.nodes, b.path, i, y, rest, th, ?_, hpath, hy, ?_, ?_, rfl, .refl⟩
    · simp only [split, hpath, kindAt_eq_alternative_iff.1 hi]
      rw [← hpath]
    · rw [hpath]
      exact .alternative hy hi hids hlt
    · rw [hpath]
      exact h
  | plain hy hids =>
    -- The node becomes ambiguous, and its children move to its first alternative.
    obtain ⟨k, hk, hx⟩ := Option.bind_eq_some_iff.1 h.container
    have hkind : kindAt (b.nodes.modify i fun m => markAmbiguous (withChildren (fun _ => []) m)) =
        Function.update (kindAt b.nodes) i (some (.ambiguous x)) := by
      rw [← modify_modify, kindAt_markAmbiguous (by rw [kindAt_withChildren, hy]),
        kindAt_withChildren]
    have hchild : childrenAt
        (b.nodes.modify i fun m => markAmbiguous (withChildren (fun _ => []) m)) =
        Function.update (childrenAt b.nodes) i [] := by
      rw [← modify_modify, childrenAt_markAmbiguous, childrenAt_withChildren hy (by simp)]
    have hev := Evolves.mark hy hkind
    have hact : i ∉ act := fun hmem => Nat.lt_irrefl _ (hout.lt_of_mem i hmem)
    have hset : Settled P (b.nodes.modify i fun m => markAmbiguous (withChildren (fun _ => []) m))
        th act vis := by
      refine h.settled.mark hy hkind hchild fun j hj hne => ?_
      exact (List.mem_cons.1 hj).resolve_left hne
    have hout' : Outer P (b.nodes.modify i fun m => markAmbiguous (withChildren (fun _ => []) m)) th fl
        i o cs rest act :=
      hout.mono hev (fun j hj => by rw [hkind, Function.update_of_ne (Nat.ne_of_lt hj)])
        (fun j hj => by rw [hchild, Function.update_of_ne (Nat.ne_of_lt hj)]) fun _ _ => rfl
    obtain ⟨nodes', heq, hin, hst', hev', hknown, hheld⟩ :=
      beginAlternative_spec (p := p) (b := b.modify i fun m => markAmbiguous (withChildren (fun _ => []) m))
        hpath (by rw [modify, hkind, Function.update_self]) (hev.piecesOf_eq hids) hset hout' (th i)
    refine ⟨nodes', _, _, i, rest, _, ?_, by rw [show (b.modify i _).path = i :: rest from hpath],
      hev'.ambiguous (by rw [modify, hkind, Function.update_self]), hst', hin, ?_, ?_⟩
    · simp only [split, hpath, kindAt_eq_plain_iff.1 hy]
      exact heq
    · rw [Function.update_self]
    · refine ⟨hev.trans hev', fun x' => (hknown x').trans (known_mark hy hkind x'), fun x' r => ?_⟩
      rw [hheld]
      exact heldWeight_mark (by simp [modify]) hy hkind

end ForestBuilder

end ParseForest
