import ParseForest.Proofs.Forest.Account

/-!
# What a builder is in the middle of

The path of a builder leads into the container that gets the next child, and out of it again into
the containers of the open calls, `Stands` and `Outer`. What comes later on the path is older, so
that adding to the innermost container leaves the others alone. `Phase` puts this together with the
entry that the walk is at, and `Tracks` is what holds between a walk and a builder after each
report.
-/

namespace ParseForest

variable {P : Parsing} {nodes nodes' : Array ForestNode} {th th' : Nat → Thread}

/-- The path leads into the container `i` of the node `y`, whose children spell `tail`. -/
inductive Stands (nodes : Array ForestNode) :
    (path rest : List Nat) → (i y : Nat) → Phrase → (p : Nat) → (tail : List Piece) → Prop where
  /-- A node with one reading contains it itself. -/
  | plain {y p : Nat} {rest : List Nat} {x : Phrase} {tail : List Piece}
      (hy : kindAt nodes y = some (.plain x))
      (hids : piecesOf nodes (childrenAt nodes y) = tail.map some) :
      Stands nodes (y :: rest) rest y y x p tail
  /-- An alternative of an ambiguous node. -/
  | alternative {i y p : Nat} {rest : List Nat} {x : Phrase} {tail : List Piece}
      (hy : kindAt nodes y = some (.ambiguous x)) (hi : kindAt nodes i = some (.alternative x p))
      (hids : piecesOf nodes (childrenAt nodes i) = tail.map some) (hlt : y < i) :
      Stands nodes (i :: y :: rest) rest i y x p tail

/-- The path leads through the containers `act` of the open calls that the leg leaves; each of them
waits before a nonterminal, at the origin of what is inside of it. -/
inductive Outer (P : Parsing) (nodes : Array ForestNode) (th : Nat → Thread) (fl : Nat) :
    (bound o : Nat) → List CallSite → (path act : List Nat) → Prop where
  /-- The leg leaves no call. -/
  | nil {bound o : Nat} {cs : List CallSite} {path : List Nat} (h : cs.length ≤ fl) :
      Outer P nodes th fl bound o cs path []
  /-- The innermost call. -/
  | cons {bound o i y : Nat} {s : CallSite} {cs : List CallSite} {path rest act : List Nat}
      {x : Phrase} {tail : List Piece} {sym : Symbol} (hfl : fl ≤ cs.length) (hi : i < bound)
      (hs : P.grammar.symbolAt? s.prod s.dot = some sym)
      (hst : Stands nodes path rest i y x s.prod tail)
      (hth : th i = ⟨s.prod, s.dot, s.origin, o, tail⟩)
      (h : Outer P nodes th fl y s.origin cs rest act) :
      Outer P nodes th fl bound o (s :: cs) path (i :: act)

/-! ### Containers on the path -/

section Stands

variable {path rest act : List Nat} {i y p bound o fl : Nat} {x : Phrase} {tail : List Piece}
  {cs : List CallSite}

lemma Stands.container (h : Stands nodes path rest i y x p tail) :
    (kindAt nodes i).bind Kind.container? = some x := by
  cases h with
  | plain hy hids => simp [hy, Kind.container?]
  | alternative hy hi hids hlt => simp [hi, Kind.container?]

lemma Stands.le (h : Stands nodes path rest i y x p tail) : y ≤ i := by
  cases h with
  | plain hy hids => exact Nat.le_refl _
  | alternative hy hi hids hlt => exact Nat.le_of_lt hlt

lemma Stands.lt_size (h : Stands nodes path rest i y x p tail) : i < nodes.size := by
  cases h with
  | plain hy hids => exact lt_size_of_kindAt hy
  | alternative hy hi hids hlt => exact lt_size_of_kindAt hi

lemma Stands.piecesOf_eq (h : Stands nodes path rest i y x p tail) :
    piecesOf nodes (childrenAt nodes i) = tail.map some := by
  cases h with
  | plain hy hids => exact hids
  | alternative hy hi hids hlt => exact hids

lemma Stands.path_eq (h : Stands nodes path rest i y x p tail) : ∃ l, path = i :: l := by
  cases h with
  | plain hy hids => exact ⟨_, rfl⟩
  | alternative hy hi hids hlt => exact ⟨_, rfl⟩

/-- The children of the container may change. -/
lemma Stands.update (h : Stands nodes path rest i y x p tail) {ids : List Nat}
    {tail' : List Piece} (hk : kindAt nodes' = kindAt nodes)
    (hc : childrenAt nodes' = Function.update (childrenAt nodes) i ids)
    (hids : piecesOf nodes' ids = tail'.map some) : Stands nodes' path rest i y x p tail' := by
  have hself : piecesOf nodes' (childrenAt nodes' i) = tail'.map some := by
    rw [hc, Function.update_self, hids]
  cases h with
  | plain hy _ => exact .plain (by rw [hk, hy]) hself
  | alternative hy hi _ hlt => exact .alternative (by rw [hk, hy]) (by rw [hk, hi]) hself hlt

/-- Nodes that are not on the path may change. -/
lemma Stands.mono (h : Stands nodes path rest i y x p tail) (hev : Evolves nodes nodes')
    (hk : ∀ j ≤ i, kindAt nodes' j = kindAt nodes j)
    (hc : ∀ j ≤ i, childrenAt nodes' j = childrenAt nodes j) :
    Stands nodes' path rest i y x p tail := by
  cases h with
  | plain hy hids =>
    refine .plain (by rw [hk _ (Nat.le_refl _), hy]) ?_
    rw [hc _ (Nat.le_refl _)]
    exact hev.piecesOf_eq hids
  | alternative hy hi hids hlt =>
    refine .alternative (by rw [hk _ (Nat.le_of_lt hlt), hy]) (by rw [hk _ (Nat.le_refl _), hi]) ?_
      hlt
    rw [hc _ (Nat.le_refl _)]
    exact hev.piecesOf_eq hids

lemma Outer.mono (h : Outer P nodes th fl bound o cs path act) (hev : Evolves nodes nodes')
    (hk : ∀ j < bound, kindAt nodes' j = kindAt nodes j)
    (hc : ∀ j < bound, childrenAt nodes' j = childrenAt nodes j)
    (hth : ∀ j < bound, th' j = th j) : Outer P nodes' th' fl bound o cs path act := by
  induction h with
  | nil h => exact .nil h
  | cons hfl hi hs hst hth' _ ih =>
    have hlt : ∀ {j : Nat}, j ≤ _ → j < _ := fun hj => Nat.lt_of_le_of_lt hj hi
    refine .cons hfl hi hs (hst.mono hev (fun j hj => hk j (hlt hj)) fun j hj => hc j (hlt hj))
      (by rw [hth _ hi, hth']) (ih (fun j hj => ?_) (fun j hj => ?_) fun j hj => ?_)
    · exact hk j (hlt (Nat.le_of_lt (Nat.lt_of_lt_of_le hj hst.le)))
    · exact hc j (hlt (Nat.le_of_lt (Nat.lt_of_lt_of_le hj hst.le)))
    · exact hth j (hlt (Nat.le_of_lt (Nat.lt_of_lt_of_le hj hst.le)))

lemma Outer.lt_of_mem (h : Outer P nodes th fl bound o cs path act) : ∀ j ∈ act, j < bound := by
  induction h with
  | nil h => simp
  | cons hfl hi hs hst hth _ ih =>
    intro j hj
    rcases List.mem_cons.1 hj with rfl | hj
    · exact hi
    · exact Nat.lt_trans (Nat.lt_of_lt_of_le (ih j hj) hst.le) hi

/-! ### Children in front and new nodes -/

lemma childrenAt_front (hi : (kindAt nodes i).bind Kind.container? = some x) (child : Nat) :
    childrenAt (nodes.modify i (ForestBuilder.withChildren (child :: ·))) =
      Function.update (childrenAt nodes) i (child :: childrenAt nodes i) := by
  obtain ⟨k, hk, hcont⟩ := Option.bind_eq_some_iff.1 hi
  refine childrenAt_withChildren hk (fun s hs => ?_) _
  rw [hs] at hcont
  cases hcont

lemma Stands.front (h : Stands nodes path rest i y x p tail) {child : Nat} {s : Piece}
    (hs : (kindAt nodes child).bind Kind.piece? = some s) :
    Stands (nodes.modify i (ForestBuilder.withChildren (child :: ·))) path rest i y x p
      (s :: tail) := by
  have hkind : kindAt (nodes.modify i (ForestBuilder.withChildren (child :: ·))) = _ :=
    kindAt_withChildren _
  refine h.update hkind (childrenAt_front h.container child) ?_
  rw [ParseForest.piecesOf_eq, hkind, List.map_cons, hs, ← ParseForest.piecesOf_eq, h.piecesOf_eq]
  rfl

lemma Outer.front (h : Outer P nodes th fl bound o cs path act)
    (hi : (kindAt nodes i).bind Kind.container? = some x) (hb : bound ≤ i) (child : Nat) :
    Outer P (nodes.modify i (ForestBuilder.withChildren (child :: ·))) th fl bound o cs path act := by
  have hkind : kindAt (nodes.modify i (ForestBuilder.withChildren (child :: ·))) = _ :=
    kindAt_withChildren _
  refine h.mono (.of_kindAt_eq hkind) (fun j _ => by rw [hkind]) (fun j hj => ?_) fun _ _ => rfl
  rw [childrenAt_front hi, Function.update_of_ne (Nat.ne_of_lt (Nat.lt_of_lt_of_le hj hb))]

lemma Settled.front {vis : List Nat} (h : Settled P nodes th act vis) (hact : i ∈ act)
    (hi : (kindAt nodes i).bind Kind.container? = some x) (child : Nat) :
    Settled P (nodes.modify i (ForestBuilder.withChildren (child :: ·))) th act vis :=
  h.attach hact hi (kindAt_withChildren _) (childrenAt_front hi child)

/-- What is pushed is newer than all containers that are worked on. -/
lemma Outer.push (h : Outer P nodes th fl bound o cs path act) (hb : bound ≤ nodes.size)
    (m : ForestNode) : Outer P (nodes.push m) th fl bound o cs path act := by
  refine h.mono (.push m) (fun j hj => ?_) (fun j hj => ?_) fun _ _ => rfl
  · rw [kindAt_push, Function.update_of_ne (Nat.ne_of_lt (Nat.lt_of_lt_of_le hj hb))]
  · rw [childrenAt_push, Function.update_of_ne (Nat.ne_of_lt (Nat.lt_of_lt_of_le hj hb))]

lemma Stands.push (h : Stands nodes path rest i y x p tail) (m : ForestNode) :
    Stands (nodes.push m) path rest i y x p tail := by
  have hlt := h.lt_size
  refine h.mono (.push m) (fun j hj => ?_) fun j hj => ?_
  · rw [kindAt_push, Function.update_of_ne (by omega)]
  · rw [childrenAt_push, Function.update_of_ne (by omega)]

end Stands

/-! ### Snapshots -/

/-- The snapshots of the entries that the walk comes back to are what is saved for them. -/
def Kept (nodes : Array ForestNode) (snapshots : List (Nat × Snapshot)) (saved : Saved)
    (bs : List Branch) : Prop :=
  ∀ b ∈ bs, b.untried ≠ [] → ∃ snap y rest, snapshots.lookup b.entry = some snap ∧
    snap.path = y :: rest ∧ kindAt nodes y = some (.ambiguous (saved b.entry).1) ∧
    piecesOf nodes snap.children = (saved b.entry).2.map some

section Kept

variable {snapshots : List (Nat × Snapshot)} {saved : Saved} {bs : List Branch}

lemma Kept.mono (h : Kept nodes snapshots saved bs) (hev : Evolves nodes nodes') :
    Kept nodes' snapshots saved bs := by
  intro b hb hne
  obtain ⟨snap, y, rest, hlook, hpath, hy, hids⟩ := h b hb hne
  exact ⟨snap, y, rest, hlook, hpath, hev.ambiguous hy, hev.piecesOf_eq hids⟩

lemma Kept.defer (h : Kept nodes snapshots saved bs) {b : Branch}
    (hb : b.untried ≠ [] → ∃ snap y rest, snapshots.lookup b.entry = some snap ∧
      snap.path = y :: rest ∧ kindAt nodes y = some (.ambiguous (saved b.entry).1) ∧
      piecesOf nodes snap.children = (saved b.entry).2.map some) :
    Kept nodes snapshots saved (Walk.defer b bs) := by
  exact Walk.forall_mem_defer hb h

lemma Kept.save (h : Kept nodes snapshots saved bs) {id y : Nat} {rest ids : List Nat} {x : Phrase}
    {tail : List Piece} (hy : kindAt nodes y = some (.ambiguous x))
    (hids : piecesOf nodes ids = tail.map some) {site : Option CallSite} {k : Nat}
    {cs : List CallSite} (untried : List Nat) :
    Kept nodes ((id, ⟨y :: rest, ids⟩) :: snapshots) (Function.update saved id (x, tail))
      (Walk.defer ⟨id, k, cs, site, untried⟩ bs) := by
  have hself : ∀ b : Branch, b.entry = id → ∃ snap y' rest',
      List.lookup b.entry ((id, (⟨y :: rest, ids⟩ : Snapshot)) :: snapshots) = some snap ∧
      snap.path = y' :: rest' ∧
      kindAt nodes y' = some (.ambiguous (Function.update saved id (x, tail) b.entry).1) ∧
      piecesOf nodes snap.children =
        (Function.update saved id (x, tail) b.entry).2.map some := by
    intro b hb
    rw [hb, Function.update_self]
    exact ⟨⟨y :: rest, ids⟩, y, rest, by simp, rfl, hy, hids⟩
  refine Kept.defer (fun b hb hne => ?_) fun _ => hself _ rfl
  by_cases hid : b.entry = id
  · exact hself b hid
  · rw [List.lookup_cons, beq_eq_false_iff_ne.2 hid, Function.update_of_ne hid]
    exact h b hb hne

end Kept

/-! ### Working on a container -/

/-- The builder stands in the container `i`, with the containers `act` around it. -/
structure Inside (P : Parsing) (nodes : Array ForestNode) (th : Nat → Thread) (vis : List Nat)
    (path : List Nat) (i : Nat) (x : Phrase) (p : Nat) (tail : List Piece) (fl o : Nat)
    (cs : List CallSite) (act : List Nat) : Prop where
  /-- All containers but these store single readings. -/
  settled : Settled P nodes th (i :: act) vis
  /-- The path leads into the container, and to the calls around it. -/
  stands : ∃ rest y, Stands nodes path rest i y x p tail ∧ Outer P nodes th fl y o cs rest act

namespace Inside

variable {vis path act : List Nat} {i p fl o : Nat} {x : Phrase} {tail : List Piece}
  {cs : List CallSite}

lemma container (h : Inside P nodes th vis path i x p tail fl o cs act) :
    (kindAt nodes i).bind Kind.container? = some x := by
  obtain ⟨rest, y, hst, -⟩ := h.stands
  exact hst.container

/-- The thread of the container may change. -/
lemma rethread (h : Inside P nodes th vis path i x p tail fl o cs act) (τ : Thread) :
    Inside P nodes (Function.update th i τ) vis path i x p tail fl o cs act := by
  obtain ⟨rest, y, hst, hout⟩ := h.stands
  refine ⟨h.settled.rethread fun j hj => Function.update_of_ne ?_ _ _, rest, y, hst,
    hout.mono (.of_kindAt_eq rfl) (fun _ _ => rfl) (fun _ _ => rfl) fun j hj =>
      Function.update_of_ne ?_ _ _⟩
  · rintro rfl
    simp at hj
  · exact Nat.ne_of_lt (Nat.lt_of_lt_of_le hj hst.le)

/-- A child may be put in front of the others. -/
lemma attach (h : Inside P nodes th vis path i x p tail fl o cs act) {child : Nat} {s : Piece}
    (hs : (kindAt nodes child).bind Kind.piece? = some s) :
    Inside P (nodes.modify i (ForestBuilder.withChildren (child :: ·))) th vis path i x p (s :: tail)
      fl o cs act := by
  obtain ⟨rest, y, hst, hout⟩ := h.stands
  exact ⟨h.settled.front List.mem_cons_self hst.container child, rest, y, hst.front hs,
    hout.front hst.container hst.le child⟩

lemma push_leaf (h : Inside P nodes th vis path i x p tail fl o cs act) {m : ForestNode}
    {s : Piece} (hm : m.children = []) (hk : m.kind = .leaf s) :
    Inside P (nodes.push m) th vis path i x p tail fl o cs act := by
  obtain ⟨rest, y, hst, hout⟩ := h.stands
  refine ⟨h.settled.push hm ?_ ?_ ?_ (fun _ hi => hi) ?_, rest, y, hst.push m,
    hout.push (Nat.le_trans hst.le (Nat.le_of_lt hst.lt_size)) m⟩ <;>
    simp [hk, Kind.phrase?, Kind.container?]

end Inside

/-! ### Phases -/

/-- What the builder is in the middle of when the walk is at an entry: `fresh` is a complete item
that is about to begin an alternative, and `act` are the containers that are worked on. -/
inductive Phase (P : Parsing) (nodes : Array ForestNode) (th : Nat → Thread) :
    Walk → (path : List Nat) → (fresh : Option (Phrase × Thread)) → (act : List Nat) → Prop where
  /-- The leg is at its end. -/
  | idle {k fl : Nat} {vis path : List Nat} {cs : List CallSite} {bs : List Branch}
      (h : Settled P nodes th [] vis) : Phase P nodes th ⟨none, k, vis, cs, bs, fl⟩ path none []
  /-- A complete item of an ambiguous node is next. -/
  | begun {id k p o fl y : Nat} {vis rest act : List Nat} {cs : List CallSite} {bs : List Branch}
      {x : Phrase} {prod : Production} (hx : P.chart.place? id = some ⟨.item p prod.body.length, o, k⟩)
      (hp : P.grammar.prods[p]? = some prod) (hy : kindAt nodes y = some (.ambiguous x))
      (hset : Settled P nodes th act vis) (h : Outer P nodes th fl y o cs rest act) :
      Phase P nodes th ⟨some id, k, vis, cs, bs, fl⟩ (y :: rest)
        (some (x, ⟨p, prod.body.length, o, k, padding prod.body.length o⟩)) act
  /-- An item is next. -/
  | inside {id k p dot o fl i : Nat} {vis path act : List Nat} {cs : List CallSite}
      {bs : List Branch} {x : Phrase} {prod : Production} {tail : List Piece}
      (hx : P.chart.place? id = some ⟨.item p dot, o, k⟩) (hp : P.grammar.prods[p]? = some prod)
      (hth : th i = ⟨p, dot, o, k, padding prod.body.length o ++ tail⟩)
      (h : Inside P nodes th vis path i x p tail fl o cs act) :
      Phase P nodes th ⟨some id, k, vis, cs, bs, fl⟩ path none (i :: act)
  /-- A finish is next, to be put in front of the children of its caller. -/
  | calling {id k m fl i : Nat} {n : NonTerminal} {vis path act : List Nat} {s : CallSite}
      {cs : List CallSite} {bs : List Branch} {x : Phrase} {tail : List Piece} {sym : Symbol}
      (hx : P.chart.place? id = some ⟨.finish n, m, k⟩) (hfl : fl ≤ cs.length)
      (hs : P.grammar.symbolAt? s.prod s.dot = some sym)
      (hth : th i = ⟨s.prod, s.dot, s.origin, m, .phrase ⟨n, m, k⟩ :: tail⟩)
      (h : Inside P nodes th vis path i x s.prod tail fl s.origin cs act) :
      Phase P nodes th ⟨some id, k, vis, s :: cs, bs, fl⟩ path none (i :: act)
  /-- The start of the nonterminal is next, and the children are complete. -/
  | leaving {id k p fl i : Nat} {n : NonTerminal} {vis path act : List Nat} {cs : List CallSite}
      {bs : List Branch} {x : Phrase} {tail : List Piece}
      (hx : P.chart.place? id = some ⟨.start n, k, k⟩)
      (hth : ∀ r, (th i).Yields P.grammar P.tokens r ↔ r = ⟨p, tail⟩)
      (h : Inside P nodes th vis path i x p tail fl k cs act) :
      Phase P nodes th ⟨some id, k, vis, cs, bs, fl⟩ path none (i :: act)

section Phase

variable {id k m fl : Nat} {n : NonTerminal} {vis path act : List Nat} {cs : List CallSite}
  {bs : List Branch} {fresh : Option (Phrase × Thread)}

/-- At a finish the builder waits for a child of the innermost call. -/
lemma Phase.of_finish (h : Phase P nodes th ⟨some id, k, vis, cs, bs, fl⟩ path fresh act)
    (hx : P.chart.place? id = some ⟨.finish n, m, k⟩) :
    ∃ s cs' i x tail act' sym, cs = s :: cs' ∧ act = i :: act' ∧ fresh = none ∧ fl ≤ cs'.length ∧
      P.grammar.symbolAt? s.prod s.dot = some sym ∧
      th i = ⟨s.prod, s.dot, s.origin, m, .phrase ⟨n, m, k⟩ :: tail⟩ ∧
      Inside P nodes th vis path i x s.prod tail fl s.origin cs' act' := by
  cases h with
  | begun hx' =>
    rw [hx] at hx'
    cases hx'
  | inside hx' =>
    rw [hx] at hx'
    cases hx'
  | leaving hx' =>
    rw [hx] at hx'
    cases hx'
  | calling hx' hfl hs hth hin =>
    rw [hx] at hx'
    cases hx'
    exact ⟨_, _, _, _, _, _, _, rfl, rfl, rfl, hfl, hs, hth, hin⟩

/-- At a start the pieces of the innermost container are all chosen. -/
lemma Phase.of_start (h : Phase P nodes th ⟨some id, k, vis, cs, bs, fl⟩ path fresh act)
    (hx : P.chart.place? id = some ⟨.start n, m, k⟩) :
    ∃ p i x tail act', m = k ∧ act = i :: act' ∧ fresh = none ∧
      (∀ r, (th i).Yields P.grammar P.tokens r ↔ r = ⟨p, tail⟩) ∧
      Inside P nodes th vis path i x p tail fl k cs act' := by
  cases h with
  | begun hx' =>
    rw [hx] at hx'
    cases hx'
  | inside hx' =>
    rw [hx] at hx'
    cases hx'
  | calling hx' =>
    rw [hx] at hx'
    cases hx'
  | leaving hx' hth hin =>
    rw [hx] at hx'
    cases hx'
    exact ⟨_, _, _, _, _, rfl, rfl, rfl, hth, hin⟩

end Phase

/-- What holds between a walk and a builder that was told its reports. -/
structure Tracks (P : Parsing) (w : Walk) (b : ForestBuilder) (th : Nat → Thread)
    (fresh : Option (Phrase × Thread)) (saved : Saved) (act : List Nat) : Prop where
  /-- The builder is where the walk is. -/
  phase : Phase P b.nodes th w b.path fresh act
  /-- The snapshots are what is saved. -/
  kept : Kept b.nodes b.snapshots saved w.branches
  /-- The walk comes back to finish entries that it went into. -/
  entered : ∀ d ∈ w.branches, d.site = none → d.entry ∈ w.visited
  /-- The walk comes back to entries that have several antecedents. -/
  branching : ∀ d ∈ w.branches, P.chart.branches d.entry = true
  /-- There is a root. -/
  rooted : b.root.isSome = true

end ParseForest
