import ParseForest.Proofs.Forest.Items

/-!
# What a builder of forests does at a nonterminal

Going into a phrase for the first time gives it a node, and its account begins with all its
readings: one for each complete item that is followed at once or later. At the start of the
nonterminal the node is left, or the alternative that the leg was about. Coming back to an entry
takes one antecedent of it out of those that are waiting.
-/

namespace ParseForest

variable {P : Parsing} {b : ForestBuilder} {th : Nat → Thread} {fresh : Option (Phrase × Thread)}
  {saved : Saved} {act : List Nat} {acc : Phrase → Reading → Nat} {nodes : Array ForestNode}
  {id k o fl : Nat} {n : NonTerminal} {vis path : List Nat} {cs : List CallSite} {bs : List Branch}

/-! ### Going into a phrase -/

/-- The nodes have been given the node `y` of a phrase, to be worked on. -/
structure Opened (P : Parsing) (nodes : Array ForestNode) (th : Nat → Thread)
    (nodes' : Array ForestNode) (y : Nat) (x : Phrase) (act vis : List Nat) : Prop where
  node : kindAt nodes' y = some (.plain x)
  /-- The node has no children so far. -/
  empty : childrenAt nodes' y = []
  /-- All other containers are as before. -/
  settled : Settled P nodes' th (y :: act) vis
  evolves : Evolves nodes nodes'
  known : ∀ x', Known nodes' x' ↔ Known nodes x' ∨ x = x'
  /-- The new node is a container of the phrase. -/
  held : ∀ x' r, heldWeight P nodes' th x' r = heldWeight P nodes th x' r + added P x (th y) x' r

/-- A phrase that was not gone into may be given a node. -/
lemma Settled.opened (hP : P.Complete) (h : Settled P nodes th act vis)
    (hx : P.chart.place? id = some ⟨.finish n, o, k⟩) (hid : id ∉ vis) :
    Opened P nodes th (nodes.push (.nonterminal n o k false [])) nodes.size ⟨n, o, k⟩ act
      (id :: vis) := by
  have hkind : kindAt (nodes.push (.nonterminal n o k false [])) = _ := kindAt_push _
  refine ⟨by rw [hkind, Function.update_self]; rfl, by rw [childrenAt_push, Function.update_self]; rfl,
    ?_, .push _, fun x => ?_, fun x r => ?_⟩
  · refine h.push rfl (fun x p hk => by cases hk) (fun x hk y => ?_) (fun x => ?_)
      (fun i hi => List.mem_cons_of_mem _ hi) fun x _ => List.mem_cons_self
    · cases hk
      exact h.not_known hP hx hid y
    · rw [List.exists_mem_cons_iff, hx, or_comm]
      refine or_congr_right ?_
      obtain ⟨m, lo, hi⟩ := x
      simp [ForestNode.kind, Kind.phrase?]
  · rw [known_push hkind]
    simp [ForestNode.kind, Kind.phrase?]
  · have hheld : heldWeight P (nodes.push (.nonterminal n o k false []))
        (Function.update th nodes.size (th nodes.size)) x r = _ :=
      heldWeight_push_container (by simp) hkind rfl
    rwa [Function.update_eq_self] at hheld

/-- The new node may be put in front of the children of another. -/
lemma Opened.front {nodes' : Array ForestNode} {y i : Nat} {x x' : Phrase}
    (h : Opened P nodes th nodes' y x act vis) (hact : i ∈ act) (hne : i ≠ y)
    (hi : (kindAt nodes' i).bind Kind.container? = some x') (child : Nat) :
    Opened P nodes th (nodes'.modify i (ForestBuilder.withChildren (child :: ·))) y x act vis := by
  have hkind : kindAt (nodes'.modify i (ForestBuilder.withChildren (child :: ·))) = _ :=
    kindAt_withChildren _
  have halike : Alike P nodes' th (nodes'.modify i (ForestBuilder.withChildren (child :: ·))) th :=
    .withChildren _
  refine ⟨by rw [hkind, h.node], ?_, h.settled.front (List.mem_cons_of_mem _ hact) hi child,
    h.evolves.trans halike.evolves, fun x => (halike.known x).trans (h.known x), fun x r => ?_⟩
  · rw [childrenAt_front hi, Function.update_of_ne hne.symm, h.empty]
  · rw [halike.held, h.held]

/-- A phrase that is read in a container has a node. -/
lemma Settled.known_of_container {i : Nat} {x : Phrase} (h : Settled P nodes th act vis)
    (hi : (kindAt nodes i).bind Kind.container? = some x) : Known nodes x := by
  obtain ⟨kind, hk, hcont⟩ := Option.bind_eq_some_iff.1 hi
  cases kind with
  | leaf s => cases hcont
  | ambiguous x' => cases hcont
  | plain x' =>
    cases hcont
    exact ⟨i, by simp [hk, Kind.phrase?]⟩
  | alternative x' p =>
    cases hcont
    obtain ⟨y, hy, -⟩ := h.owned i x p hk
    exact ⟨y, by simp [hy, Kind.phrase?]⟩

/-- Nothing is stored for a phrase that has no node. -/
lemma Settled.heldWeight_eq_zero {x : Phrase} (h : Settled P nodes th act vis)
    (hx : ¬ Known nodes x) (r : Reading) : heldWeight P nodes th x r = 0 := by
  by_contra hne
  obtain ⟨i, hi, -⟩ := heldWeight_pos_iff.1 (Nat.pos_of_ne_zero hne)
  exact hx (h.known_of_container hi)

/-- Nothing is going to be stored for a phrase that has no node. -/
lemma Kept.pendingWeight_eq_zero {snapshots : List (Nat × Snapshot)} {x : Phrase}
    (h : Kept nodes snapshots saved bs) (hx : ¬ Known nodes x) (r : Reading) :
    pendingWeight P saved bs x r = 0 := by
  rw [pendingWeight, List.sum_eq_zero_iff_forall_eq_nat]
  intro m hm
  obtain ⟨d, hd, rfl⟩ := List.mem_map.1 hm
  by_cases hne : d.untried = []
  · exact branchWeight_of_untried_nil hne
  · obtain ⟨snap, y, rest, -, -, hy, -⟩ := h d hd hne
    refine if_neg fun heq => hx ⟨y, ?_⟩
    rw [hy, ← heq]
    rfl

/-- The account of a phrase begins with all its readings. -/
lemma Opened.conserves {nodes' nodes'' : Array ForestNode} {act' vis' : List Nat} {y : Nat}
    {x : Phrase} {snapshots : List (Nat × Snapshot)} {acc' : Phrase → Reading → Nat}
    (h : Opened P nodes th nodes' y x act vis) (hset : Settled P nodes th act' vis')
    (hkept : Kept nodes snapshots saved bs) (hnot : ¬ Known nodes x)
    (hacc : ∀ x r, acc x r = heldWeight P nodes th x r + pendingWeight P saved bs x r)
    (hknown : ∀ x, Known nodes'' x ↔ Known nodes' x)
    (heq : ∀ x' r, acc' x' r + added P x (th y) x' r =
      heldWeight P nodes' th x' r + pendingWeight P saved bs x' r +
        if x = x' then readsWeight P.grammar P.tokens x' r else 0) :
    Conserves P nodes acc nodes'' acc' := by
  refine ⟨fun x' hx' => ?_, fun x' r hx' => ?_, fun x' r hx' hnot' => ?_⟩
  · rw [hknown, h.known]
    exact Or.inl hx'
  · have hne : x ≠ x' := by
      rintro rfl
      exact hnot hx'
    have hsum := heq x' r
    rw [h.held, if_neg hne] at hsum
    rw [hacc]
    omega
  · rw [hknown, h.known] at hx'
    obtain rfl := hx'.resolve_left hnot'
    have hsum := heq x r
    rw [h.held, if_pos rfl, hset.heldWeight_eq_zero hnot, hkept.pendingWeight_eq_zero hnot] at hsum
    omega

/-- The builder `b` stands before the new node `y` of a phrase, and `acc` are the accounts from
before the node was given. -/
structure Entering (P : Parsing) (nodes : Array ForestNode) (acc : Phrase → Reading → Nat)
    (b : ForestBuilder) (th : Nat → Thread) (saved : Saved) (act : List Nat) (y id : Nat) (x : Phrase)
    (fl : Nat) (vis : List Nat) (cs : List CallSite) (bs : List Branch) : Prop where
  opened : Opened P nodes th b.nodes y x act (id :: vis)
  settled : ∃ act', Settled P nodes th act' vis
  not_known : ¬ Known nodes x
  outer : Outer P b.nodes th fl y x.lo cs b.path act
  kept : Kept nodes b.snapshots saved bs
  entered : ∀ d ∈ bs, d.site = none → d.entry ∈ id :: vis
  branching : ∀ d ∈ bs, P.chart.branches d.entry = true
  rooted : b.root.isSome = true
  not_pending : ¬ Pending id bs
  account_eq : ∀ x r, acc x r = heldWeight P nodes th x r + pendingWeight P saved bs x r

lemma Entering.conserves {nodes' : Array ForestNode} {acc' : Phrase → Reading → Nat} {y : Nat}
    {x : Phrase} (h : Entering P nodes acc b th saved act y id x fl vis cs bs)
    (hknown : ∀ x, Known nodes' x ↔ Known b.nodes x)
    (heq : ∀ x' r, acc' x' r + added P x (th y) x' r =
      heldWeight P b.nodes th x' r + pendingWeight P saved bs x' r +
        if x = x' then readsWeight P.grammar P.tokens x' r else 0) :
    Conserves P nodes acc nodes' acc' := by
  obtain ⟨act', hset⟩ := h.settled
  exact h.opened.conserves hset h.kept h.not_known h.account_eq hknown heq

/-- The readings of a phrase are shared out between the item that is followed and the others. -/
lemma readsWeight_share (hP : P.Complete) {a p dot : Nat} {untried : List Nat}
    (hx : P.chart.place? id = some ⟨.finish n, o, k⟩) (ha : P.chart.antecedents id = a :: untried)
    (hax : P.chart.place? a = some ⟨.item p dot, o, k⟩) (x : Phrase) (r : Reading) :
    (if (⟨n, o, k⟩ : Phrase) = x then readsWeight P.grammar P.tokens x r else 0) =
      added P ⟨n, o, k⟩ ⟨p, dot, o, k, padding dot o⟩ x r +
        if (⟨n, o, k⟩ : Phrase) = x then threadsWeight P none [] untried r else 0 := by
  by_cases hxx : (⟨n, o, k⟩ : Phrase) = x
  · subst hxx
    rw [if_pos rfl, if_pos rfl, added_self, hP.weight_finish [] hx, ha, threadsWeight_cons,
      thread_none hax]
  · rw [if_neg hxx, if_neg hxx, added, if_neg hxx]

/-- The new node is the container of the only reading that there is. -/
lemma Entering.accounts_single (hP : P.Complete) {y a : Nat}
    (h : Entering P nodes acc b th saved act y id ⟨n, o, k⟩ fl vis cs bs)
    (hx : P.chart.place? id = some ⟨.finish n, o, k⟩) (ha : P.chart.antecedents id = [a]) :
    ∃ acc', Accounts P ⟨some a, k, id :: vis, cs, Walk.defer ⟨id, k, cs, none, []⟩ bs, fl⟩
        { b with path := y :: b.path } acc' ∧ Conserves P nodes acc b.nodes acc' := by
  obtain ⟨p, prod, hp, -, hax⟩ :=
    (hP.mem_antecedents_finish_iff hx).1 (by rw [ha]; exact List.mem_cons_self)
  have hcont : (kindAt b.nodes y).bind Kind.container? = some ⟨n, o, k⟩ := by
    simp [h.opened.node, Kind.container?]
  have hst : Stands b.nodes (y :: b.path) b.path y y ⟨n, o, k⟩ p [] :=
    .plain h.opened.node (by rw [h.opened.empty]; rfl)
  have hin : Inside P b.nodes th (id :: vis) (y :: b.path) y ⟨n, o, k⟩ p [] fl o cs act :=
    ⟨h.opened.settled, b.path, y, hst, h.outer⟩
  refine ⟨_, ⟨Function.update th y ⟨p, prod.body.length, o, k, padding prod.body.length o⟩, none,
    saved, y :: act, ⟨.inside hax hp ?_ (hin.rethread _), h.kept.mono h.opened.evolves, h.entered,
      h.branching, h.rooted⟩, fun _ _ => rfl⟩, h.conserves (fun _ => Iff.rfl) fun x r => ?_⟩
  · rw [Function.update_self, List.append_nil]
  · have hheld : heldWeight P b.nodes (Function.update th y
        ⟨p, prod.body.length, o, k, padding prod.body.length o⟩) x r + _ = _ :=
      heldWeight_update hcont
    rw [readsWeight_share hP hx ha hax, account, pendingWeight_defer,
      branchWeight_of_untried_nil rfl]
    simp only [freshWeight, threadsWeight_nil, ite_self]
    omega

/-- The new node is ambiguous, and the item that is followed is to begin an alternative. -/
lemma Entering.accounts_branching (hP : P.Complete) {y a : Nat} {untried : List Nat}
    (h : Entering P nodes acc b th saved act y id ⟨n, o, k⟩ fl vis cs bs)
    (hx : P.chart.place? id = some ⟨.finish n, o, k⟩) (ha : P.chart.antecedents id = a :: untried)
    (hbr : P.chart.branches id = true) :
    ∃ acc', Accounts P ⟨some a, k, id :: vis, cs, Walk.defer ⟨id, k, cs, none, untried⟩ bs, fl⟩
        ((ForestBuilder.modify { b with path := y :: b.path } y
          ForestBuilder.markAmbiguous).save id []) acc' ∧
      Conserves P nodes acc (b.nodes.modify y ForestBuilder.markAmbiguous) acc' := by
  obtain ⟨p, prod, hp, -, hax⟩ :=
    (hP.mem_antecedents_finish_iff hx).1 (by rw [ha]; exact List.mem_cons_self)
  have hy := h.opened.node
  have hkind := kindAt_markAmbiguous hy
  have hchild : childrenAt (b.nodes.modify y ForestBuilder.markAmbiguous) =
      Function.update (childrenAt b.nodes) y [] := by
    rw [childrenAt_markAmbiguous, ← h.opened.empty, Function.update_eq_self]
  have hself : kindAt (b.nodes.modify y ForestBuilder.markAmbiguous) y =
      some (.ambiguous ⟨n, o, k⟩) := by
    rw [hkind, Function.update_self]
  have hev := Evolves.mark hy hkind
  have hset := h.opened.settled.mark hy hkind hchild fun i hi hne =>
    (List.mem_cons.1 hi).resolve_left hne
  have hout : Outer P (b.nodes.modify y ForestBuilder.markAmbiguous) th fl y o cs b.path act :=
    h.outer.mono hev (fun j hj => by rw [hkind, Function.update_of_ne (Nat.ne_of_lt hj)])
      (fun j hj => by rw [hchild, Function.update_of_ne (Nat.ne_of_lt hj)]) fun _ _ => rfl
  have hkept : Kept (b.nodes.modify y ForestBuilder.markAmbiguous)
      ((id, ⟨y :: b.path, []⟩) :: b.snapshots) (Function.update saved id (⟨n, o, k⟩, []))
      (Walk.defer ⟨id, k, cs, none, untried⟩ bs) :=
    ((h.kept.mono h.opened.evolves).mono hev).save hself rfl untried
  have houter : ForestBuilder.outerPath (ForestBuilder.modify { b with path := y :: b.path } y
      ForestBuilder.markAmbiguous) = y :: b.path := by
    refine if_neg fun halt => ?_
    obtain ⟨x, q, hq⟩ := ForestBuilder.isAlternative_iff.1 halt
    rw [ForestBuilder.modify, hself] at hq
    cases hq
  refine ⟨_, ⟨th, some (⟨n, o, k⟩, _), Function.update saved id (⟨n, o, k⟩, []), act,
    ⟨.begun hax hp hself hset hout, ?_, Walk.forall_mem_defer (fun _ => List.mem_cons_self) h.entered,
      Walk.forall_mem_defer hbr h.branching, h.rooted⟩, fun _ _ => rfl⟩,
    h.conserves (known_mark hy hkind) fun x r => ?_⟩
  · rw [ForestBuilder.save, houter]
    exact hkept
  · have hheld : heldWeight P (b.nodes.modify y ForestBuilder.markAmbiguous) th x r + _ = _ :=
      heldWeight_mark (by simp) hy hkind
    rw [readsWeight_share hP hx ha hax, account, pendingWeight_defer,
      pendingWeight_update h.not_pending]
    simp only [freshWeight, branchWeight, Function.update_self]
    simp only [ForestBuilder.save, ForestBuilder.modify]
    omega

/-- The builder goes into the new node of a phrase, by the first of its complete items. -/
lemma Entering.accounts (hP : P.Complete) {y a : Nat} {untried : List Nat}
    (h : Entering P nodes acc b th saved act y id ⟨n, o, k⟩ fl vis cs bs)
    (hx : P.chart.place? id = some ⟨.finish n, o, k⟩) (ha : P.chart.antecedents id = a :: untried) :
    ∃ b' acc', (if P.chart.branches id then
        (ForestBuilder.modify { b with path := y :: b.path } y ForestBuilder.markAmbiguous).save id []
      else { b with path := y :: b.path }) = b' ∧
      Accounts P ⟨some a, k, id :: vis, cs, Walk.defer ⟨id, k, cs, none, untried⟩ bs, fl⟩ b' acc' ∧
      Conserves P nodes acc b'.nodes acc' := by
  cases hbr : P.chart.branches id with
  | false =>
    obtain rfl := (Chart.branches_eq_false_iff ha).1 hbr
    obtain ⟨acc', hacc', hcons⟩ := h.accounts_single hP hx ha
    exact ⟨_, acc', if_neg (by simp), hacc', hcons⟩
  | true =>
    obtain ⟨acc', hacc', hcons⟩ := h.accounts_branching hP hx ha hbr
    exact ⟨_, acc', if_pos rfl, hacc', hcons⟩

lemma ForestBuilder.handle_finish (hx : P.chart.place? id = some ⟨.finish n, o, k⟩)
    (hnot : ¬ Known b.nodes ⟨n, o, k⟩) {b' : ForestBuilder}
    (hb : attach { b with nodes := b.nodes.push (.nonterminal n o k false []) } b.nodes.size = b') :
    b.handle P ⟨.visit, id, k⟩ = .ok (if P.chart.branches id then
        (modify { b' with path := b.nodes.size :: b'.path } b.nodes.size markAmbiguous).save id []
      else { b' with path := b.nodes.size :: b'.path }) := by
  obtain ⟨e, he, hp⟩ := Chart.place?_eq_some.1 hx
  simp only [Entry.place, Place.mk.injEq] at hp
  simp only [handle, he, hp.1, enter, hp.2.1, nonterminal_of_not_known hnot, hb,
    Chart.branches_eq_isBranching he]

/-- The walk does not come back to a phrase that it has not gone into. -/
lemma not_pending_of_not_visited (hfits : ∀ d ∈ bs, Walk.BranchFits P.grammar P.chart d)
    (hentered : ∀ d ∈ bs, d.site = none → d.entry ∈ vis)
    (hx : P.chart.place? id = some ⟨.finish n, o, k⟩) (hid : id ∉ vis) : ¬ Pending id bs := by
  rintro ⟨d, hd, rfl, -⟩
  have hin := hentered d hd
  cases hfits d hd with
  | finish hx' => exact hid (hin rfl)
  | resume hx' =>
    rw [hx] at hx'
    cases hx'

/-- A phrase that is gone into for the first time is given all its readings. -/
lemma conserved_finish (hP : P.Complete) {a : Nat} {untried : List Nat}
    (h : Tracks P ⟨some id, k, vis, cs, bs, fl⟩ b th fresh saved act)
    (hacc : ∀ x r, acc x r = account P b.nodes th fresh saved bs x r)
    (hfits : ∀ d ∈ bs, Walk.BranchFits P.grammar P.chart d)
    (hx : P.chart.place? id = some ⟨.finish n, o, k⟩) (hid : id ∉ vis)
    (ha : P.chart.antecedents id = a :: untried) :
    Conserved P b acc ⟨.visit, id, k⟩
      ⟨some a, k, id :: vis, cs, Walk.defer ⟨id, k, cs, none, untried⟩ bs, fl⟩ := by
  obtain ⟨s, cs, i, x, tail, act, sym, rfl, rfl, rfl, hfl, hs, hth, hin⟩ := h.phase.of_finish hx
  obtain ⟨rest, y, hst, hout⟩ := hin.stands
  have hnot : ¬ Known b.nodes ⟨n, o, k⟩ := by
    rintro ⟨j, hj⟩
    exact hin.settled.not_known hP hx hid j hj
  have hst' := hst.push (.nonterminal n o k false [])
  have hpiece : (kindAt (b.nodes.push (.nonterminal n o k false [])) b.nodes.size).bind
      Kind.piece? = some (.phrase ⟨n, o, k⟩) := by
    rw [kindAt_push, Function.update_self]
    rfl
  have hopen := (hin.settled.opened hP hx hid).front List.mem_cons_self (Nat.ne_of_lt hst.lt_size)
    hst'.container b.nodes.size
  have hout' := Outer.cons hfl hst.lt_size hs (hst'.front hpiece) hth
    ((hout.push (Nat.le_of_lt (Nat.lt_of_le_of_lt hst.le hst.lt_size)) _).front hst'.container
      hst.le _)
  have hentering : Entering P b.nodes acc { b with nodes := _ } th saved _ b.nodes.size id ⟨n, o, k⟩
      _ vis _ bs :=
    ⟨hopen, ⟨_, hin.settled⟩, hnot, hout', h.kept,
      fun d hd hsite => List.mem_cons_of_mem _ (h.entered d hd hsite), h.branching, h.rooted,
      not_pending_of_not_visited hfits h.entered hx hid, hacc⟩
  obtain ⟨b', acc', hb', hacc', hcons⟩ := hentering.accounts hP hx ha
  have hattach := ForestBuilder.attach_eq
    (b := { b with nodes := b.nodes.push (.nonterminal n o k false []) }) hst' b.nodes.size
  refine ⟨b', acc', ?_, hacc', hcons⟩
  rw [ForestBuilder.handle_finish hx hnot hattach, ← hb']
  rfl

/-- The walk begins at a phrase, whose node is the root. -/
lemma exact_finish (hP : P.Complete) {a : Nat} {untried : List Nat}
    (hx : P.chart.place? id = some ⟨.finish n, o, k⟩) (ha : P.chart.antecedents id = a :: untried) :
    ∃ b' acc', ForestBuilder.empty.handle P ⟨.visit, id, k⟩ = .ok b' ∧
      Accounts P ⟨some a, k, [id], [], Walk.defer ⟨id, k, [], none, untried⟩ [], 0⟩ b' acc' ∧
      Exact P b'.nodes acc' := by
  have hnone : ∀ i, kindAt #[] i = none := fun i => by simp [kindAt]
  have hset : Settled P #[] (fun _ => ⟨0, 0, 0, 0, []⟩) [] [] := by
    constructor <;> simp [hnone]
  have hnot : ∀ x, ¬ Known #[] x := by simp [Known, hnone]
  have hout : Outer P #[.nonterminal n o k false []] (fun _ => ⟨0, 0, 0, 0, []⟩) 0 0 o [] [] [] :=
    .nil (Nat.le_refl 0)
  have hkept : Kept #[] [] (fun _ => (⟨n, o, k⟩, [])) [] := by simp [Kept]
  have hentering : Entering P #[] _ ⟨#[.nonterminal n o k false []], [], [], some 0⟩ _
      _ [] 0 id ⟨n, o, k⟩ 0 [] [] [] :=
    ⟨hset.opened hP hx (by simp), ⟨_, hset⟩, hnot _, hout, hkept, by simp, by simp, rfl,
      by simp [Pending], fun _ _ => rfl⟩
  obtain ⟨b', acc', hb', hacc', hcons⟩ := hentering.accounts hP hx ha
  refine ⟨b', acc', ?_, hacc', fun x hx' r => hcons.new x r hx' (hnot x)⟩
  rw [ForestBuilder.handle_finish hx (hnot _) rfl, ← hb']
  rfl

/-! ### Going out of a phrase -/

lemma ForestBuilder.handle_finishAgain (hx : P.chart.place? id = some ⟨.finish n, o, k⟩) :
    b.handle P ⟨.revisit, id, k⟩ =
      .ok ((b.nonterminal n o k).1.attach (b.nonterminal n o k).2) := by
  obtain ⟨e, he, hp⟩ := Chart.place?_eq_some.1 hx
  simp only [Entry.place, Place.mk.injEq] at hp
  simp only [handle, he, hp.1, hp.2.1]

/-- A phrase that is met again has its node put in front of the children. -/
lemma conserved_finishAgain (hP : P.Complete) {w' : Walk}
    (h : Tracks P ⟨some id, k, vis, cs, bs, fl⟩ b th fresh saved act)
    (hacc : ∀ x r, acc x r = account P b.nodes th fresh saved bs x r)
    (hx : P.chart.place? id = some ⟨.finish n, o, k⟩) (hid : id ∈ vis)
    (hl : Walk.Leaves P.chart ⟨some id, o, vis, cs, bs, fl⟩ w') :
    Conserved P b acc ⟨.revisit, id, k⟩ w' := by
  obtain ⟨s, cs, i, x, tail, act, sym, rfl, rfl, rfl, hfl, hs, hth, hin⟩ := h.phase.of_finish hx
  obtain ⟨y, hnode, hy⟩ :=
    ForestBuilder.nonterminal_of_known ((hin.settled.known ⟨n, o, k⟩).2 ⟨id, hid, hx⟩)
  have hpiece : (kindAt b.nodes y).bind Kind.piece? = some (.phrase ⟨n, o, k⟩) := by
    obtain ⟨kind, hk, hphrase⟩ := Option.bind_eq_some_iff.1 hy
    rw [hk]
    cases kind <;> cases hphrase <;> rfl
  obtain ⟨nodes', hattach, hin', halike⟩ := ForestBuilder.attach_spec hin hpiece
  have hh := ForestBuilder.handle_finishAgain (b := b) hx
  rw [hnode, hattach] at hh
  cases hl with
  | stop hle =>
    rw [List.length_cons] at hle
    omega
  | go _ hx' =>
    obtain ⟨prod, hp, -⟩ := hP.prod_of_item hx'
    refine conserved_of_gains h hacc hh rfl rfl (.inside hx' hp ?_ hin')
      halike.gains rfl (List.Subset.refl _)
    rw [hth, padding_eq_nil hp hs, List.nil_append]

lemma ForestBuilder.handle_start {kind : WalkKind} (hkind : kind ≠ .backtrack)
    (hx : P.chart.place? id = some ⟨.start n, o, k⟩) : b.handle P ⟨kind, id, k⟩ = b.close := by
  obtain ⟨e, he, hp⟩ := Chart.place?_eq_some.1 hx
  simp only [Entry.place, Place.mk.injEq] at hp
  cases kind with
  | visit => simp only [handle, he, hp.1]
  | revisit => simp only [handle, he, hp.1]
  | backtrack => exact absurd rfl hkind

/-- A container whose pieces are all chosen stores a single reading. -/
lemma Stands.sealed {rest : List Nat} {i y p : Nat} {x : Phrase} {tail : List Piece}
    (h : Stands nodes path rest i y x p tail)
    (hth : ∀ r, (th i).Yields P.grammar P.tokens r ↔ r = ⟨p, tail⟩) : Sealed P nodes th i := by
  refine ⟨p, tail, h.piecesOf_eq, fun x' q hq => ?_, hth⟩
  cases h with
  | plain hy =>
    rw [hy] at hq
    cases hq
  | alternative hy hi =>
    rw [hi] at hq
    cases hq
    rfl

/-- At the start of the nonterminal its node is left. -/
lemma conserved_start (hP : P.Complete) {w' : Walk} {vis' : List Nat} {kind : WalkKind}
    (hkind : kind ≠ .backtrack) (h : Tracks P ⟨some id, k, vis, cs, bs, fl⟩ b th fresh saved act)
    (hacc : ∀ x r, acc x r = account P b.nodes th fresh saved bs x r)
    (hx : P.chart.place? id = some ⟨.start n, o, k⟩) (hvis : vis' = vis ∨ vis' = id :: vis)
    (hl : Walk.Leaves P.chart ⟨some id, k, vis', cs, bs, fl⟩ w') :
    Conserved P b acc ⟨kind, id, k⟩ w' := by
  obtain ⟨p, i, x, tail, act, rfl, rfl, rfl, hth, hin⟩ := h.phase.of_start hx
  obtain ⟨rest, y, hst, hout⟩ := hin.stands
  have hh : b.handle P ⟨kind, id, o⟩ = .ok { b with path := rest } := by
    rw [ForestBuilder.handle_start hkind hx, ForestBuilder.close_eq hst]
  have hset : Settled P b.nodes th act vis' := by
    have hleft : Settled P b.nodes th act vis := hin.settled.leave fun j hj => by
      rcases List.mem_cons.1 hj with rfl | hj
      · exact Or.inr (hst.sealed hth)
      · exact Or.inl hj
    rcases hvis with rfl | rfl
    · exact hleft
    · exact hleft.visit hx
  have hsub : vis ⊆ vis' := by
    rcases hvis with rfl | rfl
    · exact List.Subset.refl _
    · exact List.subset_cons_self _ _
  have hgains : Gains P b.nodes th b.nodes th (freshWeight P none) := Alike.refl.gains
  cases hl with
  | stop hle =>
    cases hout with
    | nil => exact conserved_of_gains h hacc hh rfl rfl (.idle hset) hgains rfl hsub
    | cons hfl =>
      rw [List.length_cons] at hle
      omega
  | go hfl hx' =>
    cases hout with
    | nil hle =>
      rw [List.length_cons] at hle
      omega
    | cons _ hi hs hst' hth' hout' =>
      obtain ⟨prod, hp, -⟩ := hP.prod_of_item hx'
      refine conserved_of_gains h hacc hh rfl rfl
        (.inside hx' hp ?_ ⟨hset, _, _, hst', hout'⟩) hgains rfl hsub
      rw [hth', padding_eq_nil hp hs, List.nil_append]

/-! ### Coming back -/

namespace ForestBuilder

variable {snap : Snapshot}

lemma handle_backtrack_finish (hx : P.chart.place? id = some ⟨.finish n, o, k⟩)
    (hsnap : b.snapshots.lookup id = some snap) :
    b.handle P ⟨.backtrack, id, k⟩ = .ok { b with path := snap.path } := by
  obtain ⟨e, he, hp⟩ := Chart.place?_eq_some.1 hx
  simp only [Entry.place, Place.mk.injEq] at hp
  simp only [handle, he, hp.1, restore, hsnap, Except.map]

lemma handle_backtrack_item {p dot : Nat} (hx : P.chart.place? id = some ⟨.item p dot, o, k⟩)
    (hsnap : b.snapshots.lookup id = some snap) :
    b.handle P ⟨.backtrack, id, k⟩ =
      beginAlternative { b with path := snap.path } p snap.children := by
  obtain ⟨e, he, hp⟩ := Chart.place?_eq_some.1 hx
  simp only [Entry.place, Place.mk.injEq] at hp
  simp only [handle, he, hp.1, restore, hsnap]

end ForestBuilder

section

variable {a : Nat} {untried : List Nat} {d : Branch} {dead : List Branch}

lemma forall_mem_followed {p : Branch → Prop} (h : ∀ d' ∈ dead ++ d :: bs, p d')
    (hd : p d → p { d with untried := untried }) :
    ∀ d' ∈ { d with untried := untried } :: bs, p d' := by
  intro d' hd'
  rcases List.mem_cons.1 hd' with rfl | hd'
  · exact hd (h d (by simp))
  · exact h d' (by simp [hd'])

/-- Following an antecedent of the entry that is come back to takes it out of what is waiting. -/
lemma pendingWeight_followed (hdead : ∀ d ∈ dead, d.untried = []) (hd : d.untried = a :: untried)
    (x : Phrase) (r : Reading) :
    pendingWeight P saved (dead ++ d :: bs) x r =
      added P (saved d.entry).1 (P.chart.thread d.site (saved d.entry).2 a) x r +
        pendingWeight P saved ({ d with untried := untried } :: bs) x r := by
  rw [pendingWeight_dead hdead, pendingWeight_cons, pendingWeight_cons]
  simp only [branchWeight, hd, threadsWeight_cons, added]
  split <;> omega

/-- Coming back to an entry goes on from what was saved for it. -/
lemma conserved_backtrack (hP : P.Complete)
    (h : Tracks P ⟨none, k, vis, cs, dead ++ d :: bs, fl⟩ b th fresh saved act)
    (hacc : ∀ x r, acc x r = account P b.nodes th fresh saved (dead ++ d :: bs) x r)
    (hdead : ∀ d ∈ dead, d.untried = []) (hd : d.untried = a :: untried)
    (hfits : Walk.BranchFits P.grammar P.chart d) :
    Conserved P b acc ⟨.backtrack, d.entry, d.column⟩
      ⟨some a, d.column, vis, d.site.toList ++ d.callers, { d with untried := untried } :: bs,
        d.callers.length⟩ := by
  obtain ⟨hphase, hkept, hentered, hbranching, hroot⟩ := h
  have hne : d.untried ≠ [] := by simp [hd]
  have hmem : a ∈ d.untried := by
    rw [hd]
    exact List.mem_cons_self
  obtain ⟨⟨path, ids⟩, y, rest, hlook, rfl, hy, hids⟩ := hkept d (by simp) hne
  have hkept' : Kept b.nodes b.snapshots saved ({ d with untried := untried } :: bs) :=
    forall_mem_followed hkept fun h _ => h hne
  have hentered' : ∀ d' ∈ { d with untried := untried } :: bs, d'.site = none → d'.entry ∈ vis :=
    forall_mem_followed hentered id
  have hbranching' : ∀ d' ∈ { d with untried := untried } :: bs,
      P.chart.branches d'.entry = true :=
    forall_mem_followed hbranching id
  cases hphase with
  | idle hset =>
    cases hfits with
    | finish hx hcs hsuf =>
      obtain ⟨p, prod, hp, -, hax⟩ :=
        (hP.mem_antecedents_finish_iff (a := a) hx).1 (hsuf.subset hmem)
      refine ⟨_, acc, ForestBuilder.handle_backtrack_finish hx hlook,
        ⟨th, some (_, _), saved, [], ⟨.begun hax hp hy hset (.nil (Nat.le_refl _)), hkept', hentered',
          hbranching', hroot⟩, fun x r => ?_⟩, fun _ => id, fun _ _ _ => rfl,
        fun x r hx hnot => absurd hx hnot⟩
      rw [hacc, account, account, pendingWeight_followed hdead hd, thread_none hax]
      simp only [freshWeight]
      omega
    | @resume id k o p dot n cs untried' hx hs hcs hsuf =>
      obtain ⟨m, hax, -⟩ := hP.exists_finish_of_mem (a := a) hx hs (hsuf.subset hmem)
      have hout : Outer P b.nodes th cs.length y o cs rest [] := .nil (Nat.le_refl _)
      obtain ⟨nodes', heq, hin, -, hgains⟩ :=
        ForestBuilder.beginAlternative_spec (b := { b with path := y :: rest }) (p := p) rfl hy hids
          hset hout ⟨p, dot, o, m, .phrase ⟨n, m, k⟩ :: (saved id).2⟩
      refine ⟨_, acc, (ForestBuilder.handle_backtrack_item hx hlook).trans heq,
        ⟨_, none, saved, _, ⟨.calling hax (Nat.le_refl _) hs (Function.update_self _ _ _) hin,
          hkept'.mono hgains.evolves, hentered', hbranching', hroot⟩, fun x r => ?_⟩,
        fun x => (hgains.known x).2, fun _ _ _ => rfl,
        fun x r hx hnot => absurd ((hgains.known x).1 hx) hnot⟩
      rw [hacc, account, account, pendingWeight_followed hdead hd, thread_some hax,
        hgains.held]
      simp only [freshWeight]
      omega

end

end ParseForest
