import ParseForest.Proofs.Forest.Operations

/-!
# What a builder of forests does at an item

Passing an item puts the token or the phrase before its dot in front of the children, or what stands
for nothing if there is no symbol; a complete item of an ambiguous node begins an alternative first.
No account changes, unless the item has several antecedents and the builder saves at it where it
still is to come back to, `handle_overwrites`.
-/

namespace ParseForest

variable {P : Parsing} {w w' : Walk} {ev : WalkEvent} {b b' : ForestBuilder} {th th' : Nat → Thread}
  {fresh : Option (Phrase × Thread)} {saved : Saved} {act act' : List Nat}
  {acc acc' : Phrase → Reading → Nat} {nodes nodes' : Array ForestNode}

/-! ### Accounts of a builder -/

/-- How often readings of phrases are stored or going to be, by a builder that was told the reports
of the walk. -/
def Accounts (P : Parsing) (w : Walk) (b : ForestBuilder) (acc : Phrase → Reading → Nat) : Prop :=
  ∃ th fresh saved act, Tracks P w b th fresh saved act ∧
    ∀ x r, acc x r = account P b.nodes th fresh saved w.branches x r

/-- The accounts of phrases are not changed, and a phrase that is given a node has all its
readings. -/
structure Conserves (P : Parsing) (nodes : Array ForestNode) (acc : Phrase → Reading → Nat)
    (nodes' : Array ForestNode) (acc' : Phrase → Reading → Nat) : Prop where
  /-- Phrases keep their nodes. -/
  known : ∀ x, Known nodes x → Known nodes' x
  /-- The account of a phrase stays the same. -/
  old : ∀ x r, Known nodes x → acc' x r = acc x r
  /-- The account of a phrase begins with all its readings. -/
  new : ∀ x r, Known nodes' x → ¬ Known nodes x → acc' x r = readsWeight P.grammar P.tokens x r

/-- All readings of all phrases are stored or going to be, once. -/
def Exact (P : Parsing) (nodes : Array ForestNode) (acc : Phrase → Reading → Nat) : Prop :=
  ∀ x, Known nodes x → ∀ r, acc x r = readsWeight P.grammar P.tokens x r

/-- A reading of a phrase is not going to be stored. -/
structure Lossy (P : Parsing) (nodes : Array ForestNode) (acc : Phrase → Reading → Nat) :
    Prop where
  /-- What is stored are readings. -/
  sound : ∀ x r, Known nodes x → 0 < acc x r → P.grammar.Reads P.tokens x r
  /-- Some reading is not. -/
  lost : ∃ x r, Known nodes x ∧ P.grammar.Reads P.tokens x r ∧ acc x r = 0

lemma Exact.sound (h : Exact P nodes acc) {x : Phrase} {r : Reading} (hx : Known nodes x)
    (hr : 0 < acc x r) : P.grammar.Reads P.tokens x r := by
  rw [h x hx] at hr
  exact readsWeight_pos_iff.1 hr

lemma Exact.not_lossy (h : Exact P nodes acc) : ¬ Lossy P nodes acc := by
  rintro ⟨-, x, r, hx, hr, hzero⟩
  have hpos := readsWeight_pos_iff.2 hr
  rw [← h x hx, hzero] at hpos
  exact Nat.lt_irrefl 0 hpos

lemma Conserves.exact (h : Conserves P nodes acc nodes' acc') (he : Exact P nodes acc) :
    Exact P nodes' acc' := by
  intro x hx r
  by_cases hold : Known nodes x
  · rw [h.old x r hold, he x hold]
  · exact h.new x r hx hold

lemma Conserves.lossy (h : Conserves P nodes acc nodes' acc') (hl : Lossy P nodes acc) :
    Lossy P nodes' acc' := by
  refine ⟨fun x r hx hr => ?_, ?_⟩
  · by_cases hold : Known nodes x
    · rw [h.old x r hold] at hr
      exact hl.sound x r hold hr
    · rw [h.new x r hx hold] at hr
      exact readsWeight_pos_iff.1 hr
  · obtain ⟨x, r, hx, hr, hzero⟩ := hl.lost
    exact ⟨x, r, h.known x hx, hr, by rw [h.old x r hx, hzero]⟩

/-- The builder takes the report, and its accounts are conserved. -/
def Conserved (P : Parsing) (b : ForestBuilder) (acc : Phrase → Reading → Nat) (ev : WalkEvent)
    (w' : Walk) : Prop :=
  ∃ b' acc', b.handle P ev = .ok b' ∧ Accounts P w' b' acc' ∧ Conserves P b.nodes acc b'.nodes acc'

/-- Reports that only go on with what the builder is in the middle of. -/
lemma conserved_of_gains (h : Tracks P w b th fresh saved act)
    (hacc : ∀ x r, acc x r = account P b.nodes th fresh saved w.branches x r)
    (hh : b.handle P ev = .ok b') (hsnap : b'.snapshots = b.snapshots) (hroot : b'.root = b.root)
    (hphase : Phase P b'.nodes th' w' b'.path none act')
    (hg : Gains P b.nodes th b'.nodes th' (freshWeight P fresh)) (hbs : w'.branches = w.branches)
    (hvis : w.visited ⊆ w'.visited) : Conserved P b acc ev w' := by
  refine ⟨b', acc, hh, ⟨th', none, saved, act', ⟨hphase, ?_, ?_, ?_, ?_⟩, fun x r => ?_⟩,
    fun x => (hg.known x).2, fun _ _ _ => rfl, fun x r hx hnot => ?_⟩
  · rw [hsnap, hbs]
    exact h.kept.mono hg.evolves
  · rw [hbs]
    exact fun d hd hsite => hvis (h.entered d hd hsite)
  · rw [hbs]
    exact h.branching
  · rw [hroot]
    exact h.rooted
  · rw [hacc, account, account, hg.held, hbs]
    simp [freshWeight]
  · exact absurd ((hg.known x).1 hx) hnot

/-! ### Phases at an item -/

section Item

variable {id k p dot o fl : Nat} {vis path : List Nat} {cs : List CallSite} {bs : List Branch}

/-- An item is passed inside of a container. -/
lemma ForestBuilder.passItem_spec
    (h : Phase P b.nodes th ⟨some id, k, vis, cs, bs, fl⟩ b.path fresh act)
    (hx : P.chart.place? id = some ⟨.item p dot, o, k⟩) :
    ∃ nodes' path' i x tail th' act' prod,
      (∀ e ev, b.passItem P p dot e ev =
        passSymbol P { b with nodes := nodes', path := path' } p dot e ev) ∧
      P.grammar.prods[p]? = some prod ∧
      th' i = ⟨p, dot, o, k, padding prod.body.length o ++ tail⟩ ∧
      Inside P nodes' th' vis path' i x p tail fl o cs act' ∧
      Gains P b.nodes th nodes' th' (freshWeight P fresh) := by
  generalize hpath : b.path = path at h
  cases h with
  | @begun _ _ _ _ _ _ _ _ _ _ _ _ prod hx' hp hy hset hout =>
    rw [hx] at hx'
    cases hx'
    have hids : piecesOf b.nodes [] = ([] : List Piece).map some := rfl
    obtain ⟨nodes', heq, hin, -, hg⟩ :=
      beginAlternative_spec (p := p) hpath hy hids hset hout ⟨p, _, o, k, padding _ o⟩
    rw [hpath] at hin heq
    refine ⟨nodes', _, _, _, [], _, _, _, fun e ev => ?_, hp, ?_, hin, hg⟩
    · have hcomplete : P.grammar.isComplete (.item p prod.body.length) = true := by
        simp [Grammar.isComplete, hp]
      rw [passItem, hcomplete, topIsAmbiguous_of_ambiguous hpath hy, heq]
      rfl
    · rw [Function.update_self, List.append_nil]
  | inside hx' hp hth hin =>
    rw [hx] at hx'
    cases hx'
    obtain ⟨rest, y, hst, -⟩ := hin.stands
    rw [← hpath] at hst hin
    refine ⟨b.nodes, b.path, _, _, _, th, _, _, fun e ev => ?_, hp, hth, hin, Alike.refl.gains⟩
    rw [passItem, topIsAmbiguous_of_stands hst, Bool.and_false]
    rfl
  | calling hx' =>
    rw [hx] at hx'
    cases hx'
  | leaving hx' =>
    rw [hx] at hx'
    cases hx'

lemma ForestBuilder.handle_item (hx : P.chart.place? id = some ⟨.item p dot, o, k⟩) :
    ∃ e : Entry, e.isBranching = P.chart.branches id ∧
      b.handle P ⟨.visit, id, k⟩ = b.passItem P p dot e ⟨.visit, id, k⟩ := by
  obtain ⟨e, he, hp⟩ := Chart.place?_eq_some.1 hx
  simp only [Entry.place, Place.mk.injEq] at hp
  exact ⟨e, (Chart.branches_eq_isBranching he).symm, by simp only [handle, he, hp.1]⟩

/-! ### The moves at an item -/

/-- A production that has a symbol is not padded. -/
lemma padding_eq_nil {prod : Production} {sym : Symbol} (hp : P.grammar.prods[p]? = some prod)
    (hs : P.grammar.symbolAt? p dot = some sym) (lo : Nat) : padding prod.body.length lo = [] := by
  rw [Grammar.symbolAt?_eq hp] at hs
  obtain ⟨hlt, -⟩ := List.getElem?_eq_some_iff.1 hs
  exact if_neg (Nat.ne_of_gt (Nat.zero_lt_of_lt hlt))

/-- Before the first symbol of a production the children are complete. -/
lemma conserved_enter (hP : P.Complete) {s : Nat} {prod : Production}
    (h : Tracks P ⟨some id, k, vis, cs, bs, fl⟩ b th fresh saved act)
    (hacc : ∀ x r, acc x r = account P b.nodes th fresh saved bs x r)
    (hx : P.chart.place? id = some ⟨.item p 0, o, k⟩) (hp : P.grammar.prods[p]? = some prod)
    (hs : P.chart.place? s = some ⟨.start prod.head, o, k⟩) :
    Conserved P b acc ⟨.visit, id, k⟩ ⟨some s, k, vis, cs, bs, fl⟩ := by
  obtain ⟨nodes, path, i, x, tail, th', act', prod', hpass, hp', hth, hin, hg⟩ :=
    ForestBuilder.passItem_spec h.phase hx
  obtain rfl := Option.some.inj (hp.symm.trans hp')
  obtain ⟨e, -, heq⟩ := ForestBuilder.handle_item (b := b) hx
  obtain rfl := hP.origin_start hs
  obtain ⟨hhead, ts, hts⟩ := (valid_item_iff hp).1 (hP.valid hx)
  have hlo : o ≤ P.tokens.length := by
    cases hts with
    | enter hp hlo => exact hlo
  rw [hpass] at heq
  have hempty : P.grammar.isEmptyItem (.item p 0) = prod.body.isEmpty := by
    simp [Grammar.isEmptyItem, hp]
  simp only [ForestBuilder.passSymbol, Grammar.prev?, hempty] at heq
  by_cases hbody : prod.body = []
  · -- What stands for nothing is put in front of the children.
    rw [if_pos (by simpa using hbody)] at heq
    have hleaf := hin.push_leaf (m := .epsilon o) rfl rfl
    have hchild : (kindAt (nodes.push (.epsilon o)) nodes.size).bind Kind.piece? =
        some (.epsilon o) := by
      simp [kindAt, ForestNode.kind, Kind.piece?]
    obtain ⟨nodes', hattach, hin', ha⟩ :=
      ForestBuilder.attach_spec (b := { b with nodes := nodes.push (.epsilon o), path := path })
        hleaf hchild
    simp only [ForestBuilder.addNode, hattach] at heq
    have hpad : padding prod.body.length o = [.epsilon o] := if_pos (by simp [hbody])
    rw [hpad] at hth
    refine conserved_of_gains h hacc heq rfl rfl (.leaving hs (fun r => ?_) hin')
      ((hg.trans (.push_leaf rfl)).trans ha) rfl (List.Subset.refl _)
    rw [hth, yields_zero_iff hp hlo]
    rfl
  · rw [if_neg (by simpa using hbody)] at heq
    have hpad : padding prod.body.length o = [] := if_neg (by simpa using hbody)
    rw [hpad] at hth
    refine conserved_of_gains h hacc heq rfl rfl (.leaving hs (fun r => ?_) hin) hg rfl (List.Subset.refl _)
    rw [hth, yields_zero_iff hp hlo]
    rfl

/-- Going back over a terminal puts its token in front of the children. -/
lemma conserved_scan (hP : P.Complete) {a : Nat} {t : Terminal}
    (h : Tracks P ⟨some id, k + 1, vis, cs, bs, fl⟩ b th fresh saved act)
    (hacc : ∀ x r, acc x r = account P b.nodes th fresh saved bs x r)
    (hx : P.chart.place? id = some ⟨.item p (dot + 1), o, k + 1⟩)
    (hs : P.grammar.symbolAt? p dot = some (.terminal t))
    (ha : P.chart.place? a = some ⟨.item p dot, o, k⟩) :
    Conserved P b acc ⟨.visit, id, k + 1⟩ ⟨some a, k, vis, cs, bs, fl⟩ := by
  obtain ⟨nodes, path, i, x, tail, th', act', prod, hpass, hp, hth, hin, hg⟩ :=
    ForestBuilder.passItem_spec h.phase hx
  obtain ⟨e, -, heq⟩ := ForestBuilder.handle_item (b := b) hx
  obtain ⟨k', u, hk, hu, rfl, -⟩ := hP.holds_item_of_scan hs hx
  obtain rfl : k = k' := by omega
  obtain ⟨nodes', leaf, htoken, hin', hleaf, hpiece⟩ :=
    ForestBuilder.token_spec (b := { b with nodes := nodes, path := path }) hu hin
  obtain ⟨nodes'', hattach, hin'', hfront⟩ :=
    ForestBuilder.attach_spec (b := { b with nodes := nodes', path := path }) hin' hpiece
  rw [hpass] at heq
  simp only [ForestBuilder.passSymbol, Grammar.prev?, hs, ForestBuilder.attachToken,
    Nat.succ_ne_zero, if_false, Nat.add_sub_cancel, htoken, Except.map, hattach] at heq
  have hpad := padding_eq_nil hp hs o
  have hweight : ∀ r, Thread.weight P.grammar P.tokens
      ⟨p, dot, o, k, padding prod.body.length o ++ .token k :: tail⟩ r =
      (th' i).weight P.grammar P.tokens r := by
    intro r
    rw [hth, hpad]
    exact (weight_eq_of_iff (yields_scan_iff hs hu)).symm
  refine conserved_of_gains h hacc heq rfl rfl
    (.inside ha hp (Function.update_self _ _ _) (hin''.rethread _))
    (((hg.trans hleaf).trans hfront).trans (.rethread hin''.container hweight)) rfl
    (List.Subset.refl _)

/-- Going into a nonterminal from behind chooses the phrase of the only antecedent. -/
lemma conserved_resume (hP : P.Complete) {a : Nat} {n : NonTerminal} (hfl : fl ≤ cs.length)
    (h : Tracks P ⟨some id, k, vis, cs, bs, fl⟩ b th fresh saved act)
    (hacc : ∀ x r, acc x r = account P b.nodes th fresh saved bs x r)
    (hx : P.chart.place? id = some ⟨.item p (dot + 1), o, k⟩)
    (hs : P.grammar.symbolAt? p dot = some (.nonterminal n)) (ha : P.chart.antecedents id = [a]) :
    Conserved P b acc ⟨.visit, id, k⟩ ⟨some a, k, vis, ⟨p, dot, o⟩ :: cs, bs, fl⟩ := by
  obtain ⟨nodes, path, i, x, tail, th', act', prod, hpass, hp, hth, hin, hg⟩ :=
    ForestBuilder.passItem_spec h.phase hx
  obtain ⟨e, he, heq⟩ := ForestBuilder.handle_item (b := b) hx
  rw [Chart.branches_eq, ha] at he
  rw [hpass] at heq
  simp only [ForestBuilder.passSymbol, Grammar.prev?, hs, he] at heq
  obtain ⟨m, hax, -⟩ := hP.exists_finish_of_mem (a := a) hx hs (by simp [ha])
  have hweight : ∀ r, Thread.weight P.grammar P.tokens
      ⟨p, dot, o, m, .phrase ⟨n, m, k⟩ :: tail⟩ r = (th' i).weight P.grammar P.tokens r := by
    intro r
    rw [hth, padding_eq_nil hp hs o, List.nil_append, hP.weight_resume hs hx, ha,
      threadsWeight_cons, threadsWeight_nil, thread_some hax, Nat.add_zero]
  exact conserved_of_gains h hacc heq rfl rfl
    (.calling hax hfl hs (Function.update_self _ _ _) (hin.rethread _))
    (hg.trans (.rethread hin.container hweight)) rfl (List.Subset.refl _)

/-- Going into a nonterminal by one of several phrases, the builder saves the phrase and the pieces
`v` that it is inside of; the readings that are not chosen yet are its own. -/
lemma handle_branching (hP : P.Complete) {a : Nat} {untried : List Nat} {n : NonTerminal}
    (hfl : fl ≤ cs.length) (h : Tracks P ⟨some id, k, vis, cs, bs, fl⟩ b th fresh saved act)
    (hx : P.chart.place? id = some ⟨.item p (dot + 1), o, k⟩)
    (hs : P.grammar.symbolAt? p dot = some (.nonterminal n))
    (ha : P.chart.antecedents id = a :: untried) (hbr : P.chart.branches id = true) :
    ∃ b' acc' v, b.handle P ⟨.visit, id, k⟩ = .ok b' ∧
      Accounts P ⟨some a, k, vis, ⟨p, dot, o⟩ :: cs,
        Walk.defer ⟨id, k, cs, some ⟨p, dot, o⟩, untried⟩ bs, fl⟩ b' acc' ∧
      (∀ x, Known b'.nodes x ↔ Known b.nodes x) ∧
      (∀ x r, acc' x r = account P b.nodes th fresh (Function.update saved id v) bs x r) ∧
      ∀ r, threadsWeight P (some ⟨p, dot, o⟩) v.2 (P.chart.antecedents id) r ≤
        heldWeight P b.nodes th v.1 r + freshWeight P fresh v.1 r := by
  obtain ⟨nodes, path, i, x, tail, th', act', prod, hpass, hp, hth, hin, hg⟩ :=
    ForestBuilder.passItem_spec h.phase hx
  obtain ⟨e, he, heq⟩ := ForestBuilder.handle_item (b := b) hx
  obtain ⟨nodes', path', i', y, rest, th'', hsplit, rfl, hy, hst, hin', hthi, halike⟩ :=
    ForestBuilder.split_spec (b := { b with nodes := nodes, path := path }) hin
  rw [hpass] at heq
  simp only [ForestBuilder.passSymbol, Grammar.prev?, hs, he, hbr, if_true, hsplit, Except.map,
    ForestBuilder.save] at heq
  rw [ForestBuilder.outerPath_eq hst, ForestBuilder.topChildren_eq hst] at heq
  obtain ⟨m, hax, -⟩ := hP.exists_finish_of_mem (a := a) hx hs (by simp [ha])
  have hweight : ∀ r, (th'' i').weight P.grammar P.tokens r =
      threadsWeight P (some ⟨p, dot, o⟩) tail (P.chart.antecedents id) r := by
    intro r
    rw [hthi, hth, padding_eq_nil hp hs o, List.nil_append, hP.weight_resume hs hx]
  have hheld : ∀ x r, heldWeight P nodes' th'' x r =
      heldWeight P b.nodes th x r + freshWeight P fresh x r :=
    (hg.trans halike).held
  refine ⟨_, _, (x, tail), heq, ⟨_, none, Function.update saved id (x, tail), _,
    ⟨.calling hax hfl hs (Function.update_self _ _ _) (hin'.rethread _), ?_, ?_, ?_, h.rooted⟩,
    fun _ _ => rfl⟩, (hg.trans halike).known, fun x' r => ?_, fun r => ?_⟩
  · exact (h.kept.mono (hg.trans halike).evolves).save hy hst.piecesOf_eq untried
  · exact Walk.forall_mem_defer (fun hsite => by cases hsite) h.entered
  · exact Walk.forall_mem_defer hbr h.branching
  · have hupdate : heldWeight P nodes' (Function.update th'' i'
        ⟨p, dot, o, m, .phrase ⟨n, m, k⟩ :: tail⟩) x' r + _ = _ :=
      heldWeight_update hin'.container
    have hsum := hweight r
    rw [ha, threadsWeight_cons, thread_some hax] at hsum
    dsimp only at hsum
    rw [account, account, pendingWeight_defer, ← hheld]
    simp only [freshWeight, branchWeight, Function.update_self]
    by_cases hxx : x = x'
    · rw [if_pos hxx]
      rw [added, if_pos hxx, added, if_pos hxx] at hupdate
      omega
    · rw [if_neg hxx]
      rw [added, if_neg hxx, added, if_neg hxx] at hupdate
      omega
  · rw [← hheld, ← hweight]
    exact weight_le_heldWeight hin'.container

/-- Where the walk does not come back to the item for what was saved before, nothing changes. -/
lemma conserved_branching (hP : P.Complete) {a : Nat} {untried : List Nat} {n : NonTerminal}
    (hfl : fl ≤ cs.length) (h : Tracks P ⟨some id, k, vis, cs, bs, fl⟩ b th fresh saved act)
    (hacc : ∀ x r, acc x r = account P b.nodes th fresh saved bs x r)
    (hx : P.chart.place? id = some ⟨.item p (dot + 1), o, k⟩)
    (hs : P.grammar.symbolAt? p dot = some (.nonterminal n))
    (ha : P.chart.antecedents id = a :: untried) (hbr : P.chart.branches id = true)
    (hno : ¬ Pending id bs) :
    Conserved P b acc ⟨.visit, id, k⟩ ⟨some a, k, vis, ⟨p, dot, o⟩ :: cs,
      Walk.defer ⟨id, k, cs, some ⟨p, dot, o⟩, untried⟩ bs, fl⟩ := by
  obtain ⟨b', acc', v, hh, hacc', hknown, heq, -⟩ := handle_branching hP hfl h hx hs ha hbr
  refine ⟨b', acc', hh, hacc', fun x => (hknown x).2, fun x r _ => ?_, fun x r hx hnot => ?_⟩
  · rw [heq, hacc, account, account, pendingWeight_update hno]
  · exact absurd ((hknown x).1 hx) hnot

/-- What the walk comes back to an item for. -/
lemma Walk.BranchFits.site_eq {d : Branch} (h : Walk.BranchFits P.grammar P.chart d)
    (hx : P.chart.place? d.entry = some ⟨.item p (dot + 1), o, k⟩) :
    d.site = some ⟨p, dot, o⟩ ∧ d.untried <:+ P.chart.antecedents d.entry := by
  cases h with
  | finish hx' =>
    rw [hx] at hx'
    cases hx'
  | resume hx' hs hcs ha =>
    rw [hx] at hx'
    cases hx'
    exact ⟨rfl, ha⟩

/-- The walk comes back to an item for some reading. -/
lemma exists_branchWeight_pos (hP : P.Complete) {n : NonTerminal}
    {snapshots : List (Nat × Snapshot)} (hkept : Kept nodes snapshots saved bs)
    (hx : P.chart.place? id = some ⟨.item p (dot + 1), o, k⟩)
    (hs : P.grammar.symbolAt? p dot = some (.nonterminal n))
    (hfits : ∀ d ∈ bs, Walk.BranchFits P.grammar P.chart d) (hpend : Pending id bs) :
    ∃ d ∈ bs, d.entry = id ∧ Known nodes (saved id).1 ∧
      ∃ r, 0 < branchWeight P saved d (saved id).1 r := by
  obtain ⟨d, hd, rfl, hne⟩ := hpend
  obtain ⟨a, rest, huntried⟩ := List.exists_cons_of_ne_nil hne
  obtain ⟨hsite, hsuf⟩ := (hfits d hd).site_eq hx
  obtain ⟨prod, hp, -⟩ := hP.prod_of_item hx
  obtain ⟨snap, y, rest, -, -, hy, -⟩ := hkept d hd hne
  have hyields : ∃ r, (P.chart.thread (some ⟨p, dot, o⟩) (saved d.entry).2 a).Yields
      P.grammar P.tokens r :=
    hP.exists_yields_resume hp (by rwa [Grammar.symbolAt?_eq hp] at hs) hx
      (hsuf.subset (by simp [huntried]))
  obtain ⟨r, hr⟩ := hyields
  refine ⟨d, hd, rfl, ⟨y, by simp [hy, Kind.phrase?]⟩, r, ?_⟩
  rw [branchWeight, if_pos rfl, hsite, threadsWeight_pos_iff]
  exact ⟨a, by simp [huntried], hr⟩

/-- Where the walk is still to come back to the item for what was saved before, it will find what is
saved now, and the readings that it was to find are lost. -/
lemma handle_overwrites (hP : P.Complete) {a : Nat} {untried : List Nat} {n : NonTerminal}
    (hfl : fl ≤ cs.length) (h : Tracks P ⟨some id, k, vis, cs, bs, fl⟩ b th fresh saved act)
    (hacc : ∀ x r, acc x r = account P b.nodes th fresh saved bs x r)
    (hx : P.chart.place? id = some ⟨.item p (dot + 1), o, k⟩)
    (hs : P.grammar.symbolAt? p dot = some (.nonterminal n))
    (ha : P.chart.antecedents id = a :: untried) (hbr : P.chart.branches id = true)
    (hfits : ∀ d ∈ bs, Walk.BranchFits P.grammar P.chart d) (hpend : Pending id bs)
    (hv : Exact P b.nodes acc ∨ Lossy P b.nodes acc) :
    ∃ b' acc', b.handle P ⟨.visit, id, k⟩ = .ok b' ∧
      Accounts P ⟨some a, k, vis, ⟨p, dot, o⟩ :: cs,
        Walk.defer ⟨id, k, cs, some ⟨p, dot, o⟩, untried⟩ bs, fl⟩ b' acc' ∧
      Lossy P b'.nodes acc' := by
  obtain ⟨b', acc', v, hh, hacc', hknown, heq, hle⟩ := handle_branching hP hfl h hx hs ha hbr
  -- What the branches at the item are going to store is stored in the container as well.
  have hheld : ∀ d ∈ bs, d.entry = id → ∀ r, 0 < threadsWeight P d.site v.2 d.untried r →
      0 < heldWeight P b.nodes th v.1 r + freshWeight P fresh v.1 r := by
    rintro d hd rfl r hr
    obtain ⟨hsite, hsuf⟩ := (hfits d hd).site_eq hx
    rw [hsite] at hr
    obtain ⟨a', ha', hr⟩ := threadsWeight_pos_iff.1 hr
    exact Nat.lt_of_lt_of_le (threadsWeight_pos_iff.2 ⟨a', hsuf.subset ha', hr⟩) (hle r)
  have hpos : ∀ x r, 0 < acc' x r → 0 < acc x r := by
    intro x r hr
    rw [heq] at hr
    rw [hacc]
    exact account_update_pos hheld hr
  refine ⟨b', acc', hh, hacc', fun x r hx hr => ?_, ?_⟩
  · rw [hknown] at hx
    exact hv.elim (fun he => he.sound hx (hpos x r hr)) fun hl => hl.sound x r hx (hpos x r hr)
  rcases hv with he | hl
  · obtain ⟨d, hd, hid, hold, r, hbranch⟩ := exists_branchWeight_pos hP h.kept hx hs hfits hpend
    have hone := readsWeight_le_one (G := P.grammar) (w := P.tokens) (r := r) (saved id).1
    rw [← he _ hold r, hacc] at hone
    refine ⟨(saved id).1, r, (hknown _).2 hold, he.sound hold ?_, ?_⟩
    · rw [hacc, account]
      exact Nat.lt_of_lt_of_le hbranch
        (Nat.le_trans (branchWeight_le_pendingWeight hd) (Nat.le_add_left _ _))
    · rw [heq]
      exact account_update_lost hheld hd hid hbranch hone
  · obtain ⟨x, r, hx, hr, hzero⟩ := hl.lost
    refine ⟨x, r, (hknown x).2 hx, hr, ?_⟩
    by_contra hne
    have := hpos x r (Nat.pos_of_ne_zero hne)
    omega

end Item

end ParseForest
