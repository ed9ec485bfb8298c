import ParseForest.Proofs.Tree.Unique

/-!
# What a reported ambiguity means

A builder of trees that stops names a nonterminal and a range. What it has found is an entry with
two different lists of trees behind it. The main statement, `tree_ambiguous_spec`, says what this
makes of the range: the nonterminal has two derivations that begin where the range begins, but they
may end behind it, as the range of an item in the middle of a production is that of its matched
symbols only.

What a walk has behind it, to the right, is a derivation of the input with a gap (`Gap`). Each move
of the walk makes the gap smaller (`Descends.warrants`), so that whatever fills it can be completed.
-/

namespace ParseForest

open Walk

variable {P : Parsing} {opened : List Nat} {cs : List CallSite} {v : Vertex} {lo hi k : Nat}

/-! ### Derivations with a gap -/

/-- There is a derivation of the input from which only that is missing which the vertex has behind
it between `lo` and `hi`. The gap lies in the nodes of the finishes `opened` and in the calls
`cs`. -/
inductive Gap (P : Parsing) : List Nat → List CallSite → Vertex → Nat → Nat → Prop where
  /-- Everything is missing. -/
  | whole : Gap P [] [] (.finish P.grammar.start) 0 P.tokens.length
  /-- The children of a node are missing. -/
  | enter {opened : List Nat} {cs : List CallSite} {p lo hi id : Nat} {prod : Production}
      (hx : P.chart.place? id = some ⟨.finish prod.head, lo, hi⟩)
      (hp : P.grammar.prods[p]? = some prod)
      (h : Gap P opened cs (.finish prod.head) lo hi) :
      Gap P (id :: opened) cs (.item p prod.body.length) lo hi
  /-- A token is there, what is before it is missing. -/
  | scan {opened : List Nat} {cs : List CallSite} {p dot lo k : Nat} {u : Token}
      (hs : P.grammar.symbolAt? p dot = some (.terminal u.kind)) (hu : P.tokens[k]? = some u)
      (h : Gap P opened cs (.item p (dot + 1)) lo (k + 1)) : Gap P opened cs (.item p dot) lo k
  /-- A nonterminal is missing, what is before it is put off. -/
  | call {opened : List Nat} {cs : List CallSite} {p dot lo mid hi : Nat} {prod : Production}
      {n : NonTerminal} (hp : P.grammar.prods[p]? = some prod)
      (hs : prod.body[dot]? = some (.nonterminal n))
      (hm : P.grammar.Matches P.tokens p dot lo mid)
      (hc : prod.permits (prod.context p dot n lo mid hi P.tokens) = true)
      (h : Gap P opened cs (.item p (dot + 1)) lo hi) :
      Gap P opened (⟨p, dot, lo⟩ :: cs) (.finish n) mid hi
  /-- A nonterminal is there, what is before it is missing. -/
  | back {opened : List Nat} {cs : List CallSite} {p dot lo mid hi : Nat} {prod : Production}
      {n : NonTerminal} {t : Tree} (hp : P.grammar.prods[p]? = some prod)
      (hs : prod.body[dot]? = some (.nonterminal n)) (hn : P.grammar.Derives P.tokens n mid hi t)
      (hc : prod.permits (prod.context p dot n lo mid hi P.tokens) = true)
      (h : Gap P opened cs (.item p (dot + 1)) lo hi) : Gap P opened cs (.item p dot) lo mid
  /-- Nothing is missing from the children of a node. -/
  | start {opened : List Nat} {cs : List CallSite} {p lo : Nat} {prod : Production}
      (hp : P.grammar.prods[p]? = some prod) (h : Gap P opened cs (.item p 0) lo lo) :
      Gap P opened cs (.start prod.head) lo lo

namespace Gap

/-- What is missing from an item completes the innermost open node. -/
lemma node (h : Gap P opened cs v lo k) : (∃ n, v = .finish n) ∨
    ∃ id outer n hi, opened = id :: outer ∧ P.chart.place? id = some ⟨.finish n, lo, hi⟩ ∧
      P.grammar.headOf? v = some n ∧ Gap P outer cs (.finish n) lo hi := by
  induction h with
  | whole => exact Or.inl ⟨_, rfl⟩
  | call hp hs hm hc h ih => exact Or.inl ⟨_, rfl⟩
  | enter hx hp h ih =>
    exact Or.inr ⟨_, _, _, _, rfl, hx, by simp [Grammar.headOf?, hp], h⟩
  | scan hs hu h ih =>
    obtain ⟨id, outer, n, hi, hopened, hx, hn, h⟩ := ih.resolve_left (by simp)
    exact Or.inr ⟨id, outer, n, hi, hopened, hx, hn, h⟩
  | back hp hs hn hc h ih =>
    obtain ⟨id, outer, n, hi, hopened, hx, hn, h⟩ := ih.resolve_left (by simp)
    exact Or.inr ⟨id, outer, n, hi, hopened, hx, hn, h⟩
  | start hp h ih =>
    obtain ⟨id, outer, n, hi, hopened, hx, hn, h⟩ := ih.resolve_left (by simp)
    exact Or.inr ⟨id, outer, n, hi, hopened, hx, by simpa [Grammar.headOf?, hp] using hn, h⟩

/-- With the nonterminal filled in, the item that called it is what is missing. -/
lemma fill {s : CallSite} {n : NonTerminal} {t : Tree}
    (h : Gap P opened (s :: cs) (.finish n) lo hi)
    (ht : P.grammar.Derives P.tokens n lo hi t) :
    Gap P opened cs (.item s.prod s.dot) s.origin lo := by
  cases h with
  | call hp hs hm hc h => exact .back hp hs ht hc h

/-- What fills the gap behind an item goes on to a whole production. -/
lemma completes {p dot : Nat} (h : Gap P opened cs (.item p dot) lo k) :
    ∃ prod hi us, P.grammar.prods[p]? = some prod ∧ k ≤ hi ∧ (dot = prod.body.length → hi = k) ∧
      ∀ ts, Spans P.grammar P.tokens (.item p dot) lo k ts →
        Spans P.grammar P.tokens (.item p prod.body.length) lo hi (ts ++ us) := by
  generalize hv : Vertex.item p dot = v at h
  induction h generalizing dot with
  | whole => cases hv
  | call hp hs hm hc h ih => cases hv
  | start hp h ih => cases hv
  | @enter _ _ _ lo hi id prod hx hp h ih =>
    cases hv
    exact ⟨prod, hi, [], hp, Nat.le_refl _, fun _ => rfl, fun ts hts => by rwa [List.append_nil]⟩
  | @scan _ _ _ _ lo k u hs hu h ih =>
    cases hv
    obtain ⟨prod, hi, us, hp, hle, -, hall⟩ := ih rfl
    refine ⟨prod, hi, .token k u :: us, hp, Nat.le_of_succ_le hle, ?_, fun ts hts => ?_⟩
    · rintro rfl
      rw [Grammar.symbolAt?_eq hp] at hs
      simp at hs
    · rw [List.append_cons]
      exact hall _ (.scan hts hs hu)
  | @back _ _ _ _ lo mid hi prod n t hp hs hn hc h ih =>
    cases hv
    obtain ⟨prod', hi', us, hp', hle, -, hall⟩ := ih rfl
    obtain rfl := Option.some.inj (hp.symm.trans hp')
    refine ⟨prod, hi', t :: us, hp, Nat.le_trans hn.le.1 hle, ?_, fun ts hts => ?_⟩
    · rintro rfl
      simp at hs
    · rw [List.append_cons]
      exact hall _ (.resume hts hp hs hn hc)

/-- What fills the gap is below all open nodes. -/
lemma deeper {ts : List Tree} (h : Gap P opened cs v lo hi)
    (hts : Spans P.grammar P.tokens v lo hi ts) :
    TreeBuilder.Above P opened (Tree.maxDepth ts) := by
  induction h generalizing ts with
  | whole => simp [TreeBuilder.Above]
  | @enter _ _ p lo hi id prod hx hp h ih =>
    have ht : P.grammar.Derives P.tokens prod.head lo hi _ := .exit hp hts
    have hlt := TreeBuilder.maxDepth_lt_depth prod.head p lo hi ts
    intro id' hid'
    rcases List.mem_cons.1 hid' with rfl | hid'
    · exact ⟨_, _, _, _, hx, ht, hlt⟩
    · refine (ih ht).mono ?_ id' hid'
      rw [Tree.maxDepth]
      omega
  | scan hs hu h ih =>
    exact (ih (.scan hts hs hu)).mono (TreeBuilder.maxDepth_le_append _ _).1
  | call hp hs hm hc h ih =>
    obtain ⟨us, hus⟩ := hm
    cases hts with
    | exit hq hm' =>
      refine (ih (.resume hus hp hs (.exit hq hm') hc)).mono ?_
      exact (TreeBuilder.maxDepth_le_append us _).2
  | back hp hs hn hc h ih =>
    exact (ih (.resume hts hp hs hn hc)).mono (TreeBuilder.maxDepth_le_append _ _).1
  | start hp h ih => cases hts

end Gap

/-! ### What a builder keeps -/

namespace TreeBuilder

/-- The finish entries of the open nodes, the innermost first. -/
def openEntries (b : TreeBuilder) : List Nat :=
  b.stack.map (·.entry)

variable {b b' : TreeBuilder} {p dot : Nat}

@[simp] lemma openEntries_attach (b : TreeBuilder) (t : Tree) :
    (b.attach t).openEntries = b.openEntries := by
  unfold attach
  split
  · rfl
  · next h => simp [openEntries, h]

@[simp] lemma finished_attach (b : TreeBuilder) (t : Tree) :
    (b.attach t).finished = b.finished := by
  unfold attach
  split <;> rfl

@[simp] lemma openEntries_setProd (b : TreeBuilder) (p : Nat) :
    (b.setProd p).openEntries = b.openEntries := by
  unfold setProd
  split
  · rfl
  · next h => simp [openEntries, h]

@[simp] lemma finished_setProd (b : TreeBuilder) (p : Nat) :
    (b.setProd p).finished = b.finished := by
  unfold setProd
  split <;> rfl

/-- The outcome of a report that changes only the children of the innermost open node, or faults. -/
def KeepsNodes (b : TreeBuilder) (r : Except TreeError TreeBuilder) : Prop :=
  (∃ f, r = .error (.fault f)) ∨
    ∃ b', r = .ok b' ∧ b'.openEntries = b.openEntries ∧ b'.finished = b.finished

lemma keepsNodes_attachToken (b : TreeBuilder) (k : Nat) : b.KeepsNodes (b.attachToken P k) := by
  unfold attachToken
  split
  · exact Or.inl ⟨_, rfl⟩
  · split
    · exact Or.inr ⟨_, rfl, by simp, by simp⟩
    · exact Or.inl ⟨_, rfl⟩

lemma keepsNodes_passItem (b : TreeBuilder) (p dot k : Nat) :
    b.KeepsNodes (b.passItem P p dot k) := by
  have hset : ∀ c : Bool, (if c then b.setProd p else b).openEntries = b.openEntries ∧
      (if c then b.setProd p else b).finished = b.finished := by
    intro c
    cases c <;> simp
  unfold passItem
  dsimp only
  split
  · rcases keepsNodes_attachToken (P := P) _ k with hf | ⟨b', hb', ho, hf⟩
    · exact Or.inl hf
    · exact Or.inr ⟨b', hb', ho.trans (hset _).1, hf.trans (hset _).2⟩
  · exact Or.inr ⟨_, rfl, hset _⟩
  · split
    · exact Or.inr ⟨_, rfl, by simp [hset], by simp [hset]⟩
    · exact Or.inr ⟨_, rfl, hset _⟩

/-- Closing the innermost open node, or a fault. -/
lemma close_cases (b : TreeBuilder) : (∃ f, b.close = .error (.fault f)) ∨
    ∃ id outer t b', b.openEntries = id :: outer ∧ b.close = .ok b' ∧ b'.openEntries = outer ∧
      b'.finished = (id, t) :: b.finished := by
  unfold close
  split
  · exact Or.inl ⟨_, rfl⟩
  · next top stack hstack =>
    split
    · exact Or.inl ⟨_, rfl⟩
    · next p hp =>
      refine Or.inr ⟨top.entry, stack.map (·.entry), .node top.symbol p top.lo top.hi top.children, _,
        by simp [openEntries, hstack], rfl, ?_, ?_⟩
      · rw [openEntries_attach]
        rfl
      · rw [finished_attach]

variable (P) in
/-- Each of the finishes among the entries is open or complete. -/
def Knows (b : TreeBuilder) (ids : List Nat) : Prop :=
  ∀ id ∈ ids, ∀ n lo hi, P.chart.place? id = some ⟨.finish n, lo, hi⟩ →
    id ∈ b.openEntries ∨ ∃ t, b.finished.lookup id = some t

lemma Knows.cons_start {ids : List Nat} {id : Nat} {n : NonTerminal} (h : b.Knows P ids)
    (hx : P.chart.place? id = some ⟨.start n, lo, k⟩) : b.Knows P (id :: ids) := by
  intro id' hid' n' lo' hi' hx'
  rcases List.mem_cons.1 hid' with rfl | hid'
  · cases hx.symm.trans hx'
  · exact h id' hid' n' lo' hi' hx'

end TreeBuilder

/-! ### Descending -/

/-- A walk and a builder that it has not stopped: the walk has no entry to come back to, what it
goes to next is missing from a derivation of the input, and the finishes that it went into are open
or complete. -/
structure Descends (P : Parsing) (w : Walk) (b : TreeBuilder) : Prop where
  branches_eq : w.branches = []
  gap : ∀ id, w.cursor = some id → ∃ v lo, P.chart.place? id = some ⟨v, lo, w.column⟩ ∧
    Gap P b.openEntries w.callers v lo w.column
  known : b.Knows P w.visited

/-- The entry of a report has two lists of trees behind it, which the nonterminal and the range are
those of, and it is missing from a derivation of the input. -/
def AmbiguousAt (P : Parsing) (ev : WalkEvent) (n : NonTerminal) (lo hi : Nat) : Prop :=
  ∃ v ids cs, P.chart.place? ev.entry = some ⟨v, lo, hi⟩ ∧ P.grammar.headOf? v = some n ∧
    Gap P ids cs v lo hi ∧ ∃ ts ts', ts ≠ ts' ∧ Spans P.grammar P.tokens v lo hi ts ∧
      Spans P.grammar P.tokens v lo hi ts'

/-- What a builder makes of a report that leads a walk on to `w'`: it descends with the walk, or
what it takes for an ambiguity is one. -/
def Warrants (P : Parsing) (ev : WalkEvent) (w' : Walk) : Except TreeError TreeBuilder → Prop
  | .ok b' => Descends P w' b'
  | .error (.ambiguous n lo hi) => AmbiguousAt P ev n lo hi
  | .error (.fault _) => True

section Moves

variable {w w' : Walk} {b b' : TreeBuilder} {ev : WalkEvent}

lemma Descends.gap_of_place? (h : Descends P w b) {id : Nat} (hid : w.cursor = some id)
    (hx : P.chart.place? id = some ⟨v, lo, k⟩) : Gap P b.openEntries w.callers v lo k := by
  obtain ⟨v', lo', hx', hgap⟩ := h.gap id hid
  obtain ⟨rfl, rfl, rfl⟩ : v = v' ∧ lo = lo' ∧ k = w.column := by simpa using hx.symm.trans hx'
  exact hgap

/-- The walk goes on before a nonterminal that has been filled in. -/
lemma Descends.leaves {cur : Option Nat} {vis : List Nat} {fl : Nat} {n : NonTerminal} {t : Tree}
    (hgap : Gap P b.openEntries cs (.finish n) lo hi) (ht : P.grammar.Derives P.tokens n lo hi t)
    (hknown : b.Knows P vis) (hl : Leaves P.chart ⟨cur, lo, vis, cs, [], fl⟩ w') :
    Descends P w' b := by
  cases hl with
  | stop hfl => exact ⟨rfl, nofun, hknown⟩
  | go hfl hx =>
    refine ⟨rfl, fun id hid => ?_, hknown⟩
    cases hid
    exact ⟨_, _, hx, hgap.fill ht⟩

/-- At an item that does not branch the walk goes on inside of the same nodes. -/
lemma warrants_item {id k' fl : Nat} {v' : Vertex} {vis : List Nat} {cs' : List CallSite}
    {r : Except TreeError TreeBuilder} (hr : b.KeepsNodes r) (hknown : b.Knows P vis)
    (hx : P.chart.place? id = some ⟨v', lo, k'⟩) (hgap : Gap P b.openEntries cs' v' lo k') :
    Warrants P ev ⟨some id, k', vis, cs', [], fl⟩ r := by
  rcases hr with ⟨f, rfl⟩ | ⟨b', rfl, hopen, hfin⟩
  · trivial
  · refine ⟨rfl, fun id' hid' => ?_, ?_⟩
    · cases hid'
      exact ⟨_, _, hx, hopen.symm ▸ hgap⟩
    · rw [TreeBuilder.Knows, hopen, hfin]
      exact hknown

/-- At the start of a nonterminal its node is closed. -/
lemma warrants_start {cur : Option Nat} {fl : Nat} {n : NonTerminal} {vis : List Nat}
    (hP : P.Complete) (hgap : Gap P b.openEntries cs (.start n) lo lo) (hknown : b.Knows P vis)
    (hl : Leaves P.chart ⟨cur, lo, vis, cs, [], fl⟩ w') : Warrants P ev w' b.close := by
  obtain ⟨id, outer, n', hi, hopen, hx, -, hgap'⟩ := hgap.node.resolve_left (by simp)
  rcases b.close_cases with ⟨f, hf⟩ | ⟨id', outer', t, b', hopen', hok, hopen'', hfin⟩
  · rw [hf]
    trivial
  · obtain ⟨rfl, rfl⟩ := List.cons_eq_cons.1 (hopen.symm.trans hopen')
    obtain ⟨-, t', ht'⟩ := valid_finish_iff.1 (hP.valid hx)
    rw [hok]
    refine Descends.leaves (hopen''.symm ▸ hgap') ht' (fun id' hid' n lo hi hplace => ?_) hl
    rw [hopen'', hfin, List.lookup_cons]
    split
    · exact Or.inr ⟨t, rfl⟩
    · next hne =>
      refine (hknown id' hid' n lo hi hplace).imp_left fun hmem => ?_
      rw [hopen] at hmem
      exact (List.mem_cons.1 hmem).resolve_left (beq_eq_false_iff_ne.1 hne)

/-- A finish that is met again is complete, or it lies inside of itself. -/
lemma warrants_finishAgain {id fl : Nat} {n : NonTerminal} {vis : List Nat} (hP : P.Complete)
    (hx : P.chart.place? id = some ⟨.finish n, lo, k⟩) (hid : id ∈ vis)
    (hgap : Gap P b.openEntries cs (.finish n) lo k) (hknown : b.Knows P vis)
    (hl : Leaves P.chart ⟨some id, lo, vis, cs, [], fl⟩ w') :
    Warrants P ⟨.revisit, id, k⟩ w' (b.handle P ⟨.revisit, id, k⟩) := by
  obtain ⟨-, t, ht⟩ := valid_finish_iff.1 (hP.valid hx)
  cases hlook : b.finished.lookup id with
  | some t' =>
    rw [TreeBuilder.handle_finishAgain hx hlook]
    refine Descends.leaves (by simpa using hgap) ht ?_ hl
    simpa [TreeBuilder.Knows] using hknown
  | none =>
    rw [TreeBuilder.handle_finishAgain_open hx hlook]
    have hopen := (hknown id hid _ _ _ hx).resolve_right (by simp [hlook])
    -- The phrase has a derivation that is deeper than what it has below it.
    obtain ⟨n', lo', hi', t', hx', ht', hlt⟩ := hgap.deeper ht id hopen
    cases Option.some.inj (hx.symm.trans hx')
    refine ⟨_, _, _, hx, rfl, hgap, [t], [t'], ?_, ht, ht'⟩
    intro heq
    obtain rfl := List.singleton_inj.1 heq
    rw [Tree.maxDepth] at hlt
    omega

/-- A finish that is gone into opens a node, if it has one antecedent. -/
lemma warrants_finish {id a fl : Nat} {n : NonTerminal} {vis untried : List Nat} (hP : P.Complete)
    (hx : P.chart.place? id = some ⟨.finish n, lo, k⟩)
    (ha : P.chart.antecedents id = a :: untried) (hgap : Gap P b.openEntries cs (.finish n) lo k)
    (hknown : b.Knows P vis) :
    Warrants P ⟨.visit, id, k⟩
      ⟨some a, k, id :: vis, cs, defer ⟨id, k, cs, none, untried⟩ [], fl⟩
      (b.handle P ⟨.visit, id, k⟩) := by
  cases hbr : P.chart.branches id with
  | true =>
    rw [TreeBuilder.handle_finish_branching hx hbr]
    obtain ⟨-, t, ht⟩ := valid_finish_iff.1 (hP.valid hx)
    obtain ⟨t', hne, ht'⟩ := hP.exists_derives_ne hx hbr ht
    exact ⟨_, _, _, hx, rfl, hgap, [t'], [t], by simpa using hne, ht', ht⟩
  | false =>
    rw [TreeBuilder.handle_finish hx hbr]
    obtain rfl := (Chart.branches_eq_false_iff ha).1 hbr
    obtain ⟨p, prod, hp, rfl, hplace⟩ :=
      (hP.mem_antecedents_finish_iff hx).1 (by rw [ha]; exact List.mem_cons_self)
    refine ⟨rfl, fun id' hid' => ?_, fun id' hid' n lo hi hx' => ?_⟩
    · cases hid'
      exact ⟨_, _, hplace, .enter hx hp hgap⟩
    · rcases List.mem_cons.1 hid' with rfl | hid'
      · exact Or.inl List.mem_cons_self
      · exact (hknown id' hid' n lo hi hx').imp_left (List.mem_cons_of_mem _)

/-- Behind a nonterminal the walk goes into it, if there is one place where it may begin. -/
lemma warrants_resume {id a p dot fl : Nat} {n : NonTerminal} {vis untried : List Nat}
    (hP : P.Complete) (hx : P.chart.place? id = some ⟨.item p (dot + 1), lo, k⟩)
    (hs : P.grammar.symbolAt? p dot = some (.nonterminal n))
    (ha : P.chart.antecedents id = a :: untried)
    (hgap : Gap P b.openEntries cs (.item p (dot + 1)) lo k) (hknown : b.Knows P vis) :
    Warrants P ⟨.visit, id, k⟩
      ⟨some a, k, vis, ⟨p, dot, lo⟩ :: cs, defer ⟨id, k, cs, some ⟨p, dot, lo⟩, untried⟩ [], fl⟩
      (b.handle P ⟨.visit, id, k⟩) := by
  obtain ⟨prod, hp, -⟩ := hP.prod_of_item hx
  rw [Grammar.symbolAt?_eq hp] at hs
  obtain ⟨m, hm, hb, hc⟩ :=
    (hP.mem_antecedents_resume_iff hp hs hx).1 (by rw [ha]; exact List.mem_cons_self)
  obtain ⟨-, ts, hts⟩ := (valid_item_iff hp).1 (hP.holds_iff.1 hb)
  cases hbr : P.chart.branches id with
  | true =>
    rw [TreeBuilder.handle_item_branching hx hp hbr]
    obtain ⟨-, t, ht⟩ := valid_finish_iff.1 (hP.valid hm)
    obtain ⟨ts', hne, hts'⟩ := hP.exists_spans_ne hx hbr hp hs hm ht ts
    exact ⟨_, _, _, hx, by simp [Grammar.headOf?, hp], hgap, ts', _, hne, hts',
      .resume hts hp hs ht hc⟩
  | false =>
    rw [TreeBuilder.handle_item hx hbr]
    obtain rfl := (Chart.branches_eq_false_iff ha).1 hbr
    exact warrants_item (b.keepsNodes_passItem _ _ _) hknown hm (.call hp hs ⟨ts, hts⟩ hc hgap)

/-- Whatever a builder that descends with its walk makes of a report is warranted. -/
lemma Descends.warrants (hP : P.Complete) (h : Descends P w b)
    (hm : Moves P.grammar P.chart w ev w') : Warrants P ev w' (b.handle P ev) := by
  have hgap : ∀ {id v lo k}, w.cursor = some id → P.chart.place? id = some ⟨v, lo, k⟩ →
      Gap P b.openEntries w.callers v lo k := h.gap_of_place?
  obtain ⟨hbs, -, hknown⟩ := h
  cases hm with
  | @finish id k o a fl n vis untried cs bs hx hid ha =>
    obtain rfl : bs = [] := hbs
    exact warrants_finish hP hx ha (hgap rfl hx) hknown
  | @finishAgain id k o fl n vis cs bs w' hx hid hl =>
    obtain rfl : bs = [] := hbs
    exact warrants_finishAgain hP hx hid (hgap rfl hx) hknown hl
  | @start id k o fl n vis cs bs w' hx hid hl =>
    obtain rfl : bs = [] := hbs
    obtain rfl := hP.origin_start hx
    rw [TreeBuilder.handle_start (by simp) hx]
    exact warrants_start hP (hgap rfl hx) (hknown.cons_start hx) hl
  | @startAgain id k o fl n vis cs bs w' hx hid hl =>
    obtain rfl : bs = [] := hbs
    obtain rfl := hP.origin_start hx
    rw [TreeBuilder.handle_start (by simp) hx]
    exact warrants_start hP (hgap rfl hx) hknown hl
  | @enter id k o s p fl prod vis cs bs hx hp hs =>
    obtain rfl : bs = [] := hbs
    obtain rfl := (hP.holds_start_of_enter hp hx).1
    rw [TreeBuilder.handle_item hx (hP.branches_enter hx)]
    exact warrants_item (b.keepsNodes_passItem _ _ _) hknown hs (.start hp (hgap rfl hx))
  | @scan id k o b₀ p dot fl t vis cs bs hx hs hb =>
    obtain rfl : bs = [] := hbs
    obtain ⟨i, u, hi, hu, rfl, -⟩ := hP.holds_item_of_scan hs hx
    obtain rfl := Nat.succ.inj hi
    rw [TreeBuilder.handle_item hx (hP.branches_scan hx hs)]
    exact warrants_item (b.keepsNodes_passItem _ _ _) hknown hb (.scan hs hu (hgap rfl hx))
  | @resume id k o a p dot fl n vis untried cs bs hx hs ha =>
    obtain rfl : bs = [] := hbs
    exact warrants_resume hP hx hs ha (hgap rfl hx) hknown
  | backtrack hdead hb => simp at hbs

/-- Whatever the builder has taken, it descends. -/
lemma Descends.feeds (hP : P.Complete)
    (hf : Feeds P.grammar P.chart (TreeBuilder.handle P) w b w' b') (h : Descends P w b) :
    Descends P w' b' := by
  induction hf with
  | refl => exact h
  | step hm hh _ ih =>
    have hstep := h.warrants hP hm
    rw [hh] at hstep
    exact ih hstep

/-- A walk begins with everything missing. -/
lemma descends_startAt (hP : P.Complete) :
    Descends P ⟨some P.accepting, P.tokens.length, [], [], [], 0⟩ .empty := by
  refine ⟨rfl, fun id hid => ?_, by simp [TreeBuilder.Knows]⟩
  cases hid
  exact ⟨_, _, hP.accepting, .whole⟩

end Moves

/-! ### Reports -/

/-- Fed with the reports of the walk, the builder of trees takes none of the entry of the place but
stops there. -/
def Parsing.StopsAt (P : Parsing) (x : Place) : Prop :=
  ∃ start w b ev w' e, P.walk = .ok start ∧
    Feeds P.grammar P.chart (TreeBuilder.handle P) start .empty w b ∧
    Moves P.grammar P.chart w ev w' ∧ b.handle P ev = .error e ∧ P.chart.place? ev.entry = some x

/-- Two lists of trees that fill the gap behind a vertex are those of two derivations of the
nonterminal that the vertex belongs to. -/
lemma Gap.derives_two {n : NonTerminal} {ts ts' : List Tree} (h : Gap P opened cs v lo hi)
    (hn : P.grammar.headOf? v = some n) (hne : ts ≠ ts') (hts : Spans P.grammar P.tokens v lo hi ts)
    (hts' : Spans P.grammar P.tokens v lo hi ts') :
    ∃ hi' t t', hi ≤ hi' ∧ hi' ≤ P.tokens.length ∧ t ≠ t' ∧
      P.grammar.Derives P.tokens n lo hi' t ∧ P.grammar.Derives P.tokens n lo hi' t' ∧
      (P.grammar.next? v = none → hi' = hi) := by
  cases v with
  | start m => cases hts
  | finish m =>
    obtain rfl : m = n := Option.some.inj hn
    obtain ⟨t, rfl⟩ := hts.eq_singleton
    obtain ⟨t', rfl⟩ := hts'.eq_singleton
    exact ⟨hi, t, t', Nat.le_refl _, hts.le.2, by simpa using hne, hts, hts', fun _ => rfl⟩
  | item p dot =>
    obtain ⟨prod, hi', us, hp, hle, hlast, hall⟩ := h.completes
    obtain rfl : prod.head = n := by simpa [Grammar.headOf?, hp] using hn
    have hall₁ := hall ts hts
    have hall₂ := hall ts' hts'
    refine ⟨hi', _, _, hle, hall₁.le.2, ?_, .exit hp hall₁, .exit hp hall₂, fun hnext => ?_⟩
    · intro heq
      simp only [Tree.node.injEq] at heq
      have hchildren := TreeBuilder.childrenOf_inj
        (by rw [hall₁.length_eq _ _ rfl, hall₂.length_eq _ _ rfl]) heq.2.2.2.2
      exact hne (List.append_cancel_right hchildren)
    · rw [Grammar.next?, Grammar.symbolAt?_eq hp, List.getElem?_eq_none_iff] at hnext
      obtain ⟨prod', hp', hdot⟩ := hts.prod_of_item
      obtain rfl := Option.some.inj (hp.symm.trans hp')
      exact hlast (Nat.le_antisymm hdot hnext)

/-- An ambiguity that is reported is that of the entry at which the builder stops: the nonterminal
is the head of the entry, the range is that of the entry, and two different lists of trees lie behind
the entry. So the nonterminal has two different derivations from the same position on. They end
where the range ends if the entry has no symbol after its dot. -/
theorem tree_ambiguous_spec {G : Grammar} {w : List Token} {start : NonTerminal}
    {rules : List RuleDecl} (hG : Grammar.build start rules = .ok G)
    (hP : (G.recognize w).result = .ok P) {n : NonTerminal}
    (herr : P.tree = .error (.ambiguous n lo hi)) :
    ∃ v, P.StopsAt ⟨v, lo, hi⟩ ∧ G.headOf? v = some n ∧
      (∃ ts ts', ts ≠ ts' ∧ Spans G w v lo hi ts ∧ Spans G w v lo hi ts') ∧
      ∃ hi' t t', hi ≤ hi' ∧ hi' ≤ w.length ∧ t ≠ t' ∧ G.Derives w n lo hi' t ∧
        G.Derives w n lo hi' t' ∧ (G.next? v = none → hi' = hi) := by
  obtain ⟨rfl, rfl, hc⟩ := complete_of_recognize (Grammar.closed_of_build hG) hP
  obtain ⟨t, ht⟩ := hc.accepts
  rcases hc.tree_run ht with ⟨⟨w, b, ev, w', n', lo', hi', hfeed, hm, hh, herr'⟩, -⟩ | ⟨hok, -⟩
  · cases herr.symm.trans herr'
    have hamb := ((descends_startAt hc).feeds hc hfeed).warrants hc hm
    rw [hh] at hamb
    obtain ⟨v, ids, cs, hx, hn, hgap, ts, ts', hne, hts, hts'⟩ := hamb
    have hstops : P.StopsAt ⟨v, lo, hi⟩ :=
      ⟨_, w, b, ev, w', _, (startAt_fits (G := P.grammar) hc.accepting).1, hfeed, hm, hh, hx⟩
    exact ⟨v, hstops, hn, ⟨ts, ts', hne, hts, hts'⟩, hgap.derives_two hn hne hts hts'⟩
  · cases herr.symm.trans hok

/-- All phrases of two phrases over three tokens are ambiguous in the same place: the item is at the
end of its production. -/
theorem tree_ambiguous_spec_splitAmbiguity :
    Grammar.build ⟨"S"⟩ [Samples.rule "S" [[Samples.nt "A", Samples.nt "A"]],
        Samples.rule "A" [[Samples.tm "a"], [Samples.tm "a", Samples.tm "a"]]]
          = .ok Samples.splitAmbiguity ∧
      ∃ P, (Samples.splitAmbiguity.recognize [.plain "a", .plain "a", .plain "a"]).result = .ok P ∧
        P.tree = .error (.ambiguous ⟨"S"⟩ 0 3) ∧
        ∃ t t', t ≠ t' ∧
          Samples.splitAmbiguity.Derives [.plain "a", .plain "a", .plain "a"] ⟨"S"⟩ 0 3 t ∧
          Samples.splitAmbiguity.Derives [.plain "a", .plain "a", .plain "a"] ⟨"S"⟩ 0 3 t' := by
  have hbuild : Grammar.build ⟨"S"⟩ [Samples.rule "S" [[Samples.nt "A", Samples.nt "A"]],
      Samples.rule "A" [[Samples.tm "a"], [Samples.tm "a", Samples.tm "a"]]]
        = .ok Samples.splitAmbiguity := rfl
  have hrun : (Samples.splitAmbiguity.recognize [.plain "a", .plain "a", .plain "a"]).result
      |>.toOption.any fun P => P.tree.map (fun _ => ()) = .error (.ambiguous ⟨"S"⟩ 0 3) := by
    decide +kernel
  obtain ⟨P, hP, htree⟩ := any_toOption_iff.1 hrun
  cases herr : P.tree with
  | ok t => simp [herr, Except.map] at htree
  | error e =>
    obtain rfl : e = .ambiguous ⟨"S"⟩ 0 3 := by simpa [herr, Except.map] using htree
    obtain ⟨v, -, -, -, hi, t, t', hle, hle', hne, ht, ht', -⟩ :=
      tree_ambiguous_spec hbuild hP herr
    obtain rfl : hi = 3 := Nat.le_antisymm hle' hle
    exact ⟨hbuild, P, hP, herr, t, t', hne, ht, ht'⟩

/-- `S => A A x; A => a | a a`, where the two phrases meet in two places before the last token. -/
def Samples.markedSplit : Grammar :=
  .ofRules ⟨"S"⟩
    [rule "S" [[nt "A", nt "A", tm "x"]],
      rule "A" [[tm "a"], [tm "a", tm "a"]]]

/-- A phrase of the only production of the start symbol ends with the last token. -/
lemma Samples.not_derives_markedSplit : ¬ ∃ t, Samples.markedSplit.Derives
    [.plain "a", .plain "a", .plain "a", .plain "x"] ⟨"S"⟩ 0 3 t := by
  rintro ⟨t, ht⟩
  generalize hn : (⟨"S"⟩ : NonTerminal) = n at ht
  cases ht with
  | @exit p _ _ prod ts hp hm =>
    match p, hp with
    | 0, hp =>
      cases hp
      have hm : Spans Samples.markedSplit [.plain "a", .plain "a", .plain "a", .plain "x"]
        (.item 0 3) 0 3 ts := hm
      cases hm with
      | scan hm hs hu =>
        cases hu
        exact absurd hs (by decide)
      | resume hm hp hs hc hperm =>
        cases hp
        cases hs
    | 1, hp | 2, hp =>
      cases hp
      exact absurd hn (by decide)

/-- The reported range is that of the symbols before the dot. The nonterminal derives nothing there:
its two derivations go on over the last token. -/
theorem tree_ambiguous_markedSplit :
    Grammar.build ⟨"S"⟩ [Samples.rule "S" [[Samples.nt "A", Samples.nt "A", Samples.tm "x"]],
        Samples.rule "A" [[Samples.tm "a"], [Samples.tm "a", Samples.tm "a"]]]
          = .ok Samples.markedSplit ∧
      ∃ P, (Samples.markedSplit.recognize
          [.plain "a", .plain "a", .plain "a", .plain "x"]).result = .ok P ∧
        P.tree = .error (.ambiguous ⟨"S"⟩ 0 3) ∧
        ¬ ∃ t, Samples.markedSplit.Derives
          [.plain "a", .plain "a", .plain "a", .plain "x"] ⟨"S"⟩ 0 3 t := by
  have hrun : (Samples.markedSplit.recognize
        [.plain "a", .plain "a", .plain "a", .plain "x"]).result
      |>.toOption.any fun P => P.tree.map (fun _ => ()) = .error (.ambiguous ⟨"S"⟩ 0 3) := by
    decide +kernel
  obtain ⟨P, hP, htree⟩ := any_toOption_iff.1 hrun
  cases herr : P.tree with
  | ok t => simp [herr, Except.map] at htree
  | error e =>
    obtain rfl : e = .ambiguous ⟨"S"⟩ 0 3 := by simpa [herr, Except.map] using htree
    exact ⟨rfl, P, hP, herr, Samples.not_derives_markedSplit⟩

end ParseForest
