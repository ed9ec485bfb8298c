import ParseForest.Proofs.Tree.Reports

/-!
# Following a derivation

Take any derivation of what the walk is about to pass. Either the builder attaches exactly this
derivation, and there is no other one, or it finds an ambiguity, and there is another one. This is
`FollowsItem` for the rest of a production and `FollowsFinish` for a nonterminal, proved together by
induction on the derivation in `follows`.

A finish that is met again has its tree, unless its node is still open. Then it is below itself, and
the node has a derivation that is deeper than the one that is followed: this is what `Above` keeps.
-/

namespace ParseForest

namespace TreeBuilder

open Walk

variable (P : Parsing)

/-- What a builder knows of the finish entries that were gone into: each is open or has its only
derivation. -/
structure Consistent (visited opened : List Nat) (finished : List (Nat × Tree)) : Prop where
  /-- The complete nodes are the only derivations. -/
  unique : ∀ id t, finished.lookup id = some t → ∃ n lo hi,
    P.chart.place? id = some ⟨.finish n, lo, hi⟩ ∧ P.grammar.Derives P.tokens n lo hi t ∧
      ∀ t', P.grammar.Derives P.tokens n lo hi t' → t' = t
  /-- Every finish that was gone into is open or complete. -/
  known : ∀ id ∈ visited, ∀ n lo hi, P.chart.place? id = some ⟨.finish n, lo, hi⟩ →
    id ∈ opened ∨ ∃ t, finished.lookup id = some t

/-- Each open node has a derivation that is deeper than what is below it. -/
def Above (opened : List Nat) (depth : Nat) : Prop :=
  ∀ id ∈ opened, ∃ n lo hi t, P.chart.place? id = some ⟨.finish n, lo, hi⟩ ∧
    P.grammar.Derives P.tokens n lo hi t ∧ depth < t.depth

/-- The builder is going to find an ambiguity. -/
def Refuted (w : Walk) (b : TreeBuilder) : Prop :=
  ∃ w' b' ev w'' n lo hi, Feeds P.grammar P.chart (handle P) w b w' b' ∧
    Moves P.grammar P.chart w' ev w'' ∧ handle P b' ev = .error (.ambiguous n lo hi)

/-- The children that the first symbols of a production are attached as. -/
def placed (prod : Production) (lo : Nat) (ts : List Tree) : List Tree :=
  if prod.body.isEmpty then [.epsilon lo] else ts

/-- Walking an item to the start of its production, the builder attaches `ts` or finds an
ambiguity. -/
def FollowsItem (p dot lo hi : Nat) (ts : List Tree) : Prop :=
  ∀ (cs : List CallSite) (top : OpenNode) {prod : Production} {id : Nat} {vis : List Nat}
    {stack : List OpenNode} {fin : List (Nat × Tree)} {root : Option Tree},
    P.grammar.prods[p]? = some prod → P.chart.place? id = some ⟨.item p dot, lo, hi⟩ →
    Stacked P.chart lo cs → Within prod p dot top →
    Consistent P vis (top.entry :: stack.map (·.entry)) fin →
    Above P (top.entry :: stack.map (·.entry)) (Tree.maxDepth ts) →
    (Refuted P ⟨some id, hi, vis, cs, [], 0⟩ ⟨top :: stack, fin, root⟩ ∧
        ∃ ts', ts' ≠ ts ∧ Spans P.grammar P.tokens (.item p dot) lo hi ts') ∨
      ((∀ ts', Spans P.grammar P.tokens (.item p dot) lo hi ts' → ts' = ts) ∧
        ∃ s vis' fin', P.chart.place? s = some ⟨.start prod.head, lo, lo⟩ ∧
          Consistent P vis' (top.entry :: stack.map (·.entry)) fin' ∧
          Feeds P.grammar P.chart (handle P) ⟨some id, hi, vis, cs, [], 0⟩ ⟨top :: stack, fin, root⟩
            ⟨some s, lo, vis', cs, [], 0⟩
            ⟨{ top with prod := some p, children := placed prod lo ts ++ top.children } :: stack,
              fin', root⟩)

/-- Walking a nonterminal, the builder attaches `t` or finds an ambiguity. -/
def FollowsFinish (n : NonTerminal) (lo hi : Nat) (t : Tree) : Prop :=
  ∀ (cs : List CallSite) (b : TreeBuilder) {id : Nat} {vis : List Nat},
    P.chart.place? id = some ⟨.finish n, lo, hi⟩ → Stacked P.chart lo cs →
    Consistent P vis (b.stack.map (·.entry)) b.finished →
    Above P (b.stack.map (·.entry)) t.depth →
    (Refuted P ⟨some id, hi, vis, cs, [], 0⟩ b ∧
        ∃ t', t' ≠ t ∧ P.grammar.Derives P.tokens n lo hi t') ∨
      ((∀ t', P.grammar.Derives P.tokens n lo hi t' → t' = t) ∧
        ∃ cur vis' fin', Consistent P vis' (b.stack.map (·.entry)) fin' ∧
          ∀ w', Leaves P.chart ⟨cur, lo, vis', cs, [], 0⟩ w' →
            Feeds P.grammar P.chart (handle P) ⟨some id, hi, vis, cs, [], 0⟩ b
              w' (attach ⟨b.stack, fin', b.root⟩ t))

variable {P}

/-! ### Small facts -/

lemma Refuted.of_move {w w' : Walk} {b : TreeBuilder} {ev : WalkEvent} {n : NonTerminal}
    {lo hi : Nat} (hm : Moves P.grammar P.chart w ev w')
    (hh : handle P b ev = .error (.ambiguous n lo hi)) : Refuted P w b :=
  ⟨w, b, ev, w', n, lo, hi, .refl w b, hm, hh⟩

lemma Refuted.of_feeds {w w' : Walk} {b b' : TreeBuilder}
    (h : Feeds P.grammar P.chart (handle P) w b w' b') (hr : Refuted P w' b') : Refuted P w b := by
  obtain ⟨w₂, b₂, ev, w₃, n, lo, hi, hf, hm, hh⟩ := hr
  exact ⟨w₂, b₂, ev, w₃, n, lo, hi, h.trans hf, hm, hh⟩

lemma Above.mono {opened : List Nat} {d d' : Nat} (h : Above P opened d) (hd : d' ≤ d) :
    Above P opened d' := by
  intro id hid
  obtain ⟨n, lo, hi, t, hx, ht, hlt⟩ := h id hid
  exact ⟨n, lo, hi, t, hx, ht, Nat.lt_of_le_of_lt hd hlt⟩

lemma placed_append {prod : Production} {dot lo : Nat} {s : Symbol} (ts : List Tree) (t : Tree)
    (hs : prod.body[dot]? = some s) : placed prod lo (ts ++ [t]) = placed prod lo ts ++ [t] := by
  have hne : prod.body.isEmpty = false := by
    cases hb : prod.body with
    | nil => simp [hb] at hs
    | cons a l => rfl
  simp [placed, hne]

lemma placed_of_spans {prod : Production} {p lo hi : Nat} {ts : List Tree}
    (h : Spans P.grammar P.tokens (.item p prod.body.length) lo hi ts) :
    placed prod lo ts = Tree.childrenOf lo ts := by
  have hlen := h.length_eq _ _ rfl
  cases ts with
  | nil =>
    obtain hb : prod.body = [] := List.eq_nil_of_length_eq_zero hlen.symm
    simp [placed, hb, Tree.childrenOf]
  | cons t ts =>
    have hne : prod.body ≠ [] := by
      intro hb
      simp [hb] at hlen
    simp [placed, hne, Tree.childrenOf]

lemma childrenOf_inj {lo : Nat} {ts ts' : List Tree} (hlen : ts.length = ts'.length)
    (h : Tree.childrenOf lo ts = Tree.childrenOf lo ts') : ts = ts' := by
  cases ts with
  | nil => exact (List.eq_nil_of_length_eq_zero hlen.symm).symm
  | cons t ts =>
    cases ts' with
    | nil => simp at hlen
    | cons t' ts' => exact h

lemma maxDepth_le_append (ts us : List Tree) :
    Tree.maxDepth ts ≤ Tree.maxDepth (ts ++ us) ∧ Tree.maxDepth us ≤ Tree.maxDepth (ts ++ us) := by
  induction ts with
  | nil => simp [Tree.maxDepth]
  | cons t ts ih =>
    simp only [List.cons_append, Tree.maxDepth]
    omega

lemma maxDepth_lt_depth (n : NonTerminal) (p lo hi : Nat) (ts : List Tree) :
    Tree.maxDepth ts < (Tree.node n p lo hi (Tree.childrenOf lo ts)).depth := by
  have hle : Tree.maxDepth ts ≤ Tree.maxDepth (Tree.childrenOf lo ts) := by
    cases ts with
    | nil => simp [Tree.maxDepth]
    | cons t ts => exact Nat.le_refl _
  rw [Tree.depth]
  omega

/-! ### Items -/

lemma follows_enter (hP : P.Complete) {p lo : Nat} : FollowsItem P p 0 lo lo [] := by
  intro cs top prod id vis stack fin root hp hx hcs hin hcon habove
  obtain ⟨-, s, hs⟩ := hP.holds_start_of_enter hp hx
  refine Or.inr ⟨fun ts' hts' => ?_, s, vis, fin, hs, hcon, ?_⟩
  · cases hts' with
    | enter => rfl
  · exact .single (.enter hx hp hs) (handle_enter hP hx hp hin)

/-- After an item the production of the open node is known. -/
lemma within_some {prod : Production} {p dot : Nat} {top : OpenNode} (h : top.prod = some p) :
    Within prod p dot top :=
  Or.inl h

lemma follows_scan (hP : P.Complete) {p dot lo hi : Nat} {ts : List Tree} {u : Token}
    (hs : P.grammar.symbolAt? p dot = some (.terminal u.kind)) (hu : P.tokens[hi]? = some u)
    (ih : FollowsItem P p dot lo hi ts) :
    FollowsItem P p (dot + 1) lo (hi + 1) (ts ++ [.token hi u]) := by
  intro cs top prod id vis stack fin root hp hx hcs hin hcon habove
  obtain ⟨i, u', heq, -, -, b, hb⟩ := hP.holds_item_of_scan hs hx
  obtain rfl : hi = i := by omega
  have hsym : prod.body[dot]? = some (.terminal u.kind) := by rwa [Grammar.symbolAt?_eq hp] at hs
  have hfeed : Feeds P.grammar P.chart (handle P) ⟨some id, hi + 1, vis, cs, [], 0⟩
      ⟨top :: stack, fin, root⟩ ⟨some b, hi, vis, cs, [], 0⟩
      ⟨{ top with prod := some p, children := .token hi u :: top.children } :: stack, fin, root⟩ :=
    .single (.scan hx hs hb) (handle_scan hP hx hp hin hs hu)
  rcases ih cs { top with prod := some p, children := .token hi u :: top.children } hp hb hcs
    (within_some rfl) hcon (habove.mono (maxDepth_le_append _ _).1) with
    ⟨href, ts', hne, hts'⟩ | ⟨huniq, s, vis', fin', hs', hcon', hfeed'⟩
  · refine Or.inl ⟨href.of_feeds hfeed, ts' ++ [.token hi u], ?_, .scan hts' hs hu⟩
    exact fun h => hne (List.append_cancel_right h)
  · refine Or.inr ⟨fun ts' hts' => ?_, s, vis', fin', hs', hcon', ?_⟩
    · cases hts' with
      | scan hm hs'' hu' =>
        obtain rfl := Option.some.inj (hu.symm.trans hu')
        rw [huniq _ hm]
      | resume hm hp' hs'' hc hperm =>
        rw [Grammar.symbolAt?_eq hp', hs''] at hs
        cases hs
    · rw [placed_append ts _ hsym, List.append_assoc]
      exact hfeed.trans hfeed'

lemma follows_resume (hP : P.Complete) {p dot lo mid hi : Nat} {prod : Production}
    {n : NonTerminal} {ts : List Tree} {t : Tree}
    (hm : Spans P.grammar P.tokens (.item p dot) lo mid ts) (hp : P.grammar.prods[p]? = some prod)
    (hs : prod.body[dot]? = some (.nonterminal n))
    (hn : P.grammar.Derives P.tokens n mid hi t)
    (hperm : prod.permits (prod.context p dot n lo mid hi P.tokens) = true)
    (ih : FollowsItem P p dot lo mid ts) (ihn : FollowsFinish P n mid hi t) :
    FollowsItem P p (dot + 1) lo hi (ts ++ [t]) := by
  intro cs top prod' id vis stack fin root hp' hx hcs hin hcon habove
  obtain rfl := Option.some.inj (hp.symm.trans hp')
  have hsym : P.grammar.symbolAt? p dot = some (.nonterminal n) := by
    rw [Grammar.symbolAt?_eq hp, hs]
  obtain ⟨a, hmem, ha, b, hb⟩ := hP.exists_mem_antecedents_resume hx hp hs hm hn hperm
  cases hbr : P.chart.branches id with
  | true =>
    obtain ⟨a₀, untried, hcons⟩ := List.exists_cons_of_ne_nil (List.ne_nil_of_mem hmem)
    exact Or.inl ⟨.of_move (.resume hx hsym hcons) (handle_item_branching hx hp hbr),
      hP.exists_spans_ne hx hbr hp hs ha hn ts⟩
  | false =>
    have hsingle := Chart.antecedents_eq_singleton hbr hmem
    have hfeed : Feeds P.grammar P.chart (handle P) ⟨some id, hi, vis, cs, [], 0⟩
        ⟨top :: stack, fin, root⟩ ⟨some a, hi, vis, ⟨p, dot, lo⟩ :: cs, [], 0⟩
        ⟨{ top with prod := some p } :: stack, fin, root⟩ :=
      .single (.resume hx hsym hsingle) (handle_resume hx hp hin hsym hbr)
    have hdepth : t.depth ≤ Tree.maxDepth (ts ++ [t]) := by
      simpa [Tree.maxDepth] using (maxDepth_le_append ts [t]).2
    rcases ihn (⟨p, dot, lo⟩ :: cs) ⟨{ top with prod := some p } :: stack, fin, root⟩ ha
        ⟨⟨b, hb⟩, hcs⟩ hcon (habove.mono hdepth) with
      ⟨href, t', hne, ht'⟩ | ⟨huniq, cur, vis', fin', hcon', hleave⟩
    · refine Or.inl ⟨href.of_feeds hfeed, ts ++ [t'], fun heq => hne ?_, .resume hm hp hs ht' hperm⟩
      simpa using heq
    · have hback := hfeed.trans (hleave _ (.go (Nat.zero_le _) hb))
      rcases ih cs { top with prod := some p, children := t :: top.children } hp hb hcs
          (within_some rfl) hcon' (habove.mono (maxDepth_le_append _ _).1) with
        ⟨href, ts', hne, hts'⟩ | ⟨huniq', s, vis'', fin'', hs', hcon'', hfeed'⟩
      · refine Or.inl ⟨href.of_feeds hback, ts' ++ [t], ?_, .resume hts' hp hs hn hperm⟩
        exact fun h => hne (List.append_cancel_right h)
      · refine Or.inr ⟨fun ts' hts' => ?_, s, vis'', fin'', hs', hcon'', ?_⟩
        · exact hP.spans_eq_of_singleton hx hsingle hp hs ha huniq' huniq hts'
        · rw [placed_append ts _ hs, List.append_assoc]
          exact hback.trans hfeed'

/-! ### Nonterminals -/

/-- Closing a node keeps the builder consistent. -/
lemma Consistent.close {vis opened : List Nat} {fin : List (Nat × Tree)} {id s lo hi o k : Nat}
    {n m : NonTerminal} {t : Tree} (h : Consistent P vis (id :: opened) fin)
    (hx : P.chart.place? id = some ⟨.finish n, lo, hi⟩) (ht : P.grammar.Derives P.tokens n lo hi t)
    (huniq : ∀ t', P.grammar.Derives P.tokens n lo hi t' → t' = t)
    (hs : P.chart.place? s = some ⟨.start m, o, k⟩) :
    Consistent P (s :: vis) opened ((id, t) :: fin) where
  unique := by
    intro id' t' hlook
    rw [List.lookup_cons] at hlook
    split at hlook
    · next heq =>
      obtain rfl := beq_iff_eq.1 heq
      cases hlook
      exact ⟨n, lo, hi, hx, ht, huniq⟩
    · exact h.unique id' t' hlook
  known := by
    intro id' hid' n' lo' hi' hx'
    by_cases heq : id' = id
    · subst heq
      exact Or.inr ⟨t, by simp⟩
    rcases List.mem_cons.1 hid' with rfl | hid'
    · rw [hs] at hx'
      cases hx'
    · rcases h.known id' hid' n' lo' hi' hx' with hmem | ⟨t', ht'⟩
      · exact Or.inl ((List.mem_cons.1 hmem).resolve_left heq)
      · refine Or.inr ⟨t', ?_⟩
        rw [List.lookup_cons, beq_eq_false_iff_ne.2 heq]
        exact ht'

lemma Consistent.of_visited_cons {vis opened : List Nat} {fin : List (Nat × Tree)} {id : Nat}
    (h : Consistent P (id :: vis) opened fin) : Consistent P vis opened fin :=
  ⟨h.unique, fun id' hid' => h.known id' (List.mem_cons_of_mem _ hid')⟩

/-- Going into a finish keeps the builder consistent. -/
lemma Consistent.open {vis opened : List Nat} {fin : List (Nat × Tree)}
    (h : Consistent P vis opened fin) (id : Nat) :
    Consistent P (id :: vis) (id :: opened) fin where
  unique := h.unique
  known := by
    intro id' hid' n lo hi hx
    rcases List.mem_cons.1 hid' with rfl | hid'
    · exact Or.inl List.mem_cons_self
    · rcases h.known id' hid' n lo hi hx with hmem | ht
      · exact Or.inl (List.mem_cons_of_mem _ hmem)
      · exact Or.inr ht

/-- The start of a nonterminal closes its node, whether the start was passed before or not. -/
lemma feeds_start (cs : List CallSite) {s k : Nat} {n : NonTerminal} {vis opened : List Nat}
    {b b' : TreeBuilder} {fin : List (Nat × Tree)}
    (hs : P.chart.place? s = some ⟨.start n, k, k⟩) (hclose : b.close = .ok b')
    (hcon : Consistent P (s :: vis) opened fin) :
    ∃ vis', Consistent P vis' opened fin ∧ ∀ w', Leaves P.chart ⟨some s, k, vis', cs, [], 0⟩ w' →
      Feeds P.grammar P.chart (handle P) ⟨some s, k, vis, cs, [], 0⟩ b w' b' := by
  by_cases hid : s ∈ vis
  · refine ⟨vis, hcon.of_visited_cons, fun w' hl => ?_⟩
    exact .single (.startAgain hs hid hl) ((handle_start (by simp) hs).trans hclose)
  · refine ⟨s :: vis, hcon, fun w' hl => ?_⟩
    exact .single (.start hs hid hl) ((handle_start (by simp) hs).trans hclose)

/-- A finish that was gone into before. -/
lemma follows_revisit {n : NonTerminal} {lo hi id : Nat} {t : Tree}
    {vis : List Nat} {cs : List CallSite} {b : TreeBuilder} (hid : id ∈ vis)
    (ht : P.grammar.Derives P.tokens n lo hi t)
    (hx : P.chart.place? id = some ⟨.finish n, lo, hi⟩) (hcs : Stacked P.chart lo cs)
    (hcon : Consistent P vis (b.stack.map (·.entry)) b.finished)
    (habove : Above P (b.stack.map (·.entry)) t.depth) :
    (Refuted P ⟨some id, hi, vis, cs, [], 0⟩ b ∧
        ∃ t', t' ≠ t ∧ P.grammar.Derives P.tokens n lo hi t') ∨
      ((∀ t', P.grammar.Derives P.tokens n lo hi t' → t' = t) ∧
        ∃ cur vis' fin', Consistent P vis' (b.stack.map (·.entry)) fin' ∧
          ∀ w', Leaves P.chart ⟨cur, lo, vis', cs, [], 0⟩ w' →
            Feeds P.grammar P.chart (handle P) ⟨some id, hi, vis, cs, [], 0⟩ b
              w' (attach ⟨b.stack, fin', b.root⟩ t)) := by
  cases hlook : b.finished.lookup id with
  | some t₀ =>
    obtain ⟨n', lo', hi', hx', ht₀, huniq⟩ := hcon.unique id t₀ hlook
    have hplace := hx.symm.trans hx'
    simp only [Option.some.injEq, Place.mk.injEq, Vertex.finish.injEq] at hplace
    obtain ⟨rfl, rfl, rfl⟩ := hplace
    obtain rfl := huniq t ht
    exact Or.inr ⟨huniq, some id, vis, b.finished, hcon, fun w' hl =>
      .single (.finishAgain hx hid hl) (handle_finishAgain hx hlook)⟩
  | none =>
    -- The node is open, so it has a derivation with this one below it.
    rcases hcon.known id hid n lo hi hx with hopen | ⟨t₀, ht₀⟩
    · obtain ⟨n', lo', hi', t', hx', ht', hlt⟩ := habove id hopen
      have hplace := hx.symm.trans hx'
      simp only [Option.some.injEq, Place.mk.injEq, Vertex.finish.injEq] at hplace
      obtain ⟨rfl, rfl, rfl⟩ := hplace
      obtain ⟨w', hl⟩ : ∃ w', Leaves P.chart ⟨some id, lo, vis, cs, [], 0⟩ w' := exists_leaves hcs
      refine Or.inl ⟨.of_move (.finishAgain hx hid hl) (handle_finishAgain_open hx hlook), t', ?_,
        ht'⟩
      rintro rfl
      exact Nat.lt_irrefl _ hlt
    · rw [hlook] at ht₀
      cases ht₀

lemma follows_exit (hP : P.Complete) {p lo hi : Nat} {prod : Production} {ts : List Tree}
    (hp : P.grammar.prods[p]? = some prod)
    (hm : Spans P.grammar P.tokens (.item p prod.body.length) lo hi ts)
    (ih : FollowsItem P p prod.body.length lo hi ts) :
    FollowsFinish P prod.head lo hi (.node prod.head p lo hi (Tree.childrenOf lo ts)) := by
  intro cs b id vis hx hcs hcon habove
  have ht : P.grammar.Derives P.tokens prod.head lo hi _ := .exit hp hm
  by_cases hid : id ∈ vis
  · exact follows_revisit hid ht hx hcs hcon habove
  obtain ⟨a, hmem, ha⟩ := hP.exists_mem_antecedents_exit hx hp rfl hm
  cases hbr : P.chart.branches id with
  | true =>
    obtain ⟨a₀, untried, hcons⟩ := List.exists_cons_of_ne_nil (List.ne_nil_of_mem hmem)
    exact Or.inl ⟨.of_move (.finish hx hid hcons) (handle_finish_branching hx hbr),
      hP.exists_derives_ne hx hbr ht⟩
  | false =>
    have hsingle := Chart.antecedents_eq_singleton hbr hmem
    have hfeed : Feeds P.grammar P.chart (handle P) ⟨some id, hi, vis, cs, [], 0⟩ b
        ⟨some a, hi, id :: vis, cs, [], 0⟩
        ⟨⟨prod.head, none, lo, hi, id, []⟩ :: b.stack, b.finished, b.root⟩ :=
      .single (.finish hx hid hsingle) (handle_finish hx hbr)
    have habove' : Above P (id :: b.stack.map (·.entry)) (Tree.maxDepth ts) := by
      intro id' hid'
      rcases List.mem_cons.1 hid' with rfl | hid'
      · exact ⟨_, _, _, _, hx, ht, maxDepth_lt_depth ..⟩
      · exact habove.mono (Nat.le_of_lt (maxDepth_lt_depth ..)) id' hid'
    rcases ih cs ⟨prod.head, none, lo, hi, id, []⟩ hp ha hcs (Or.inr ⟨rfl, rfl⟩)
        (hcon.open id) habove' with
      ⟨href, ts', hne, hts'⟩ | ⟨huniq, s, vis', fin', hs, hcon', hfeed'⟩
    · refine Or.inl ⟨href.of_feeds hfeed, _, fun hnode => hne ?_, .exit hp hts'⟩
      simp only [Tree.node.injEq] at hnode
      refine childrenOf_inj ?_ hnode.2.2.2.2
      rw [hts'.length_eq _ _ rfl, hm.length_eq _ _ rfl]
    · have huniq' : ∀ t', P.grammar.Derives P.tokens prod.head lo hi t' →
          t' = .node prod.head p lo hi (Tree.childrenOf lo ts) :=
        fun t' ht' => hP.derives_eq_of_singleton hx hsingle hp ha huniq ht'
      obtain ⟨vis'', hcon'', hleave⟩ := feeds_start cs hs
        (close_eq ⟨prod.head, some p, lo, hi, id, placed prod lo ts ++ []⟩ b.stack fin' b.root rfl)
        (hcon'.close hx ht huniq' hs)
      refine Or.inr ⟨huniq', some s, vis'', _, hcon'', fun w' hl => ?_⟩
      have hchildren : placed prod lo ts ++ [] = Tree.childrenOf lo ts := by
        rw [List.append_nil, placed_of_spans hm]
      have hall := (hfeed.trans hfeed').trans (hleave w' hl)
      simpa only [hchildren] using hall

/-! ### All derivations -/

/-- Following a derivation, the builder attaches it or finds an ambiguity. -/
theorem follows (hP : P.Complete) {v : Vertex} {lo hi : Nat} {ts : List Tree}
    (h : Spans P.grammar P.tokens v lo hi ts) :
    match v with
    | .item p dot => FollowsItem P p dot lo hi ts
    | .finish n => ∀ t, ts = [t] → FollowsFinish P n lo hi t
    | .start _ => True := by
  induction h with
  | enter hp hlo => exact follows_enter hP
  | scan hm hs hu ih => exact follows_scan hP hs hu ih
  | resume hm hp hs hn hc ih ihn => exact follows_resume hP hm hp hs hn hc ih (ihn _ rfl)
  | exit hp hm ih =>
    intro t ht
    cases ht
    exact follows_exit hP hp hm ih

end TreeBuilder

end ParseForest
