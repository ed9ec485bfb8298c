import ParseForest.Tree.Builder
import ParseForest.Proofs.Walk.Potential
import ParseForest.Proofs.Tree.Leaves

/-!
# What a builder of trees does at a report

One equation for each kind of report, for the entries of a complete parse. An entry with more than
one antecedent is taken for an ambiguity.
-/

namespace ParseForest

variable {P : Parsing} {id j k : Nat}

/-! ### Reports -/

namespace TreeBuilder

variable {b : TreeBuilder}

/-- A branching finish shows an ambiguity. -/
lemma handle_finish_branching {n : NonTerminal}
    (hx : P.chart.place? id = some ⟨.finish n, j, k⟩) (hb : P.chart.branches id = true) :
    b.handle P ⟨.visit, id, k⟩ = .error (.ambiguous n j k) := by
  obtain ⟨e, he, hp⟩ := Chart.place?_eq_some.1 hx
  simp only [Entry.place, Place.mk.injEq] at hp
  rw [Chart.branches_eq_isBranching he] at hb
  simp [handle, he, hp.1, hp.2.1, hb, ambiguity, Grammar.headOf?]

/-- A finish that is gone into opens a node. -/
lemma handle_finish {n : NonTerminal} (hx : P.chart.place? id = some ⟨.finish n, j, k⟩)
    (hb : P.chart.branches id = false) :
    b.handle P ⟨.visit, id, k⟩ = .ok ⟨⟨n, none, j, k, id, []⟩ :: b.stack, b.finished, b.root⟩ := by
  obtain ⟨e, he, hp⟩ := Chart.place?_eq_some.1 hx
  simp only [Entry.place, Place.mk.injEq] at hp
  rw [Chart.branches_eq_isBranching he] at hb
  simp [handle, he, hp.1, hp.2.1, hb]

/-- A finish that is met again stands for its tree. -/
lemma handle_finishAgain {n : NonTerminal} {t : Tree}
    (hx : P.chart.place? id = some ⟨.finish n, j, k⟩) (ht : b.finished.lookup id = some t) :
    b.handle P ⟨.revisit, id, k⟩ = .ok (b.attach t) := by
  obtain ⟨e, he, hp⟩ := Chart.place?_eq_some.1 hx
  simp only [Entry.place, Place.mk.injEq] at hp
  simp [handle, he, hp.1, ht]

/-- A finish that is met again before it has a tree shows an ambiguity. -/
lemma handle_finishAgain_open {n : NonTerminal}
    (hx : P.chart.place? id = some ⟨.finish n, j, k⟩) (ht : b.finished.lookup id = none) :
    b.handle P ⟨.revisit, id, k⟩ = .error (.ambiguous n j k) := by
  obtain ⟨e, he, hp⟩ := Chart.place?_eq_some.1 hx
  simp only [Entry.place, Place.mk.injEq] at hp
  simp [handle, he, hp.1, hp.2.1, ht, ambiguity, Grammar.headOf?]

/-- A start closes a node. -/
lemma handle_start {n : NonTerminal} {kind : WalkKind} (hkind : kind ≠ .backtrack)
    (hx : P.chart.place? id = some ⟨.start n, j, k⟩) :
    b.handle P ⟨kind, id, k⟩ = b.close := by
  obtain ⟨e, he, hp⟩ := Chart.place?_eq_some.1 hx
  simp only [Entry.place, Place.mk.injEq] at hp
  cases kind with
  | visit => simp [handle, he, hp.1]
  | revisit => simp [handle, he, hp.1]
  | backtrack => exact absurd rfl hkind

/-- A branching item shows an ambiguity. -/
lemma handle_item_branching {p dot : Nat} {prod : Production}
    (hx : P.chart.place? id = some ⟨.item p dot, j, k⟩) (hp : P.grammar.prods[p]? = some prod)
    (hb : P.chart.branches id = true) :
    b.handle P ⟨.visit, id, k⟩ = .error (.ambiguous prod.head j k) := by
  obtain ⟨e, he, hpl⟩ := Chart.place?_eq_some.1 hx
  simp only [Entry.place, Place.mk.injEq] at hpl
  rw [Chart.branches_eq_isBranching he] at hb
  simp [handle, he, hpl.1, hpl.2.1, hb, ambiguity, Grammar.headOf?, hp]

lemma handle_item {p dot : Nat} (hx : P.chart.place? id = some ⟨.item p dot, j, k⟩)
    (hb : P.chart.branches id = false) :
    b.handle P ⟨.visit, id, k⟩ = b.passItem P p dot k := by
  obtain ⟨e, he, hpl⟩ := Chart.place?_eq_some.1 hx
  simp only [Entry.place, Place.mk.injEq] at hpl
  rw [Chart.branches_eq_isBranching he] at hb
  simp [handle, he, hpl.1, hb]

/-! ### Items -/

/-- The production of an open node is the one that is walked, or its last item comes next. -/
def Within (prod : Production) (p dot : Nat) (top : OpenNode) : Prop :=
  top.prod = some p ∨ (top.prod = none ∧ dot = prod.body.length)

variable {p dot : Nat} {prod : Production} {top : OpenNode} {stack : List OpenNode}
  {finished : List (Nat × Tree)} {root : Option Tree}

/-- After an item the production of the node is known. -/
lemma passItem_eq (hp : P.grammar.prods[p]? = some prod) (hin : Within prod p dot top) :
    passItem P ⟨top :: stack, finished, root⟩ p dot k =
      let b : TreeBuilder := ⟨{ top with prod := some p } :: stack, finished, root⟩
      match P.grammar.prev? (.item p dot) with
      | some (.terminal _) => b.attachToken P k
      | some (.nonterminal _) => .ok b
      | none => if prod.body.isEmpty then .ok (b.attach (.epsilon k)) else .ok b := by
  have hset : (if P.grammar.isComplete (.item p dot) then
      setProd ⟨top :: stack, finished, root⟩ p else ⟨top :: stack, finished, root⟩) =
      ⟨{ top with prod := some p } :: stack, finished, root⟩ := by
    rcases hin with htop | ⟨htop, rfl⟩
    · obtain ⟨symbol, prod', lo, hi, entry, children⟩ := top
      cases htop
      split <;> simp [setProd]
    · simp [Grammar.isComplete, hp, setProd, htop]
  have hempty : P.grammar.isEmptyItem (.item p dot) = prod.body.isEmpty := by
    simp [Grammar.isEmptyItem, hp]
  cases hprev : P.grammar.prev? (.item p dot) with
  | none => simp only [passItem, hset, hempty, hprev]
  | some s => cases s <;> simp only [passItem, hset, hprev]

lemma handle_enter (hP : P.Complete) (hx : P.chart.place? id = some ⟨.item p 0, j, k⟩)
    (hp : P.grammar.prods[p]? = some prod) (hin : Within prod p 0 top) :
    handle P ⟨top :: stack, finished, root⟩ ⟨.visit, id, k⟩ =
      .ok ⟨{ top with
        prod := some p
        children := (if prod.body.isEmpty then [.epsilon k] else []) ++ top.children } :: stack,
        finished, root⟩ := by
  rw [handle_item hx (hP.branches_enter hx), passItem_eq hp hin]
  simp only [Grammar.prev?]
  split <;> rfl

lemma handle_scan (hP : P.Complete) {t : Terminal} {u : Token}
    (hx : P.chart.place? id = some ⟨.item p (dot + 1), j, k + 1⟩)
    (hp : P.grammar.prods[p]? = some prod) (hin : Within prod p (dot + 1) top)
    (hs : P.grammar.symbolAt? p dot = some (.terminal t)) (hu : P.tokens[k]? = some u) :
    handle P ⟨top :: stack, finished, root⟩ ⟨.visit, id, k + 1⟩ =
      .ok ⟨{ top with prod := some p, children := .token k u :: top.children } :: stack,
        finished, root⟩ := by
  rw [handle_item hx (hP.branches_scan hx hs), passItem_eq hp hin]
  simp [Grammar.prev?, hs, attachToken, hu, attach]

lemma handle_resume {n : NonTerminal}
    (hx : P.chart.place? id = some ⟨.item p (dot + 1), j, k⟩)
    (hp : P.grammar.prods[p]? = some prod) (hin : Within prod p (dot + 1) top)
    (hs : P.grammar.symbolAt? p dot = some (.nonterminal n)) (hb : P.chart.branches id = false) :
    handle P ⟨top :: stack, finished, root⟩ ⟨.visit, id, k⟩ =
      .ok ⟨{ top with prod := some p } :: stack, finished, root⟩ := by
  rw [handle_item hx hb, passItem_eq hp hin]
  simp [Grammar.prev?, hs]

variable (top stack finished root) in
lemma close_eq (htop : top.prod = some p) :
    close ⟨top :: stack, finished, root⟩ =
      .ok (attach ⟨stack, (top.entry, .node top.symbol p top.lo top.hi top.children) :: finished,
        root⟩ (.node top.symbol p top.lo top.hi top.children)) := by
  simp [close, htop]

end TreeBuilder

end ParseForest
