import ParseForest.Proofs.Forest.Constituents
import ParseForest.Proofs.Grammar.Conditionals
import ParseForest.Proofs.Tree.Unambiguous

/-!
# The nearest `then`

The constraint of `Samples.nearestElse` leaves no choice, not even in beginnings of conditionals that
are never completed. So each input that is recognized has a tree, and in this tree no `else` could be
given to a `then` nearer to it, `nearestElse_binds_nearest`.
-/

namespace ParseForest

open Samples

variable {w : List Token} {lo mid hi p : Nat} {s t : Tree} {n : NonTerminal}

/-! ### The right edge of a tree -/

/-- The tree is where another one ends: the other one itself, or where its last child ends. -/
inductive Tree.AtRightEdge (s : Tree) : Tree → Prop where
  | refl : AtRightEdge s s
  | last {n : NonTerminal} {p lo hi : Nat} {children : List Tree} {t : Tree}
      (ht : children.getLast? = some t) (h : AtRightEdge s t) :
      AtRightEdge s (.node n p lo hi children)

/-- A conditional that has a `then` branch only. -/
def Tree.IsIfThen : Tree → Prop
  | .node n p _ _ _ => n = ⟨"S"⟩ ∧ p = 0
  | _ => False

/-- In a single token no conditional ends. -/
lemma Statement.not_isIfThen (h : Statement true w lo hi t) (hv : ¬ HasIf w lo hi)
    (hs : s.AtRightEdge t) : ¬ s.IsIfThen := by
  have hlen := h.eq_of_not_hasIf hv
  cases h with
  | other hu hk =>
    cases hs with
    | refl => simp [Tree.IsIfThen]
    | last ht hs =>
      obtain rfl := Option.some.inj ht
      cases hs
      simp [Tree.IsIfThen]
  | ifThen hc h =>
    have := h.lt
    omega
  | ifThenElse hc h hv' hu hk h' =>
    have := h.lt
    have := h'.lt
    omega

/-! ### Statements in statements -/

/-- A node of a statement occurs in the tree. -/
def Tree.HasStatement (s : Tree) : Prop :=
  ∃ p lo hi children, (Tree.node ⟨"S"⟩ p lo hi children).Occurs s

lemma Tree.not_hasStatement_token (i : Nat) (u : Token) : ¬ (Tree.token i u).HasStatement := by
  simp [Tree.HasStatement]

lemma Condition.not_hasStatement {ts : List Tree} (h : Condition w lo ts) (hs : s ∈ ts) :
    ¬ s.HasStatement := by
  obtain ⟨u, v, x, -, -, -, -, -, -, rfl⟩ := h
  simp only [List.mem_cons, List.not_mem_nil, or_false] at hs
  rcases hs with rfl | rfl | rfl
  · exact Tree.not_hasStatement_token _ _
  · simp [Tree.HasStatement, Tree.occurs_node_iff]
  · exact Tree.not_hasStatement_token _ _

/-- A child of a statement is a statement, or no statement occurs in it. -/
lemma Statement.child_cases {nearest : Bool} {lo' hi' : Nat} {children : List Tree}
    (h : Statement nearest w lo hi (.node n p lo' hi' children)) (hs : s ∈ children) :
    ¬ s.HasStatement ∨ ∃ lo hi, Statement nearest w lo hi s := by
  cases h with
  | other =>
    obtain rfl := List.mem_singleton.1 hs
    exact Or.inl (Tree.not_hasStatement_token _ _)
  | ifThen hcond h =>
    rcases List.mem_append.1 hs with hs | hs
    · exact Or.inl (hcond.not_hasStatement hs)
    · obtain rfl := List.mem_singleton.1 hs
      exact Or.inr ⟨_, _, h⟩
  | ifThenElse hcond h _ _ _ h' =>
    rcases List.mem_append.1 hs with hs | hs
    · exact Or.inl (hcond.not_hasStatement hs)
    · simp only [List.mem_cons, List.not_mem_nil, or_false] at hs
      rcases hs with rfl | rfl | rfl
      · exact Or.inr ⟨_, _, h⟩
      · exact Or.inl (Tree.not_hasStatement_token _ _)
      · exact Or.inr ⟨_, _, h'⟩

/-- The nodes of statements that occur in a statement are statements. -/
lemma Statement.of_occurs {nearest : Bool} {lo' hi' : Nat} {children : List Tree}
    (h : Statement nearest w lo hi t) (hocc : (Tree.node ⟨"S"⟩ p lo' hi' children).Occurs t) :
    Statement nearest w lo' hi' (.node ⟨"S"⟩ p lo' hi' children) := by
  have hall := hocc.of_children
    (Q := fun s => ¬ s.HasStatement ∨ ∃ lo hi, Statement nearest w lo hi s)
    (fun n q l r cs hs c hc => ?_) (Or.inr ⟨lo, hi, h⟩)
  · rcases hall with hno | ⟨lo'', hi'', hs⟩
    · exact absurd ⟨p, lo', hi', children, Tree.occurs_refl _⟩ hno
    · obtain ⟨rfl, rfl⟩ : lo'' = lo' ∧ hi'' = hi' := by cases hs <;> exact ⟨rfl, rfl⟩
      exact hs
  · rcases hs with hno | ⟨lo'', hi'', hs⟩
    · refine Or.inl ?_
      rintro ⟨p, lo, hi, children, hocc⟩
      exact hno ⟨p, lo, hi, children, Tree.occurs_node_iff.2 (Or.inr ⟨c, hc, hocc⟩)⟩
    · exact hs.child_cases hc

/-! ### No choice -/

lemma derivesUniquely_nearestElse (w : List Token) : nearestElse.DerivesUniquely w := by
  change (conditional (elseConstraint true)).DerivesUniquely w
  intro n lo hi t t' h h'
  obtain ⟨p, prod, -, hp, rfl, -, -⟩ := derives_iff_production.1 h
  match p, hp with
  | 0, hp | 1, hp | 2, hp =>
    obtain rfl := Option.some.inj hp
    exact (derives_iff_statement.1 h).unique (derives_iff_statement.1 h')
  | 3, hp =>
    obtain rfl := Option.some.inj hp
    obtain ⟨v, -, hv, -, rfl⟩ := derives_condition_iff.1 h
    obtain ⟨v', -, hv', -, rfl⟩ := derives_condition_iff.1 h'
    rw [Option.some.inj (hv.symm.trans hv')]

/-- Inside of a conditional the only nonterminals are its condition and its `then` branch. -/
lemma dot_of_conditional {c : Option Constraint} {prod : Production} {dot : Nat}
    (hp : (conditional c).prods[p]? = some prod)
    (hs : prod.body[dot]? = some (.nonterminal n)) (hdot : dot + 1 < prod.body.length) :
    (p = 0 ∨ p = 1) ∧ (dot = 1 ∨ dot = 3) := by
  match p, hp with
  | 0, hp =>
    obtain rfl := Option.some.inj hp
    match dot, hs with
    | 1, _ | 3, _ => simp
  | 1, hp =>
    obtain rfl := Option.some.inj hp
    match dot, hs with
    | 1, _ | 3, _ => simp
    | 5, _ => exact absurd hdot (Nat.lt_irrefl 6)
  | 2, hp | 3, hp =>
    obtain rfl := Option.some.inj hp
    simp at hdot

/-- The symbols before the two match one token each. -/
lemma endsUniquely_nearestElse (w : List Token) : nearestElse.EndsUniquely w := by
  change (conditional (elseConstraint true)).EndsUniquely w
  intro p prod dot n hp hs hdot lo mid mid' ts ts' h h'
  have hends : ∀ mid ts, Spans (conditional (elseConstraint true)) w (.item p dot) lo mid ts →
      mid = lo + dot := by
    intro mid ts h
    obtain ⟨hp', rfl | rfl⟩ := dot_of_conditional hp hs hdot
    · have hif : (conditional (elseConstraint true)).symbolAt? p 0 = some (.terminal ⟨"if"⟩) := by
        rcases hp' with rfl | rfl <;> rfl
      obtain ⟨i, us, u, rfl, rfl, h, -, -⟩ := (spans_scan_iff hif).1 h
      obtain ⟨rfl, -, -⟩ := (spans_enter_iff hp).1 h
      rfl
    · exact ((spans_condition_iff hp').1 h).1
  rw [hends mid ts h, hends mid' ts' h']

/-! ### Trees -/

/-- An input that the constraint accepts is not ambiguous and has a tree. The tree is a derivation
without the constraint too, and where it has an `else`, the `then` branch before it does not end
with a conditional that could take the `else`. -/
theorem nearestElse_binds_nearest {P : Parsing} (hP : (nearestElse.recognize w).result = .ok P) :
    P.isAmbiguous = false ∧ ∃ t, P.tree = .ok t ∧
      danglingElse.Derives w danglingElse.start 0 w.length t ∧
      ∀ lo hi children, (Tree.node ⟨"S"⟩ 1 lo hi children).Occurs t →
        ∃ branch, children[3]? = some branch ∧ ∀ s : Tree, s.AtRightEdge branch → ¬ s.IsIfThen := by
  have hG : Grammar.build ⟨"S"⟩
      [⟨⟨"S"⟩,
        [([tm "if", nt "E", tm "then", nt "S"], none),
          ([tm "if", nt "E", tm "then", nt "S", tm "else", nt "S"], some closestElse),
          ([tm "other"], none)]⟩,
        rule "E" [[tm "cond"]]] = .ok nearestElse := rfl
  obtain ⟨hamb, t, hok, ht⟩ := Grammar.exists_tree_of_derivesUniquely hG hP
    (derivesUniquely_nearestElse w) (endsUniquely_nearestElse w)
  rw [derives_nearestElse_iff] at ht
  refine ⟨hamb, t, hok, derives_danglingElse_iff.2 ht.weaken, fun lo hi children hocc => ?_⟩
  cases ht.of_occurs hocc with
  | ifThenElse hcond h hv hu hk h' =>
    obtain ⟨u, v, x, -, -, -, -, -, -, rfl⟩ := hcond
    exact ⟨_, rfl, fun s => h.not_isIfThen (hv rfl)⟩

/-- The `else` that could belong to two conditionals is given to the inner one, whose `then` branch
is a single token. -/
theorem nearestElse_binds_nearest_inner :
    let w := ["if", "cond", "then", "if", "cond", "then", "other", "else", "other"].map Token.plain
    ∃ P t, (nearestElse.recognize w).result = .ok P ∧ P.isAmbiguous = false ∧ P.tree = .ok t ∧
      danglingElse.Derives w danglingElse.start 0 w.length t ∧
      ∃ children branch, (Tree.node ⟨"S"⟩ 1 3 9 children).Occurs t ∧ children[3]? = some branch ∧
        ∀ s : Tree, s.AtRightEdge branch → ¬ s.IsIfThen := by
  intro w
  have hrun : (nearestElse.recognize w).result.toOption.any (fun P =>
      P.tree.toOption.any fun t => t.hasNode ⟨"S"⟩ 1 3 9) = true := by decide +kernel
  obtain ⟨P, hP, htree⟩ := any_toOption_iff.1 hrun
  obtain ⟨t, ht, hnode⟩ := any_toOption_iff.1 htree
  obtain ⟨hamb, t', ht', hderives, hbranch⟩ := nearestElse_binds_nearest hP
  obtain rfl : t = t' := by simpa [ht] using ht'
  obtain ⟨children, hocc⟩ := Tree.hasNode_iff.1 hnode
  obtain ⟨branch, hchild, hedge⟩ := hbranch _ _ _ hocc
  exact ⟨P, t, hP, hamb, ht, hderives, children, branch, hocc, hchild, hedge⟩

end ParseForest
