import ParseForest.Proofs.Forest.Readings
import Mathlib.Data.List.Forall2
import Mathlib.Logic.Relation

/-!
# Constituents

A derivation of a phrase is a reading of the phrase with a derivation of each of its pieces,
`derives_iff`. So what occurs inside of the derivations of a phrase can be asked of readings alone:
the phrases that occur are those that can be reached from the phrase by going to a piece of a
reading, one time after the other, `occurs_iff`.
-/

namespace ParseForest

/-! ### Parts of trees -/

namespace Tree

mutual

/-- The trees that a traversal meets do not depend on the depth it begins at. -/
lemma map_snd_preorder (d d' : Nat) (t : Tree) :
    (t.preorder d).map Prod.snd = (t.preorder d').map Prod.snd := by
  match t with
  | token index u => rfl
  | epsilon position => rfl
  | node symbol prod lo hi children =>
    simp only [preorder, List.map_cons, map_snd_preorderList (d + 1) (d' + 1) children]

lemma map_snd_preorderList (d d' : Nat) (ts : List Tree) :
    (preorderList d ts).map Prod.snd = (preorderList d' ts).map Prod.snd := by
  match ts with
  | [] => rfl
  | t :: ts =>
    simp only [preorderList, List.map_append, map_snd_preorder d d' t,
      map_snd_preorderList d d' ts]

end

/-- The tree is a part of another, or the other itself. -/
def Occurs (s t : Tree) : Prop :=
  ∃ d, (d, s) ∈ t.preorder 0

/-- Whether the tree is a node of the production over the range. -/
def isNode (n : NonTerminal) (p lo hi : Nat) : Tree → Bool
  | node m q lo' hi' _ => m == n && q == p && lo' == lo && hi' == hi
  | _ => false

variable {s t : Tree} {n : NonTerminal} {p lo hi : Nat} {ts children : List Tree}

lemma isNode_iff : t.isNode n p lo hi = true ↔ ∃ children, t = node n p lo hi children := by
  cases t <;> simp [isNode, and_assoc]

lemma occurs_iff_mem (d : Nat) : s.Occurs t ↔ s ∈ (t.preorder d).map Prod.snd := by
  rw [map_snd_preorder d 0]
  simp [Occurs]

lemma mem_preorderList_iff (d : Nat) :
    s ∈ (preorderList d ts).map Prod.snd ↔ ∃ t ∈ ts, s.Occurs t := by
  induction ts with
  | nil => simp [preorderList]
  | cons t ts ih =>
    rw [preorderList, List.map_append, List.mem_append, ih, ← occurs_iff_mem,
      List.exists_mem_cons_iff]

@[simp]
lemma occurs_token_iff {index : Nat} {u : Token} :
    s.Occurs (.token index u) ↔ s = .token index u := by
  rw [occurs_iff_mem 0, preorder, List.map_singleton, List.mem_singleton]

/-- What occurs in a node is the node, or occurs in one of its children. -/
lemma occurs_node_iff :
    s.Occurs (.node n p lo hi children) ↔
      s = .node n p lo hi children ∨ ∃ t ∈ children, s.Occurs t := by
  rw [occurs_iff_mem 0, preorder, List.map_cons, List.mem_cons, mem_preorderList_iff]

lemma occurs_refl (t : Tree) : t.Occurs t := by
  cases t with
  | token index u => exact ⟨0, List.mem_cons_self⟩
  | epsilon position => exact ⟨0, List.mem_cons_self⟩
  | node n p lo hi children => exact occurs_node_iff.2 (Or.inl rfl)

/-- Whether a part of the tree is a node of the production over the range. -/
def hasNode (n : NonTerminal) (p lo hi : Nat) (t : Tree) : Bool :=
  (t.preorder 0).any fun s => s.2.isNode n p lo hi

lemma hasNode_iff :
    t.hasNode n p lo hi = true ↔ ∃ children, (node n p lo hi children).Occurs t := by
  simp only [hasNode, List.any_eq_true, isNode_iff, Occurs, Prod.exists]
  constructor
  · rintro ⟨d, s, hmem, children, rfl⟩
    exact ⟨children, d, hmem⟩
  · rintro ⟨children, d, hmem⟩
    exact ⟨d, _, hmem, children, rfl⟩

lemma depth_le_maxDepth (h : t ∈ ts) : t.depth ≤ maxDepth ts := by
  induction ts with
  | nil => cases h
  | cons t' ts ih =>
    rw [maxDepth]
    rcases List.mem_cons.1 h with rfl | h
    · exact Nat.le_max_left _ _
    · exact Nat.le_trans (ih h) (Nat.le_max_right _ _)

lemma mem_childrenOf {lo : Nat} (h : t ∈ ts) : t ∈ childrenOf lo ts := by
  cases ts with
  | nil => cases h
  | cons => exact h

/-- A child is less deep than its parent. -/
lemma depth_lt_of_mem (h : t ∈ children) : t.depth < (node n p lo hi children).depth := by
  have := depth_le_maxDepth h
  rw [depth]
  omega

/-- What passes from nodes to their children passes to all parts. -/
lemma Occurs.of_children {Q : Tree → Prop}
    (hchild : ∀ n p lo hi children, Q (node n p lo hi children) → ∀ c ∈ children, Q c)
    (h : s.Occurs t) (ht : Q t) : Q s := by
  induction hd : t.depth using Nat.strongRecOn generalizing t with
  | _ d ih =>
    subst hd
    cases t with
    | token | epsilon =>
      obtain rfl : s = _ := by simpa [Occurs, preorder] using h
      exact ht
    | node n p lo hi children =>
      rcases occurs_node_iff.1 h with rfl | ⟨c, hc, hocc⟩
      · exact ht
      · exact ih _ (depth_lt_of_mem hc) hocc (hchild n p lo hi children ht c hc) rfl

end Tree

/-! ### Derivations of pieces -/

/-- The tree is a permitted derivation of the piece. -/
inductive Piece.Derives (G : Grammar) (w : List Token) : Piece → Tree → Prop where
  | token {index : Nat} {u : Token} (hu : w[index]? = some u) :
      Derives G w (.token index) (.token index u)
  | epsilon {position : Nat} : Derives G w (.epsilon position) (.epsilon position)
  | phrase {x : Phrase} {t : Tree} (h : G.Derives w x.symbol x.lo x.hi t) :
      Derives G w (.phrase x) t

/-- A piece that is not a phrase has at most one derivation. -/
lemma Piece.Derives.unique {G : Grammar} {w : List Token} {s : Piece} {t t' : Tree}
    (hs : ∀ x, s ≠ .phrase x) (h : s.Derives G w t) (h' : s.Derives G w t') : t = t' := by
  cases h with
  | token hu =>
    cases h' with
    | token hu' => rw [Option.some.inj (hu.symm.trans hu')]
  | epsilon =>
    cases h'
    rfl
  | phrase => exact absurd rfl (hs _)

section Lists

variable {α β : Type} {R : α → β → Prop} {l : List α} {a : α} {b : β} {bs : List β}

lemma forall₂_concat_iff :
    List.Forall₂ R (l ++ [a]) bs ↔
      ∃ bs' b, bs = bs' ++ [b] ∧ List.Forall₂ R l bs' ∧ R a b := by
  constructor
  · intro h
    induction l generalizing bs with
    | nil =>
      cases h with
      | cons hab h =>
        cases h
        exact ⟨[], _, rfl, .nil, hab⟩
    | cons a' l ih =>
      cases h with
      | cons hab h =>
        obtain ⟨bs', b, rfl, hl, hb⟩ := ih h
        exact ⟨_ :: bs', b, rfl, .cons hab hl, hb⟩
  · rintro ⟨bs', b, rfl, hl, hb⟩
    exact List.rel_append hl (.cons hb .nil)

lemma exists_forall₂ (h : ∀ a ∈ l, ∃ b, R a b) : ∃ bs, List.Forall₂ R l bs := by
  induction l with
  | nil => exact ⟨[], .nil⟩
  | cons a l ih =>
    obtain ⟨b, hb⟩ := h a List.mem_cons_self
    obtain ⟨bs, hbs⟩ := ih fun c hc => h c (List.mem_cons_of_mem _ hc)
    exact ⟨b :: bs, .cons hb hbs⟩

/-- Related elements can be found for a whole list, one of them as given. -/
lemma exists_forall₂_mem (h : ∀ a ∈ l, ∃ b, R a b) (ha : a ∈ l) (hab : R a b) :
    ∃ bs, List.Forall₂ R l bs ∧ b ∈ bs := by
  obtain ⟨l₁, l₂, rfl⟩ := List.append_of_mem ha
  obtain ⟨bs₁, h₁⟩ := exists_forall₂ (l := l₁) fun c hc => h c (by simp [hc])
  obtain ⟨bs₂, h₂⟩ := exists_forall₂ (l := l₂) fun c hc => h c (by simp [hc])
  exact ⟨bs₁ ++ b :: bs₂, List.rel_append h₁ (.cons hab h₂), by simp⟩

lemma exists_mem_left_of_forall₂ (h : List.Forall₂ R l bs) (hb : b ∈ bs) : ∃ a ∈ l, R a b := by
  induction h with
  | nil => cases hb
  | @cons a' b' l bs hab _ ih =>
    rcases List.mem_cons.1 hb with rfl | hb
    · exact ⟨a', List.mem_cons_self, hab⟩
    · obtain ⟨a, ha, hr⟩ := ih hb
      exact ⟨a, List.mem_cons_of_mem _ ha, hr⟩

end Lists

variable {G : Grammar} {w : List Token} {p dot lo hi : Nat} {n : NonTerminal} {ts : List Tree}
  {t : Tree} {x y : Phrase} {r : Reading}

/-- Trees for the first symbols of a production are derivations of pieces that the symbols match. -/
lemma spans_item_iff :
    Spans G w (.item p dot) lo hi ts ↔
      ∃ ss, G.Splits w p dot lo hi ss ∧ List.Forall₂ (Piece.Derives G w) ss ts := by
  constructor
  · intro h
    generalize hv : Vertex.item p dot = v at h
    induction h generalizing p dot with
    | enter hp hlo =>
      cases hv
      exact ⟨[], .enter hp hlo, .nil⟩
    | scan _ hs ht ih =>
      cases hv
      obtain ⟨ss, hss, hts⟩ := ih rfl
      exact ⟨_, .scan hss hs ht, List.rel_append hts (.cons (.token ht) .nil)⟩
    | resume _ hp hs hn hc ih _ =>
      cases hv
      obtain ⟨ss, hss, hts⟩ := ih rfl
      exact ⟨_, .resume hss hp hs hn hc, List.rel_append hts (.cons (.phrase hn) .nil)⟩
    | exit => cases hv
  · rintro ⟨ss, h, hts⟩
    induction h generalizing ts with
    | enter hp hlo =>
      cases hts
      exact .enter hp hlo
    | scan _ hs hu ih =>
      obtain ⟨ts', t, rfl, hts', ht⟩ := forall₂_concat_iff.1 hts
      cases ht with
      | token hu' =>
        obtain rfl := Option.some.inj (hu.symm.trans hu')
        exact .scan (ih hts') hs hu
    | resume _ hp hs hn hc ih =>
      obtain ⟨ts', t, rfl, hts', ht⟩ := forall₂_concat_iff.1 hts
      cases ht with
      | phrase ht => exact .resume (ih hts') hp hs ht hc

lemma forall₂_sequenceOf_iff {ss : List Piece} {children : List Tree} :
    List.Forall₂ (Piece.Derives G w) (Piece.sequenceOf lo ss) children ↔
      ∃ ts, children = Tree.childrenOf lo ts ∧ List.Forall₂ (Piece.Derives G w) ss ts := by
  cases ss with
  | nil =>
    constructor
    · intro h
      cases h with
      | cons ht h =>
        cases ht
        cases h
        exact ⟨[], rfl, .nil⟩
    · rintro ⟨ts, rfl, h⟩
      cases h
      exact .cons .epsilon .nil
  | cons s ss =>
    constructor
    · intro h
      cases h with
      | cons ht h => exact ⟨_ :: _, rfl, .cons ht h⟩
    · rintro ⟨ts, rfl, h⟩
      cases h with
      | cons ht h => exact .cons ht h

/-- A derivation of a phrase is a reading of the phrase and a derivation of each of its pieces. -/
theorem derives_iff :
    G.Derives w n lo hi t ↔
      ∃ r children, t = .node n r.prod lo hi children ∧ G.Reads w ⟨n, lo, hi⟩ r ∧
        List.Forall₂ (Piece.Derives G w) r.pieces children := by
  constructor
  · intro h
    cases h with
    | @exit p _ _ prod ts hp hts =>
      obtain ⟨ss, hss, hts⟩ := spans_item_iff.1 hts
      exact ⟨⟨p, _⟩, _, rfl, ⟨prod, ss, hp, rfl, hss, rfl⟩,
        forall₂_sequenceOf_iff.2 ⟨ts, rfl, hts⟩⟩
  · rintro ⟨⟨p, pieces⟩, children, rfl, ⟨prod, ss, hp, hn, hss, hr⟩, hchildren⟩
    obtain rfl : prod.head = n := hn
    obtain rfl : pieces = Piece.sequenceOf lo ss := hr
    obtain ⟨ts, rfl, hts⟩ := forall₂_sequenceOf_iff.1 hchildren
    exact .exit hp (spans_item_iff.2 ⟨ss, hss, hts⟩)

/-! ### Constituents -/

namespace Grammar

variable (G : Grammar) (w : List Token)

/-- The second phrase is a piece of a reading of the first. -/
def Has (x y : Phrase) : Prop :=
  ∃ r, G.Reads w x r ∧ .phrase y ∈ r.pieces

/-- The phrase is that of a node of a permitted derivation of the input. -/
def Occurs (x : Phrase) : Prop :=
  ∃ t, G.Derives w G.start 0 w.length t ∧
    ∃ p children, (Tree.node x.symbol p x.lo x.hi children).Occurs t

end Grammar

/-- Every piece has a derivation. -/
lemma Grammar.Splits.exists_derives {ss : List Piece} (h : G.Splits w p dot lo hi ss) :
    ∀ s ∈ ss, ∃ t, s.Derives G w t := by
  induction h with
  | enter => simp
  | scan _ _ hu ih =>
    intro s hs
    rcases List.mem_append.1 hs with hs | hs
    · exact ih s hs
    · obtain rfl := List.mem_singleton.1 hs
      exact ⟨_, .token hu⟩
  | resume _ _ _ hn _ ih =>
    intro s hs
    rcases List.mem_append.1 hs with hs | hs
    · exact ih s hs
    · obtain rfl := List.mem_singleton.1 hs
      exact ⟨_, .phrase hn⟩

lemma Grammar.Reads.exists_derives (h : G.Reads w x r) : ∀ s ∈ r.pieces, ∃ t, s.Derives G w t := by
  obtain ⟨prod, ss, -, -, hss, hr⟩ := h
  rw [hr]
  cases ss with
  | nil =>
    intro s hs
    obtain rfl := List.mem_singleton.1 hs
    exact ⟨_, .epsilon⟩
  | cons s ss => exact hss.exists_derives

/-- A derivation of a constituent is a child of a derivation of the phrase. -/
lemma Grammar.Has.exists_derives (h : G.Has w x y) (ht : G.Derives w y.symbol y.lo y.hi t) :
    ∃ p children, G.Derives w x.symbol x.lo x.hi (.node x.symbol p x.lo x.hi children) ∧
      t ∈ children := by
  obtain ⟨r, hr, hy⟩ := h
  obtain ⟨children, hchildren, ht⟩ := exists_forall₂_mem hr.exists_derives hy (.phrase ht)
  exact ⟨r.prod, children, derives_iff.2 ⟨r, children, rfl, hr, hchildren⟩, ht⟩

lemma Grammar.Has.derives (h : G.Has w x y) : ∃ t, G.Derives w y.symbol y.lo y.hi t := by
  obtain ⟨r, hr, hy⟩ := h
  obtain ⟨t, ht⟩ := hr.exists_derives _ hy
  cases ht with
  | phrase ht => exact ⟨t, ht⟩

/-- A derivation of what is reached from a phrase occurs in a derivation of the phrase. -/
lemma exists_occurs_of_reaches (h : Relation.ReflTransGen (G.Has w) x y)
    (ht : G.Derives w y.symbol y.lo y.hi t) :
    ∃ t', G.Derives w x.symbol x.lo x.hi t' ∧ t.Occurs t' := by
  induction h using Relation.ReflTransGen.head_induction_on with
  | refl => exact ⟨t, ht, t.occurs_refl⟩
  | head hxz _ ih =>
    obtain ⟨t', ht', hocc⟩ := ih
    obtain ⟨p, children, hd, hmem⟩ := hxz.exists_derives ht'
    exact ⟨_, hd, Tree.occurs_node_iff.2 (Or.inr ⟨t', hmem, hocc⟩)⟩

/-- What occurs in a derivation of a phrase is reached from the phrase. -/
lemma reaches_of_occurs {children : List Tree} (ht : G.Derives w x.symbol x.lo x.hi t)
    (h : (Tree.node y.symbol p y.lo y.hi children).Occurs t) :
    Relation.ReflTransGen (G.Has w) x y := by
  induction hd : t.depth using Nat.strongRecOn generalizing t x with
  | _ d ih =>
    subst hd
    obtain ⟨r, us, rfl, hr, hus⟩ := derives_iff.1 ht
    rcases Tree.occurs_node_iff.1 h with heq | ⟨u, hu, hocc⟩
    · simp only [Tree.node.injEq] at heq
      obtain rfl : y = x := by
        obtain ⟨n, lo, hi⟩ := x
        obtain ⟨m, lo', hi'⟩ := y
        simp only [Phrase.mk.injEq]
        exact ⟨heq.1, heq.2.2.1, heq.2.2.2.1⟩
      exact .refl
    · obtain ⟨s, hs, hsu⟩ := exists_mem_left_of_forall₂ hus hu
      cases hsu with
      | token => simp [Tree.Occurs, Tree.preorder] at hocc
      | epsilon => simp [Tree.Occurs, Tree.preorder] at hocc
      | @phrase z _ hz => exact .head ⟨r, hr, hs⟩ (ih _ (Tree.depth_lt_of_mem hu) hz hocc rfl)

/-- A phrase occurs in a derivation of the input exactly if it is reached from the whole input. -/
theorem occurs_iff :
    G.Occurs w y ↔
      G.Accepts w ∧ Relation.ReflTransGen (G.Has w) ⟨G.start, 0, w.length⟩ y := by
  constructor
  · rintro ⟨t, ht, p, children, hocc⟩
    exact ⟨⟨t, ht⟩, reaches_of_occurs (x := ⟨G.start, 0, w.length⟩) ht hocc⟩
  · rintro ⟨hacc, hreach⟩
    have hy : ∃ t, G.Derives w y.symbol y.lo y.hi t := by
      rcases hreach.cases_tail with rfl | ⟨z, -, hzy⟩
      · exact hacc
      · exact hzy.derives
    obtain ⟨t, ht⟩ := hy
    obtain ⟨t', ht', hocc⟩ := exists_occurs_of_reaches hreach ht
    obtain ⟨r, children, rfl, -, -⟩ := derives_iff.1 ht
    exact ⟨t', ht', r.prod, children, hocc⟩

end ParseForest
