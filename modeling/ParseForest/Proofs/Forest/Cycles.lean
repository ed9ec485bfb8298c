import ParseForest.Proofs.Forest.Constituents
import Mathlib.Data.Set.Card
import Mathlib.Data.Set.Finite.Lattice
import Mathlib.Order.Interval.Set.Nat

/-!
# Finite ambiguity

A phrase that is a constituent of itself has derivations of any depth, and so has each phrase that
it occurs in. Nothing else makes derivations infinite in number: a phrase has finitely many
derivations exactly if no constituent of it is a constituent of itself, `finite_derives_iff`.
-/

namespace ParseForest

variable {G : Grammar} {w : List Token} {x y z : Phrase} {p dot lo hi : Nat} {t : Tree}

/-- Nothing that is reached from the phrase is a constituent of itself. -/
def Grammar.Acyclic (G : Grammar) (w : List Token) (x : Phrase) : Prop :=
  ∀ y, Relation.ReflTransGen (G.Has w) x y → ¬ Relation.TransGen (G.Has w) y y

lemma Grammar.Acyclic.of_has (h : G.Acyclic w x) (hy : G.Has w x y) : G.Acyclic w y :=
  fun z hz => h z (.head hy hz)

/-! ### Cycles make derivations deep -/

lemma exists_deeper (h : Relation.TransGen (G.Has w) x y)
    (ht : G.Derives w y.symbol y.lo y.hi t) :
    ∃ t', G.Derives w x.symbol x.lo x.hi t' ∧ t.depth < t'.depth := by
  induction h using Relation.TransGen.head_induction_on with
  | single hxy =>
    obtain ⟨p, children, hd, hmem⟩ := hxy.exists_derives ht
    exact ⟨_, hd, Tree.depth_lt_of_mem hmem⟩
  | head hxz _ ih =>
    obtain ⟨t', ht', hlt⟩ := ih
    obtain ⟨p, children, hd, hmem⟩ := hxz.exists_derives ht'
    exact ⟨_, hd, Nat.lt_trans hlt (Tree.depth_lt_of_mem hmem)⟩

lemma exists_le_depth (h : Relation.TransGen (G.Has w) x x) (d : Nat) :
    ∃ t, G.Derives w x.symbol x.lo x.hi t ∧ d ≤ t.depth := by
  induction d with
  | zero =>
    obtain ⟨y, -, hyx⟩ := Relation.TransGen.tail'_iff.1 h
    obtain ⟨t, ht⟩ := hyx.derives
    exact ⟨t, ht, Nat.zero_le _⟩
  | succ d ih =>
    obtain ⟨t, ht, hd⟩ := ih
    obtain ⟨t', ht', hlt⟩ := exists_deeper h ht
    exact ⟨t', ht', Nat.lt_of_le_of_lt hd hlt⟩

lemma acyclic_of_finite (h : {t | G.Derives w x.symbol x.lo x.hi t}.Finite) : G.Acyclic w x := by
  intro y hxy hyy
  obtain ⟨bound, hbound⟩ := (h.image Tree.depth).bddAbove
  obtain ⟨t, ht, hd⟩ := exists_le_depth hyy (bound + 1)
  have hdeep : ∃ t', G.Derives w x.symbol x.lo x.hi t' ∧ t.depth ≤ t'.depth := by
    rcases Relation.reflTransGen_iff_eq_or_transGen.1 hxy with rfl | hxy
    · exact ⟨t, ht, Nat.le_refl _⟩
    · obtain ⟨t', ht', hlt⟩ := exists_deeper hxy ht
      exact ⟨t', ht', Nat.le_of_lt hlt⟩
  obtain ⟨t', ht', hle⟩ := hdeep
  have := hbound ⟨t', ht', rfl⟩
  omega

/-! ### Readings are finite in number -/

lemma finite_splits (G : Grammar) (w : List Token) (p dot lo hi : Nat) :
    {ss | G.Splits w p dot lo hi ss}.Finite := by
  induction dot generalizing hi with
  | zero =>
    refine (Set.finite_singleton []).subset fun ss hss => ?_
    obtain ⟨-, -, -, hnil⟩ := splits_zero_iff.1 hss
    exact hnil
  | succ dot ih =>
    -- The last piece is one of finitely many, wherever it begins.
    let last (mid : Nat) : Set Piece :=
      {s | s = .token mid ∨ ∃ n, G.symbolAt? p dot = some (.nonterminal n) ∧
        s = .phrase ⟨n, mid, hi⟩}
    have hlast : ∀ mid, (last mid).Finite := by
      intro mid
      cases hs : G.symbolAt? p dot with
      | none => exact (Set.finite_singleton (Piece.token mid)).subset (by simp [last, hs])
      | some s =>
        cases s with
        | terminal u => exact (Set.finite_singleton (Piece.token mid)).subset (by simp [last, hs])
        | nonterminal n =>
          refine (Set.toFinite {Piece.token mid, .phrase ⟨n, mid, hi⟩}).subset ?_
          simp [last, hs, Set.subset_def]
    have hall : (⋃ mid ∈ Set.Iic hi, Set.image2 (fun ss s => ss ++ [s])
        {ss | G.Splits w p dot lo mid ss} (last mid)).Finite :=
      (Set.finite_Iic hi).biUnion fun mid _ => (ih mid).image2 _ (hlast mid)
    refine hall.subset fun ss hss => ?_
    simp only [Set.mem_iUnion, Set.mem_Iic]
    cases hss with
    | scan h => exact ⟨_, Nat.le_succ _, _, h, _, Or.inl rfl, rfl⟩
    | resume h hp hs hn =>
      exact ⟨_, (Spans.le hn).1, _, h, _, Or.inr ⟨_, by rw [Grammar.symbolAt?_eq hp, hs], rfl⟩, rfl⟩

lemma finite_reads (G : Grammar) (w : List Token) (x : Phrase) : {r | G.Reads w x r}.Finite := by
  have hall : (⋃ q ∈ {q | q ∈ G.prods.zipIdx},
      (fun ss => (⟨q.2, Piece.sequenceOf x.lo ss⟩ : Reading)) ''
        {ss | G.Splits w q.2 q.1.body.length x.lo x.hi ss}).Finite :=
    (List.finite_toSet _).biUnion fun q _ => (finite_splits G w _ _ x.lo x.hi).image _
  refine hall.subset fun r hr => ?_
  obtain ⟨prod, ss, hp, -, hss, hpieces⟩ := hr
  simp only [Set.mem_iUnion]
  refine ⟨(prod, r.prod), List.mem_zipIdx_iff_getElem?.2 hp, ss, hss, ?_⟩
  simp only [← hpieces]

/-- The phrases that have derivations are finite in number. -/
lemma finite_derived (G : Grammar) (w : List Token) :
    {x : Phrase | ∃ t, G.Derives w x.symbol x.lo x.hi t}.Finite := by
  have hall : (⋃ prod ∈ {prod | prod ∈ G.prods},
      Set.image2 (fun lo hi => (⟨prod.head, lo, hi⟩ : Phrase)) (Set.Iic w.length)
        (Set.Iic w.length)).Finite :=
    (List.finite_toSet _).biUnion fun prod _ => (Set.finite_Iic _).image2 _ (Set.finite_Iic _)
  refine hall.subset fun x hx => ?_
  obtain ⟨t, ht⟩ := hx
  obtain ⟨hle, hhi⟩ := Spans.le ht
  obtain ⟨r, -, -, ⟨prod, ss, hp, hhead, -⟩, -⟩ := derives_iff.1 ht
  simp only [Set.mem_iUnion]
  exact ⟨prod, List.mem_of_getElem? hp, x.lo, Nat.le_trans hle hhi, x.hi, hhi, by rw [hhead]⟩

/-! ### Without cycles derivations are finite in number -/

lemma finite_forall₂ {α β : Type} {R : α → β → Prop} {l : List α}
    (h : ∀ a ∈ l, {b | R a b}.Finite) : {bs | List.Forall₂ R l bs}.Finite := by
  induction l with
  | nil =>
    refine (Set.finite_singleton []).subset fun bs hbs => ?_
    cases hbs
    rfl
  | cons a l ih =>
    refine ((h a List.mem_cons_self).image2 List.cons
      (ih fun c hc => h c (List.mem_cons_of_mem _ hc))).subset fun bs hbs => ?_
    cases hbs with
    | cons hab hl => exact ⟨_, hab, _, hl, rfl⟩

lemma finite_derives_of_has (h : ∀ y, G.Has w x y → {t | G.Derives w y.symbol y.lo y.hi t}.Finite) :
    {t | G.Derives w x.symbol x.lo x.hi t}.Finite := by
  have hpiece : ∀ r, G.Reads w x r → ∀ s ∈ r.pieces, {t | s.Derives G w t}.Finite := by
    intro r hr s hs
    cases s with
    | token index => exact Set.Subsingleton.finite fun t ht t' ht' => ht.unique (by simp) ht'
    | epsilon position => exact Set.Subsingleton.finite fun t ht t' ht' => ht.unique (by simp) ht'
    | phrase y =>
      refine (h y ⟨r, hr, hs⟩).subset fun t ht => ?_
      cases ht with
      | phrase ht => exact ht
  have hall : (⋃ r ∈ {r | G.Reads w x r}, Tree.node x.symbol r.prod x.lo x.hi ''
      {children | List.Forall₂ (Piece.Derives G w) r.pieces children}).Finite :=
    (finite_reads G w x).biUnion fun r hr => (finite_forall₂ (hpiece r hr)).image _
  refine hall.subset fun t ht => ?_
  obtain ⟨r, children, rfl, hr, hchildren⟩ := derives_iff.1 ht
  simp only [Set.mem_iUnion]
  exact ⟨r, hr, children, hchildren, rfl⟩

lemma finite_reached (G : Grammar) (w : List Token) (x : Phrase) :
    {y | Relation.TransGen (G.Has w) x y}.Finite := by
  refine (finite_derived G w).subset fun y hy => ?_
  obtain ⟨z, -, hzy⟩ := Relation.TransGen.tail'_iff.1 hy
  exact hzy.derives

lemma finite_of_acyclic (h : G.Acyclic w x) : {t | G.Derives w x.symbol x.lo x.hi t}.Finite := by
  -- Fewer phrases are reached from a constituent, as it is not reached from itself.
  induction hn : {y | Relation.TransGen (G.Has w) x y}.ncard using Nat.strongRecOn
    generalizing x with
  | _ n ih =>
    subst hn
    refine finite_derives_of_has fun y hxy => ih _ ?_ (h.of_has hxy) rfl
    refine Set.ncard_lt_ncard ⟨fun z hz => .head hxy hz, fun hsub => ?_⟩ (finite_reached G w x)
    exact h y (.single hxy) (hsub (.single hxy))

/-- A phrase has finitely many derivations exactly if nothing that is reached from it is a
constituent of itself. -/
theorem finite_derives_iff :
    {t | G.Derives w x.symbol x.lo x.hi t}.Finite ↔ G.Acyclic w x :=
  ⟨acyclic_of_finite, finite_of_acyclic⟩

/-! ### Symbols of constituents -/

lemma Grammar.Splits.symbol_mem {prod : Production} {ss : List Piece}
    (hp : G.prods[p]? = some prod) (h : G.Splits w p dot lo hi ss) (hy : .phrase y ∈ ss) :
    .nonterminal y.symbol ∈ prod.body := by
  induction h with
  | enter => cases hy
  | scan _ _ _ ih => exact ih (by simpa using hy)
  | resume _ hp' hs _ _ ih =>
    rcases List.mem_append.1 hy with hy | hy
    · exact ih hy
    · obtain rfl := Option.some.inj (hp.symm.trans hp')
      cases List.mem_singleton.1 hy
      exact List.mem_of_getElem? hs

/-- A production of a phrase has the symbols of its constituents in the body. -/
lemma Grammar.Has.exists_prod (h : G.Has w x y) :
    ∃ prod ∈ G.prods, prod.head = x.symbol ∧ .nonterminal y.symbol ∈ prod.body := by
  obtain ⟨r, ⟨prod, ss, hp, hhead, hss, hr⟩, hy⟩ := h
  refine ⟨prod, List.mem_of_getElem? hp, hhead, hss.symbol_mem hp ?_⟩
  rw [hr] at hy
  cases ss with
  | nil => simp [Piece.sequenceOf] at hy
  | cons s ss => exact hy

end ParseForest
