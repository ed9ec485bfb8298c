import ParseForest.Proofs.Tree.Following
import ParseForest.Grammar.Samples
import Mathlib.Logic.ExistsUnique

/-!
# Trees of unambiguous inputs

The builder of trees answers exactly for the inputs with one derivation, and its answer is that
derivation, `tree_ok_iff_existsUnique`. It never faults.
-/

namespace ParseForest

variable {G : Grammar} {w : List Token}

/-! ### The shape of derivations -/

/-- The trees spell the symbols one by one, over contiguous ranges from `lo` to `hi`. -/
def Spells (w : List Token) : List Symbol → (lo hi : Nat) → List Tree → Prop
  | [], lo, hi, [] => lo = hi
  | .terminal k :: body, lo, hi, .token i u :: ts =>
    i = lo ∧ u.kind = k ∧ w[lo]? = some u ∧ Spells w body (lo + 1) hi ts
  | .nonterminal n :: body, lo, hi, .node m _ lo' mid _ :: ts =>
    m = n ∧ lo' = lo ∧ Spells w body mid hi ts
  | _, _, _, _ => False

/-- Each node of the tree is made by a production of its symbol, and its children spell the body of
the production over its range; an empty body is spelled by a leaf that stands for nothing. -/
def Tree.WellFormed (G : Grammar) (w : List Token) (t : Tree) : Prop :=
  ∀ d n p lo hi children, (d, Tree.node n p lo hi children) ∈ t.preorder 0 →
    ∃ prod, G.prods[p]? = some prod ∧ prod.head = n ∧
      if prod.body = [] then lo = hi ∧ children = [.epsilon lo] else Spells w prod.body lo hi children

lemma Spells.append {body body' : List Symbol} {lo mid hi : Nat} {ts us : List Tree}
    (h : Spells w body lo mid ts) (h' : Spells w body' mid hi us) :
    Spells w (body ++ body') lo hi (ts ++ us) := by
  fun_induction Spells w body lo mid ts with
  | case1 => exact h ▸ h'
  | case2 k body lo hi i u ts ih => exact ⟨h.1, h.2.1, h.2.2.1, ih h.2.2.2 h'⟩
  | case3 n body lo hi m p lo' mid children ts ih => exact ⟨h.1, h.2.1, ih h.2.2 h'⟩
  | case4 => exact h.elim

/-- The trees of an item spell the symbols before its dot. -/
lemma Spans.spells {v : Vertex} {lo hi : Nat} {ts : List Tree} (h : Spans G w v lo hi ts) :
    ∀ p dot prod, v = .item p dot → G.prods[p]? = some prod →
      Spells w (prod.body.take dot) lo hi ts := by
  induction h with
  | enter hp hlo =>
    intro p dot prod hv _
    cases hv
    rfl
  | scan h hs ht ih =>
    intro p dot prod hv hp
    cases hv
    rw [Grammar.symbolAt?_eq hp] at hs
    rw [List.take_add_one, hs]
    exact (ih _ _ _ rfl hp).append ⟨rfl, rfl, ht, rfl⟩
  | resume h hp hs hn hc ih ihn =>
    intro p dot prod hv hp'
    cases hv
    obtain rfl := Option.some.inj (hp.symm.trans hp')
    rw [List.take_add_one, hs]
    refine (ih _ _ _ rfl hp).append ?_
    cases hn with
    | exit => exact ⟨rfl, rfl, rfl⟩
  | exit hp h ih =>
    intro p dot prod hv
    cases hv

lemma Tree.preorderList_append (d : Nat) (ts us : List Tree) :
    Tree.preorderList d (ts ++ us) = Tree.preorderList d ts ++ Tree.preorderList d us := by
  induction ts with
  | nil => rfl
  | cons t ts ih => simp [Tree.preorderList, ih]

/-- All nodes of a derivation have the shape of their productions. -/
lemma Spans.wellFormed {v : Vertex} {lo hi : Nat} {ts : List Tree} (h : Spans G w v lo hi ts) :
    ∀ d₀ d n p lo hi children, (d, Tree.node n p lo hi children) ∈ Tree.preorderList d₀ ts →
      ∃ prod, G.prods[p]? = some prod ∧ prod.head = n ∧
        if prod.body = [] then lo = hi ∧ children = [.epsilon lo]
        else Spells w prod.body lo hi children := by
  induction h with
  | enter hp hlo =>
    intro d₀ d n p lo hi children hmem
    simp [Tree.preorderList] at hmem
  | scan h hs ht ih =>
    intro d₀ d n p lo hi children hmem
    rw [Tree.preorderList_append, List.mem_append] at hmem
    rcases hmem with hmem | hmem
    · exact ih _ _ _ _ _ _ _ hmem
    · simp [Tree.preorderList, Tree.preorder] at hmem
  | resume h hp hs hn hc ih ihn =>
    intro d₀ d n p lo hi children hmem
    rw [Tree.preorderList_append, List.mem_append] at hmem
    rcases hmem with hmem | hmem
    · exact ih _ _ _ _ _ _ _ hmem
    · exact ihn _ _ _ _ _ _ _ hmem
  | @exit p lo hi prod ts hp h ih =>
    intro d₀ d n p' lo' hi' children hmem
    simp only [Tree.preorderList, Tree.preorder, List.append_nil, List.mem_cons, Prod.mk.injEq,
      Tree.node.injEq] at hmem
    rcases hmem with ⟨-, rfl, rfl, rfl, rfl, rfl⟩ | hmem
    · refine ⟨prod, hp, rfl, ?_⟩
      have hspell := h.spells _ _ _ rfl hp
      rw [List.take_length] at hspell
      split
      · next hbody =>
        have hlen := h.length_eq _ _ rfl
        rw [hbody] at hspell hlen
        obtain rfl : ts = [] := List.eq_nil_of_length_eq_zero hlen
        exact ⟨hspell, rfl⟩
      · next hbody =>
        cases ts with
        | nil =>
          have hlen := h.length_eq _ _ rfl
          exact absurd (List.eq_nil_of_length_eq_zero hlen.symm) hbody
        | cons t ts => exact hspell
    · cases ts with
      | nil => simp [Tree.childrenOf, Tree.preorderList, Tree.preorder] at hmem
      | cons t ts => exact ih _ _ _ _ _ _ _ hmem

/-! ### The outcome of building -/

/-- A builder either stops at an ambiguity and there are two derivations, or it builds the only
one. -/
lemma Parsing.Complete.tree_run {P : Parsing} (hP : P.Complete) {t : Tree}
    (ht : P.grammar.Derives P.tokens P.grammar.start 0 P.tokens.length t) :
    ((∃ w b ev w' n lo hi,
        Walk.Feeds P.grammar P.chart (TreeBuilder.handle P)
          ⟨some P.accepting, P.tokens.length, [], [], [], 0⟩ .empty w b ∧
        Walk.Moves P.grammar P.chart w ev w' ∧
        b.handle P ev = .error (.ambiguous n lo hi) ∧ P.tree = .error (.ambiguous n lo hi)) ∧
        ∃ t', t' ≠ t ∧ P.grammar.Derives P.tokens P.grammar.start 0 P.tokens.length t') ∨
      (P.tree = .ok t ∧
        ∀ t', P.grammar.Derives P.tokens P.grammar.start 0 P.tokens.length t' → t' = t) := by
  obtain ⟨hstart, hfits⟩ := Walk.startAt_fits (G := P.grammar) hP.accepting
  have hbound := Walk.potential_startAt_le hP hP.accepting
  have hcon : TreeBuilder.Consistent P [] [] [] := ⟨by simp, by simp⟩
  have habove : TreeBuilder.Above P [] t.depth := by simp [TreeBuilder.Above]
  rw [Parsing.tree, Parsing.walk, hstart]
  dsimp only
  rcases TreeBuilder.follows hP ht t rfl [] .empty hP.accepting trivial hcon habove with
    ⟨⟨w', b', ev, w'', n, lo, hi, hfeed, hm, hh⟩, hother⟩ | ⟨huniq, cur, vis', fin', -, hleave⟩
  · obtain ⟨hfits', limit, hlimit, heq⟩ := hfeed.feed_eq hP hfits hbound
    refine Or.inl ⟨⟨w', b', ev, w'', n, lo, hi, hfeed, hm, hh, ?_⟩, hother⟩
    rw [heq, Walk.feed_eq_error hP hfits' hm hh hlimit]
  · obtain ⟨-, limit, -, heq⟩ :=
      (hleave _ (.stop (Nat.le_refl 0))).feed_eq hP hfits hbound
    refine Or.inr ⟨?_, huniq⟩
    rw [heq, Walk.feed_eq_ok rfl]
    rfl

/-- A builder either finds an ambiguity and there are two derivations, or it builds the only one. -/
lemma Parsing.Complete.tree_cases {P : Parsing} (hP : P.Complete) {t : Tree}
    (ht : P.grammar.Derives P.tokens P.grammar.start 0 P.tokens.length t) :
    ((∃ n lo hi, P.tree = .error (.ambiguous n lo hi)) ∧
        ∃ t', t' ≠ t ∧ P.grammar.Derives P.tokens P.grammar.start 0 P.tokens.length t') ∨
      (P.tree = .ok t ∧
        ∀ t', P.grammar.Derives P.tokens P.grammar.start 0 P.tokens.length t' → t' = t) := by
  rcases hP.tree_run ht with ⟨⟨_, _, _, _, n, lo, hi, -, -, -, herr⟩, hother⟩ | hok
  · exact Or.inl ⟨⟨n, lo, hi, herr⟩, hother⟩
  · exact Or.inr hok

/-- A tree is built exactly if the input has one permitted derivation; the tree is then that
derivation, each of its nodes has the shape of its production, and its leaves are the tokens of the
input. Building a tree never faults. -/
theorem tree_ok_iff_existsUnique {start : NonTerminal} {rules : List RuleDecl}
    (hG : Grammar.build start rules = .ok G) {P : Parsing}
    (hP : (G.recognize w).result = .ok P) :
    ((∃ t, P.tree = .ok t) ↔ ∃! t, G.Derives w G.start 0 w.length t) ∧
      (∀ t, P.tree = .ok t →
        G.Derives w G.start 0 w.length t ∧ t.WellFormed G w ∧ t.leaves = w.zipIdx) ∧
      ∀ f, P.tree ≠ .error (.fault f) := by
  obtain ⟨rfl, rfl, hc⟩ := complete_of_recognize (Grammar.closed_of_build hG) hP
  obtain ⟨t, ht⟩ := hc.accepts
  rcases hc.tree_cases ht with ⟨⟨n, lo, hi, herr⟩, t', hne, ht'⟩ | ⟨hok, huniq⟩
  · refine ⟨⟨?_, ?_⟩, ?_, ?_⟩
    · rintro ⟨t₀, ht₀⟩
      rw [herr] at ht₀
      cases ht₀
    · rintro ⟨t₀, -, huniq⟩
      exact absurd ((huniq t' ht').trans (huniq t ht).symm) hne
    · intro t₀ ht₀
      rw [herr] at ht₀
      cases ht₀
    · intro f hf
      rw [herr] at hf
      cases hf
  · refine ⟨⟨fun _ => ⟨t, ht, huniq⟩, fun _ => ⟨t, hok⟩⟩, ?_, ?_⟩
    · intro t₀ ht₀
      rw [hok] at ht₀
      cases ht₀
      refine ⟨ht, fun d n p lo hi children hmem => ?_, ht.leaves_eq⟩
      exact ht.wellFormed 0 d n p lo hi children (by simpa [Tree.preorderList] using hmem)
    · intro f hf
      rw [hok] at hf
      cases hf

/-- Both empty phrases before the token are copies of one subtree. -/
theorem tree_ok_nullablePair :
    Grammar.build ⟨"Ss"⟩ [Samples.rule "Ss" [[Samples.nt "A", Samples.nt "A", Samples.tm "x"]],
        Samples.rule "A" [[]]] = .ok Samples.nullablePair ∧
      ∃ P t, (Samples.nullablePair.recognize [.plain "x"]).result = .ok P ∧ P.tree = .ok t ∧
        (∃! t, Samples.nullablePair.Derives [.plain "x"] ⟨"Ss"⟩ 0 1 t) ∧
        t.leaves = [(.plain "x", 0)] := by
  have hbuild : Grammar.build ⟨"Ss"⟩
      [Samples.rule "Ss" [[Samples.nt "A", Samples.nt "A", Samples.tm "x"]],
        Samples.rule "A" [[]]] = .ok Samples.nullablePair := rfl
  have hrun : ((Samples.nullablePair.recognize [.plain "x"]).result.toOption.bind
      fun P => P.tree.toOption).isSome = true := by decide +kernel
  cases hP : (Samples.nullablePair.recognize [.plain "x"]).result with
  | error e => simp [hP, Except.toOption] at hrun
  | ok P =>
    cases ht : P.tree with
    | error e => simp [hP, ht, Except.toOption] at hrun
    | ok t =>
      have hspec := tree_ok_iff_existsUnique hbuild hP
      exact ⟨hbuild, P, t, rfl, ht, hspec.1.1 ⟨t, ht⟩, (hspec.2.1 t ht).2.2⟩

end ParseForest
