import ParseForest.Parser
import ParseForest.Proofs.Forest.Traversing
import ParseForest.Proofs.Forest.Unfolding
import Mathlib.Data.Set.Card

/-!
# Counting the trees of a forest

A forest packs as many trees as there are choices of alternatives: an ambiguous node has those of
each of its alternatives, and any other node those of its children, all combined. If the graph of
the forest has no cycles, this is the number of the permitted derivations of the input,
`Grammar.exists_count`.
-/

namespace ParseForest

open Relation

namespace Forest

variable (F : Forest)

/-- The number of trees below a node. A path without a repeated node has at most `bound` nodes. -/
def countFrom : (bound : Nat) → (id : Nat) → Nat
  | 0, _ => 0
  | bound + 1, id =>
    match F.nodes[id]? with
    | none => 0
    | some m =>
      if m.isAmbiguous then
        (m.children.map (countFrom bound)).sum
      else
        (m.children.map (countFrom bound)).prod

/-- The number of trees that are packed in the forest. -/
def count : Nat :=
  F.countFrom F.nodes.size F.root

end Forest

/-! ### Sums and products -/

section Sets

variable {α β γ : Type} {R : α → β → Prop} {l : List α} {c : α → Nat}

/-- What is made of two parts, and of no others, is counted by a product. -/
lemma encard_combine {f : α → β → γ} {s : Set α} {t : Set β}
    (hinj : ∀ a ∈ s, ∀ b ∈ t, ∀ a' ∈ s, ∀ b' ∈ t, f a b = f a' b' → a = a' ∧ b = b') :
    {z | ∃ a ∈ s, ∃ b ∈ t, f a b = z}.encard = s.encard * t.encard := by
  have himage : {z | ∃ a ∈ s, ∃ b ∈ t, f a b = z} = (fun p : α × β => f p.1 p.2) '' s ×ˢ t := by
    ext z
    simp
  have hinjOn : (s ×ˢ t).InjOn fun p : α × β => f p.1 p.2 := by
    rintro ⟨a, b⟩ ⟨ha, hb⟩ ⟨a', b'⟩ ⟨ha', hb'⟩ heq
    obtain ⟨rfl, rfl⟩ := hinj a ha b hb a' ha' b' hb' heq
    rfl
  rw [himage, hinjOn.encard_image, Set.encard_prod]

/-- The lists of related elements are combinations of these. -/
lemma encard_forall₂ (h : ∀ a ∈ l, {b | R a b}.encard = c a) :
    {bs | List.Forall₂ R l bs}.encard = (l.map c).prod := by
  induction l with
  | nil =>
    have hnil : {bs | List.Forall₂ R [] bs} = {[]} := by
      ext bs
      simp
    rw [hnil, Set.encard_singleton, List.map_nil, List.prod_nil, Nat.cast_one]
  | cons a l ih =>
    have hcons : {bs | List.Forall₂ R (a :: l) bs} =
        {z | ∃ b ∈ {b | R a b}, ∃ bs ∈ {bs | List.Forall₂ R l bs}, b :: bs = z} := by
      ext bs
      simp only [List.forall₂_cons_left_iff, Set.mem_ofPred_eq, eq_comm]
      exact exists_congr fun b => by simp
    rw [hcons, encard_combine fun b _ bs _ b' _ bs' _ heq => List.cons.inj heq,
      h a List.mem_cons_self, ih fun b hb => h b (List.mem_cons_of_mem _ hb), List.map_cons,
      List.prod_cons, Nat.cast_mul]

/-- What is related to one element of a list only is counted by a sum. -/
lemma encard_exists_mem (hl : l.Nodup) (h : ∀ a ∈ l, {b | R a b}.encard = c a)
    (hunique : ∀ a ∈ l, ∀ a' ∈ l, ∀ b, R a b → R a' b → a = a') :
    {b | ∃ a ∈ l, R a b}.encard = (l.map c).sum := by
  induction l with
  | nil => simp
  | cons a l ih =>
    obtain ⟨ha, hl⟩ := List.nodup_cons.1 hl
    have hcons : {b | ∃ a' ∈ a :: l, R a' b} = {b | R a b} ∪ {b | ∃ a' ∈ l, R a' b} := by
      ext b
      simp
    have hdisjoint : Disjoint {b | R a b} {b | ∃ a' ∈ l, R a' b} := by
      rw [Set.disjoint_left]
      rintro b hb ⟨a', ha', hb'⟩
      obtain rfl := hunique a List.mem_cons_self a' (List.mem_cons_of_mem _ ha') b hb hb'
      exact ha ha'
    have ih := ih hl (fun b hb => h b (List.mem_cons_of_mem _ hb)) fun b hb b' hb' =>
      hunique b (List.mem_cons_of_mem _ hb) b' (List.mem_cons_of_mem _ hb')
    rw [hcons, Set.encard_union_eq hdisjoint, h a List.mem_cons_self, ih, List.map_cons,
      List.sum_cons, Nat.cast_add]

/-- What belongs to each other one to one is the same in number. -/
lemma encard_eq_of_existsUnique {s : Set α} {t : Set β} (h : ∀ a ∈ s, ∃! b, b ∈ t ∧ R a b)
    (h' : ∀ b ∈ t, ∃! a, a ∈ s ∧ R a b) : s.encard = t.encard := by
  choose f hf hunique using h
  refine Set.encard_congr (.ofBijective (fun a => ⟨f a a.2, (hf a a.2).1⟩) ⟨?_, ?_⟩)
  · rintro ⟨a, ha⟩ ⟨a', ha'⟩ heq
    have heq : f a ha = f a' ha' := Subtype.ext_iff.1 heq
    exact Subtype.ext ((h' _ (hf a ha).1).unique ⟨ha, (hf a ha).2⟩ ⟨ha', heq ▸ (hf a' ha').2⟩)
  · rintro ⟨b, hb⟩
    obtain ⟨a, ⟨ha, hab⟩, -⟩ := h' b hb
    exact ⟨⟨a, ha⟩, Subtype.ext (hunique a ha b ⟨hb, hab⟩).symm⟩

end Sets

variable {P : Parsing} {F : Forest} {i j bound : Nat} {entered : List Nat} {m : ForestNode}
  {u : Unfolding} {s : Piece}

namespace Forest

/-! ### Ways to unfold -/

/-- Unfolding a node that is not ambiguous means to unfold its children. -/
lemma unfolds_iff_of_not_ambiguous (hm : F.nodes[i]? = some m) (hamb : m.isAmbiguous = false)
    (halt : m.isAlternative = false) :
    F.Unfolds i u ↔ ∃ us, List.Forall₂ F.Unfolds m.children us ∧ .node i none us = u := by
  constructor
  · intro h
    cases h with
    | token hm' | epsilon hm' =>
      cases hm.symm.trans hm'
      exact ⟨[], .nil, rfl⟩
    | plain hm' h =>
      cases hm.symm.trans hm'
      exact ⟨_, h, rfl⟩
    | ambiguous hm' =>
      cases hm.symm.trans hm'
      cases hamb
  · rintro ⟨us, h, rfl⟩
    cases m with
    | token =>
      cases h
      exact .token hm
    | epsilon =>
      cases h
      exact .epsilon hm
    | nonterminal n lo hi ambiguous children =>
      obtain rfl : ambiguous = false := hamb
      exact .plain hm h
    | alternative => cases halt

lemma encard_unfolds_of_not_ambiguous (hm : F.nodes[i]? = some m) (hamb : m.isAmbiguous = false)
    (halt : m.isAlternative = false) :
    {u | F.Unfolds i u}.encard = {us | List.Forall₂ F.Unfolds m.children us}.encard := by
  have hinj : (Unfolding.node i none).Injective := fun us us' heq => (Unfolding.node.inj heq).2.2
  simp only [unfolds_iff_of_not_ambiguous hm hamb halt]
  exact hinj.encard_image _

/-- The children of an ambiguous node are different alternatives. -/
lemma Sound.alternatives (h : F.Sound P) (hm : F.nodes[i]? = some m)
    (hamb : m.isAmbiguous = true) :
    m.children.Nodup ∧ ∀ j ∈ m.children, ∃ x p, kindAt F.nodes i = some (.ambiguous x) ∧
      kindAt F.nodes j = some (.alternative x p) := by
  cases m with
  | nonterminal n lo hi ambiguous children =>
    obtain rfl : ambiguous = true := hamb
    obtain ⟨th, vis, hset⟩ := h.settled
    obtain ⟨hk, rfl⟩ := kindAt_of_ambiguous hm
    obtain ⟨hnodup, halternatives⟩ := hset.alternatives i _ hk
    refine ⟨hnodup, fun j hj => ?_⟩
    obtain ⟨p, hp⟩ := halternatives j hj
    exact ⟨_, p, hk, hp⟩
  | token | epsilon | alternative => cases hamb

/-- Unfolding an ambiguous node means to choose an alternative and to unfold its children. -/
lemma Sound.unfolds_iff_of_ambiguous (h : F.Sound P) (hm : F.nodes[i]? = some m)
    (hamb : m.isAmbiguous = true) :
    F.Unfolds i u ↔ ∃ j ∈ m.children, ∃ us, List.Forall₂ F.Unfolds (childrenAt F.nodes j) us ∧
      .node i (some j) us = u := by
  constructor
  · intro hu
    cases hu with
    | token hm' | epsilon hm' | plain hm' =>
      cases hm.symm.trans hm'
      cases hamb
    | ambiguous hm' hj ha hus =>
      cases hm.symm.trans hm'
      exact ⟨_, hj, _, (childrenAt_eq ha).symm ▸ hus, rfl⟩
  · rintro ⟨j, hj, us, hus, rfl⟩
    obtain ⟨x, p, hk, hp⟩ := (h.alternatives hm hamb).2 j hj
    rw [← childrenAt_eq hm] at hj
    exact .ambiguous (kindAt_eq_ambiguous_iff.1 hk) hj (kindAt_eq_alternative_iff.1 hp) hus

/-- The children of ambiguous nodes are alternatives, and no other children are. -/
lemma Sound.isAlternative_child (h : F.Sound P) {m' : ForestNode} (hm : F.nodes[i]? = some m)
    (hm' : F.nodes[j]? = some m') (hj : j ∈ m.children) : m'.isAlternative = m.isAmbiguous := by
  cases hamb : m.isAmbiguous with
  | true =>
    obtain ⟨x, p, -, hp⟩ := (h.alternatives hm hamb).2 j hj
    cases hm'.symm.trans (kindAt_eq_alternative_iff.1 hp)
    rfl
  | false =>
    cases m' with
    | alternative n p lo hi children =>
      have hk := h.ambiguous_of_child (kindAt_eq hm') ⟨m, hm, hj⟩
      cases hm.symm.trans (kindAt_eq_ambiguous_iff.1 hk)
      cases hamb
    | token | epsilon | nonterminal => rfl

/-! ### Counting -/

/-- What is counted at a node are the ways to unfold it, and at an alternative those to unfold its
children. -/
lemma Sound.encard_unfolds_aux (h : F.Sound P) (hac : F.Acyclic) (hm : F.nodes[i]? = some m)
    (hentered : ∀ j ∈ entered, TransGen F.Child j i) (hbound : F.unentered entered ≤ bound) :
    (m.isAmbiguous = true → {u | F.Unfolds i u}.encard = F.countFrom bound i) ∧
      (m.isAmbiguous = false →
        {us | List.Forall₂ F.Unfolds m.children us}.encard = F.countFrom bound i) := by
  induction bound generalizing entered i m with
  | zero =>
    have hcons := unentered_cons (Array.getElem?_eq_some_iff.1 hm).1 fun hi => hac i (hentered i hi)
    omega
  | succ bound ih =>
    have hcons := unentered_cons (Array.getElem?_eq_some_iff.1 hm).1 fun hi => hac i (hentered i hi)
    -- A path that goes on to a child has entered the node.
    have hchild : ∀ j ∈ m.children, ∃ m', F.nodes[j]? = some m' ∧
        (m'.isAmbiguous = true → {u | F.Unfolds j u}.encard = F.countFrom bound j) ∧
        (m'.isAmbiguous = false →
          {us | List.Forall₂ F.Unfolds m'.children us}.encard = F.countFrom bound j) := by
      intro j hj
      have hc : F.Child i j := ⟨m, hm, hj⟩
      have hm' := Array.getElem?_eq_getElem (h.child_lt hc)
      have hentered' : ∀ k ∈ i :: entered, TransGen F.Child k j := by
        intro k hk
        rcases List.mem_cons.1 hk with rfl | hk
        · exact .single hc
        · exact (hentered k hk).tail hc
      exact ⟨_, hm', ih hm' hentered' (by omega)⟩
    constructor
    · intro hamb
      have halternatives : ∀ j ∈ m.children,
          {u | ∃ us, List.Forall₂ F.Unfolds (childrenAt F.nodes j) us ∧
            Unfolding.node i (some j) us = u}.encard = F.countFrom bound j := by
        intro j hj
        obtain ⟨m', hm', -, hbelow⟩ := hchild j hj
        have halt := (h.isAlternative_child hm hm' hj).trans hamb
        have hinj : (Unfolding.node i (some j)).Injective := fun us us' heq =>
          (Unfolding.node.inj heq).2.2
        rw [← hbelow (by cases m' <;> first | rfl | cases halt), ← childrenAt_eq hm']
        exact hinj.encard_image _
      rw [countFrom, hm]
      simp only [hamb, if_true]
      rw [← encard_exists_mem (h.alternatives hm hamb).1 halternatives]
      · simp only [h.unfolds_iff_of_ambiguous hm hamb]
      · rintro j - j' - u ⟨us, -, rfl⟩ ⟨us', -, heq⟩
        exact (Option.some.inj (Unfolding.node.inj heq).2.1).symm
    · intro hamb
      rw [countFrom, hm]
      simp only [hamb, Bool.false_eq_true, if_false]
      refine encard_forall₂ fun j hj => ?_
      obtain ⟨m', hm', hchoice, hbelow⟩ := hchild j hj
      cases hamb' : m'.isAmbiguous with
      | true => exact hchoice hamb'
      | false =>
        have halt := (h.isAlternative_child hm hm' hj).trans hamb
        rw [encard_unfolds_of_not_ambiguous hm' hamb' halt, hbelow hamb']

/-- The number of trees of a forest without cycles is that of the ways to unfold its root. -/
lemma Sound.encard_unfolds (h : F.Sound P) (hac : F.Acyclic) :
    {u | F.Unfolds F.root u}.encard = F.count := by
  obtain ⟨kind, hk, hroot⟩ := Option.bind_eq_some_iff.1 h.root
  obtain ⟨m, hm, rfl⟩ := Option.map_eq_some_iff.1 hk
  have hnone : ∀ j ∈ [], TransGen F.Child j F.root := by simp
  have hbound : F.unentered [] ≤ F.nodes.size := by simp [unentered]
  obtain ⟨hchoice, hbelow⟩ := h.encard_unfolds_aux hac hm hnone hbound
  cases hamb : m.isAmbiguous with
  | true => exact hchoice hamb
  | false =>
    have halt : m.isAlternative = false := by
      cases m with
      | alternative => cases hroot
      | token | epsilon | nonterminal => rfl
    rw [encard_unfolds_of_not_ambiguous hm hamb halt, hbelow hamb, count]

/-- The number of trees of a forest that packs all readings is that of the derivations. -/
lemma Packed.encard_derives (h : F.Packed P) (hac : F.Acyclic) :
    {t | P.grammar.Derives P.tokens P.grammar.start 0 P.tokens.length t}.encard = F.count := by
  rw [← h.encard_unfolds hac]
  refine encard_eq_of_existsUnique (R := fun t u => F.Shows u t) (fun t ht => ?_) fun u hu => ?_
  · exact h.existsUnique_unfolding h.root (.phrase ht)
  · obtain ⟨t, ⟨ht, hs⟩, hunique⟩ := h.existsUnique_derivation h.root hu
    cases ht with
    | phrase ht => exact ⟨t, ⟨ht, hs⟩, fun t' ht' => hunique t' ⟨.phrase ht'.1, ht'.2⟩⟩

end Forest

/-- If an input has permitted derivations, but finitely many, its forest is built and packs as many
trees. -/
theorem Grammar.exists_count {G : Grammar} {tokens : List Token} (hG : G.Closed) {n : Nat}
    (hn : n ≠ 0) (hcount : {t | G.Derives tokens G.start 0 tokens.length t}.encard = n) :
    ∃ F, G.parseForest tokens = .ok F ∧ F.count = n := by
  have hacc : {t | G.Derives tokens G.start 0 tokens.length t}.Nonempty :=
    Set.nonempty_of_encard_ne_zero (by rw [hcount]; exact_mod_cast hn)
  have hfinite : {t | G.Derives tokens G.start 0 tokens.length t}.Finite :=
    Set.finite_of_encard_eq_coe hcount
  obtain ⟨P, hP⟩ := exists_recognize_of_accepts hG hacc
  obtain ⟨rfl, rfl, hc⟩ := complete_of_recognize hG hP
  have hac : P.grammar.Acyclic P.tokens P.whole := acyclic_of_finite hfinite
  obtain ⟨F, w, b, th, hF⟩ := hc.exists_builds
  have hpacked : F.Packed P := hF.packed hc (hc.neverOverwrites_of_acyclic hac)
  refine ⟨F, ?_, ?_⟩
  · simp only [parseForest, hP, hF.forest]
  · rw [hpacked.encard_derives (hpacked.acyclic hac)] at hcount
    exact_mod_cast hcount

end ParseForest
