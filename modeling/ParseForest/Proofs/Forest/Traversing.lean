import ParseForest.Proofs.Forest.Linking
import ParseForest.Proofs.Forest.WellFormed
import Mathlib.Order.Filter.AtTopBot.Basic
import Mathlib.Order.Filter.Finite

/-!
# Traversals of forests

A traversal goes below a nonterminal only if it is not below it already. `Traverses` says what it
meets without a bound on how deep it goes: such a traversal ends, and it is the one that the bound
allows for, `Sound.traverses_iff`. It reports a cycle exactly if the graph of the forest has one,
and that is the case exactly if the input has infinitely many permitted derivations,
`cycle_mem_traverse_iff`.
-/

namespace ParseForest

open Relation

namespace Forest

/-- What a traversal from a node meets while the nodes `entered` are entered and not yet left. -/
inductive Traverses (F : Forest) : (entered : List Nat) → (id : Nat) → List Callback → Prop where
  | token {entered : List Nat} {id index : Nat} {t : Token}
      (hm : F.nodes[id]? = some (.token index t)) : Traverses F entered id [.token index t]
  | epsilon {entered : List Nat} {id position : Nat}
      (hm : F.nodes[id]? = some (.epsilon position)) : Traverses F entered id [.epsilon position]
  /-- A nonterminal that is met below itself. -/
  | cycle {entered : List Nat} {id lo hi : Nat} {n : NonTerminal} {ambiguous : Bool}
      {children : List Nat} (hm : F.nodes[id]? = some (.nonterminal n lo hi ambiguous children))
      (hid : id ∈ entered) : Traverses F entered id [.cycle n lo hi]
  | enter {entered : List Nat} {id lo hi : Nat} {n : NonTerminal} {ambiguous : Bool}
      {children : List Nat} {met : Nat → List Callback}
      (hm : F.nodes[id]? = some (.nonterminal n lo hi ambiguous children)) (hid : id ∉ entered)
      (h : ∀ j ∈ children, Traverses F (id :: entered) j (met j)) :
      Traverses F entered id (.enter n lo hi :: (children.flatMap met ++ [.exit n lo hi]))
  | alternative {entered : List Nat} {id p lo hi : Nat} {n : NonTerminal} {children : List Nat}
      {met : Nat → List Callback} (hm : F.nodes[id]? = some (.alternative n p lo hi children))
      (h : ∀ j ∈ children, Traverses F entered j (met j)) :
      Traverses F entered id
        (.enterAlternative n p lo hi :: (children.flatMap met ++ [.exitAlternative n p lo hi]))

variable {P : Parsing} {F : Forest} {entered : List Nat} {id i j : Nat} {met met' : List Callback}

/-! ### Traversals end -/

/-- What holds of the successors of high enough bounds holds of high enough bounds. -/
lemma eventually_of_succ {Q : Nat → Prop} (h : ∀ᶠ bound in Filter.atTop, Q (bound + 1)) :
    ∀ᶠ bound in Filter.atTop, Q bound := by
  rw [← Filter.map_add_atTop_eq_nat 1]
  exact h

/-- A bound that is high enough allows for the whole traversal. -/
lemma Traverses.exists_bound (h : F.Traverses entered id met) :
    ∀ᶠ bound in Filter.atTop, F.traverseFrom bound entered id = met := by
  have below : ∀ {entered : List Nat} {children : List Nat} {met : Nat → List Callback},
      (∀ j ∈ children, ∀ᶠ bound in Filter.atTop, F.traverseFrom bound entered j = met j) →
      ∀ᶠ bound in Filter.atTop,
        children.flatMap (F.traverseFrom bound entered) = children.flatMap met := fun ih =>
    ((Filter.eventually_all_finite (List.finite_toSet _)).2 ih).mono fun _ => List.flatMap_congr
  induction h with
  | token hm => exact eventually_of_succ (.of_forall fun bound => by simp only [traverseFrom, hm])
  | epsilon hm => exact eventually_of_succ (.of_forall fun bound => by simp only [traverseFrom, hm])
  | cycle hm hid =>
    exact eventually_of_succ (.of_forall fun bound => by simp only [traverseFrom, hm, if_pos hid])
  | enter hm hid _ ih =>
    refine eventually_of_succ ((below ih).mono fun bound hbelow => ?_)
    simp only [traverseFrom, hm, if_neg hid, hbelow]
  | alternative hm _ ih =>
    refine eventually_of_succ ((below ih).mono fun bound hbelow => ?_)
    simp only [traverseFrom, hm, hbelow]

/-- There is at most one traversal from a node. -/
theorem Traverses.unique (h : F.Traverses entered id met) (h' : F.Traverses entered id met') :
    met = met' := by
  obtain ⟨bound, hmet, hmet'⟩ := (h.exists_bound.and h'.exists_bound).exists
  exact hmet.symm.trans hmet'

/-- How many nodes are not entered. -/
def unentered (F : Forest) (entered : List Nat) : Nat :=
  (Finset.range F.nodes.size \ entered.toFinset).card

lemma unentered_cons (hid : id < F.nodes.size) (hnew : id ∉ entered) :
    F.unentered (id :: entered) + 1 = F.unentered entered := by
  have hmem : id ∈ Finset.range F.nodes.size \ entered.toFinset := by simp [hid, hnew]
  rw [unentered, unentered, List.toFinset_cons, Finset.sdiff_insert]
  exact Finset.card_erase_add_one hmem

/-- The children of a node are nodes. -/
lemma Sound.child_lt (h : F.Sound P) (hc : F.Child i j) : j < F.nodes.size := by
  obtain ⟨x, -, ⟨y, hy, -⟩ | ⟨s, hs⟩ | ⟨-, p, hp⟩⟩ := h.child_cases hc
  · obtain ⟨kind, hk, -⟩ := Option.bind_eq_some_iff.1 hy
    exact lt_size_of_kindAt hk
  · exact lt_size_of_kindAt hs
  · exact lt_size_of_kindAt hp

/-- The bound that a traversal from a node needs: each node that is not entered counts twice, for
itself and for one of its alternatives. -/
def need (F : Forest) (entered : List Nat) (id : Nat) : Nat :=
  2 * F.unentered entered + if F.nodes[id]?.any ForestNode.isAlternative then 2 else 1

lemma need_le (F : Forest) (entered : List Nat) (id : Nat) :
    F.need entered id ≤ 2 * F.unentered entered + 2 := by
  unfold need
  split <;> omega

/-- An alternative is not a child of an alternative. -/
lemma Sound.need_lt (h : F.Sound P) {n : NonTerminal} {p lo hi : Nat} {children : List Nat}
    (hm : F.nodes[i]? = some (.alternative n p lo hi children)) (hj : j ∈ children) :
    F.need entered j < F.need entered i := by
  have hno : F.nodes[j]?.any ForestNode.isAlternative = false := by
    rw [Bool.eq_false_iff]
    intro halt
    obtain ⟨m, hm', hm''⟩ := (Option.any_eq_true _ _).1 halt
    cases m with
    | alternative n' p' lo' hi' ids =>
      have hamb := h.ambiguous_of_child (kindAt_eq hm') ⟨_, hm, hj⟩
      rw [kindAt_eq hm] at hamb
      cases hamb
    | _ => cases hm''
  simp [need, hno, hm, ForestNode.isAlternative]

/-- A high enough bound allows for a whole traversal. -/
lemma Sound.traverses_of_need_le (h : F.Sound P) {bound : Nat} (hid : id < F.nodes.size)
    (hbound : F.need entered id ≤ bound) :
    F.Traverses entered id (F.traverseFrom bound entered id) := by
  induction bound generalizing entered id with
  | zero =>
    unfold need at hbound
    split at hbound <;> omega
  | succ bound ih =>
    have hm : F.nodes[id]? = some F.nodes[id] := Array.getElem?_eq_getElem hid
    generalize F.nodes[id] = m at hm
    cases m with
    | token index t =>
      simp only [traverseFrom, hm]
      exact .token hm
    | epsilon position =>
      simp only [traverseFrom, hm]
      exact .epsilon hm
    | nonterminal n lo hi ambiguous children =>
      simp only [traverseFrom, hm]
      split
      · next hmem => exact .cycle hm hmem
      · next hnew =>
        refine .enter hm hnew fun j hj => ih (h.child_lt ⟨_, hm, hj⟩) ?_
        have hle := F.need_le (id :: entered) j
        have hcons := unentered_cons hid hnew
        simp only [need, hm, Option.any_some, ForestNode.isAlternative, Bool.false_eq_true,
          if_false] at hbound
        omega
    | alternative n p lo hi children =>
      simp only [traverseFrom, hm]
      refine .alternative hm fun j hj => ih (h.child_lt ⟨_, hm, hj⟩) ?_
      have hlt : F.need entered j < F.need entered id := h.need_lt hm hj
      omega

/-- A traversal from the root ends, and the bound is high enough for it. -/
theorem Sound.traverses_iff (h : F.Sound P) :
    F.Traverses [] F.root met ↔ met = F.traverse := by
  have hroot : F.root < F.nodes.size := by
    obtain ⟨kind, hk, -⟩ := Option.bind_eq_some_iff.1 h.root
    exact lt_size_of_kindAt hk
  have hneed : F.need [] F.root ≤ 2 * F.nodes.size + 2 := by
    simpa [unentered] using F.need_le [] F.root
  have htraverse : F.Traverses [] F.root F.traverse := h.traverses_of_need_le hroot hneed
  constructor
  · exact fun hmet => hmet.unique htraverse
  · rintro rfl
    exact htraverse

/-! ### Cycles -/

/-- A cycle that is reported is one of the graph. -/
lemma Traverses.not_acyclic (h : F.Traverses entered id met)
    (hentered : ∀ i ∈ entered, TransGen F.Child i id) {n : NonTerminal} {lo hi : Nat}
    (hc : .cycle n lo hi ∈ met) : ¬ F.Acyclic := by
  induction h with
  | token => simp at hc
  | epsilon => simp at hc
  | cycle _ hid => exact fun hac => hac _ (hentered _ hid)
  | @enter entered id _ _ _ _ children met hm _ _ ih =>
    obtain ⟨j, hj, hc⟩ : ∃ j ∈ children, .cycle n lo hi ∈ met j := by simpa using hc
    have hchild := (child_iff_mem hm).2 hj
    refine ih j hj (fun i hi => ?_) hc
    rcases List.mem_cons.1 hi with rfl | hi
    · exact .single hchild
    · exact (hentered i hi).tail hchild
  | @alternative entered id _ _ _ _ children met hm _ ih =>
    obtain ⟨j, hj, hc⟩ : ∃ j ∈ children, .cycle n lo hi ∈ met j := by simpa using hc
    exact ih j hj (fun i hi => (hentered i hi).tail ((child_iff_mem hm).2 hj)) hc

/-- A traversal that reports no cycle goes through all that is below the node. -/
lemma Traverses.acc (h : F.Traverses entered id met) (hno : ∀ n lo hi, .cycle n lo hi ∉ met) :
    Acc (fun j i => F.Child i j) id := by
  induction h with
  | token hm => exact .intro _ fun j hc => nomatch (child_iff_mem hm).1 hc
  | epsilon hm => exact .intro _ fun j hc => nomatch (child_iff_mem hm).1 hc
  | cycle => exact absurd List.mem_cons_self (hno _ _ _)
  | enter hm _ _ ih =>
    refine .intro _ fun j hc => ?_
    have hj := (child_iff_mem hm).1 hc
    refine ih j hj fun n lo hi hmem => hno n lo hi ?_
    exact List.mem_cons_of_mem _ (List.mem_append_left _ (List.mem_flatMap.2 ⟨j, hj, hmem⟩))
  | alternative hm _ ih =>
    refine .intro _ fun j hc => ?_
    have hj := (child_iff_mem hm).1 hc
    refine ih j hj fun n lo hi hmem => hno n lo hi ?_
    exact List.mem_cons_of_mem _ (List.mem_append_left _ (List.mem_flatMap.2 ⟨j, hj, hmem⟩))

/-- Nothing that is reached from a node below which all paths end is reached from itself. -/
lemma not_transGen_of_acc (h : Acc (fun j i => F.Child i j) id)
    (hi : ReflTransGen F.Child id i) : ¬ TransGen F.Child i i := by
  have hacc : Acc (fun j i => F.Child i j) i := by
    induction hi with
    | refl => exact h
    | tail _ hc ih => exact ih.inv hc
  clear h hi
  induction hacc with
  | intro i _ ih =>
    intro hii
    obtain ⟨j, hc, hp⟩ := TransGen.head'_iff.1 hii
    exact ih j hc (.tail' hp hc)

end Forest

/-- The traversal of a finished forest reports a cycle exactly if its graph has one. -/
theorem Parsing.Builds.cycle_mem_iff {P : Parsing} {F : Forest} {w : Walk} {b : ForestBuilder}
    {th : Nat → Thread} (hP : P.Complete) (h : P.Builds F w b th) :
    (∃ n lo hi, .cycle n lo hi ∈ F.traverse) ↔ ¬ F.Acyclic := by
  have htraverse : F.Traverses [] F.root F.traverse := (h.sound hP).traverses_iff.2 rfl
  constructor
  · rintro ⟨n, lo, hi, hc⟩
    exact htraverse.not_acyclic (by simp) hc
  · intro hcyclic
    by_contra hno
    refine hcyclic fun i hii => ?_
    have hacc := htraverse.acc fun n lo hi hc => hno ⟨n, lo, hi, hc⟩
    obtain ⟨j, ⟨m, hm, -⟩, -⟩ := TransGen.head'_iff.1 hii
    obtain ⟨hlt, -⟩ := Array.getElem?_eq_some_iff.1 hm
    exact Forest.not_transGen_of_acc hacc ((h.wellFormed hP).reached i hlt) hii

/-- The traversal of the forest of an input ends, and it reports a cycle exactly if the input has
infinitely many permitted derivations. -/
theorem cycle_mem_traverse_iff_infinite {G : Grammar} {tokens : List Token} {start : NonTerminal}
    {rules : List RuleDecl} (hG : Grammar.build start rules = .ok G) {P : Parsing}
    (hP : (G.recognize tokens).result = .ok P) :
    ∃ F, P.forest = .ok F ∧ (∀ met, F.Traverses [] F.root met ↔ met = F.traverse) ∧
      ((∃ n lo hi, .cycle n lo hi ∈ F.traverse) ↔
        {t | G.Derives tokens G.start 0 tokens.length t}.Infinite) := by
  obtain ⟨rfl, rfl, hc⟩ := complete_of_recognize (Grammar.closed_of_build hG) hP
  obtain ⟨F, w, b, th, hF⟩ := hc.exists_builds
  refine ⟨F, hF.forest, fun met => (hF.sound hc).traverses_iff, ?_⟩
  rw [hF.cycle_mem_iff hc, hF.acyclic_iff hc, Set.Infinite, not_iff_not]
  exact (finite_derives_iff (x := P.whole)).symm

/-- In the cyclic grammar a token has infinitely many derivations, as the traversal of its forest
meets the phrase of the token below itself. -/
theorem cycle_mem_traverse_iff_infinite_cyclic :
    Grammar.build ⟨"A"⟩ [Samples.rule "A" [[Samples.nt "A"], [Samples.tm "a"]]]
        = .ok Samples.cyclic ∧
      ∃ P F, (Samples.cyclic.recognize [.plain "a"]).result = .ok P ∧ P.forest = .ok F ∧
        .cycle ⟨"A"⟩ 0 1 ∈ F.traverse ∧
        {t | Samples.cyclic.Derives [.plain "a"] ⟨"A"⟩ 0 1 t}.Infinite := by
  have hbuild : Grammar.build ⟨"A"⟩ [Samples.rule "A" [[Samples.nt "A"], [Samples.tm "a"]]]
      = .ok Samples.cyclic := rfl
  have hrun : ((Samples.cyclic.recognize [.plain "a"]).result.toOption.any fun P =>
      P.forest.toOption.any fun F => F.traverse.contains (.cycle ⟨"A"⟩ 0 1)) = true := by
    decide +kernel
  cases hP : (Samples.cyclic.recognize [.plain "a"]).result with
  | error e => simp [hP, Except.toOption] at hrun
  | ok P =>
    obtain ⟨F, hF, -, hcycle⟩ := cycle_mem_traverse_iff_infinite hbuild hP
    have hmem : .cycle ⟨"A"⟩ 0 1 ∈ F.traverse := by
      simpa [hP, hF, Except.toOption] using hrun
    exact ⟨hbuild, P, F, rfl, hF, hmem, hcycle.1 ⟨_, _, _, hmem⟩⟩

end ParseForest
