import ParseForest.Proofs.Forest.Traversing

/-!
# Visits

A visit of a node keeps a set of marked nodes, which the visits of its children share and change.
Each visit leaves the marks as it has found them, `visitFrom_eq`, so the marked nodes are those that
the visited node is below. The main statement, `visit_nested`, says what this makes of the sequence
of callbacks: nodes are entered and left like brackets, and a cycle is reported exactly where a
nonterminal is met that was entered and not yet left.
-/

namespace ParseForest

/-! ### Brackets -/

/-- A nonterminal or an alternative that was entered. -/
inductive Opening where
  | phrase (x : Phrase)
  | alternative (x : Phrase) (prod : Nat)
deriving DecidableEq

/-- Reading callbacks in their order, with what is entered and not yet left on a stack, the innermost
first. What is left is what was entered last. A nonterminal is entered only if it is not on the
stack, and it is reported as a cycle only if it is. -/
inductive Nests : List Opening → List Callback → List Opening → Prop where
  | nil {s : List Opening} : Nests s [] s
  | token {s s' : List Opening} {cbs : List Callback} {index : Nat} {t : Token}
      (h : Nests s cbs s') : Nests s (.token index t :: cbs) s'
  | epsilon {s s' : List Opening} {cbs : List Callback} {position : Nat} (h : Nests s cbs s') :
      Nests s (.epsilon position :: cbs) s'
  | cycle {s s' : List Opening} {cbs : List Callback} {n : NonTerminal} {lo hi : Nat}
      (hopen : .phrase ⟨n, lo, hi⟩ ∈ s) (h : Nests s cbs s') : Nests s (.cycle n lo hi :: cbs) s'
  | enter {s s' : List Opening} {cbs : List Callback} {n : NonTerminal} {lo hi : Nat}
      (hnew : .phrase ⟨n, lo, hi⟩ ∉ s) (h : Nests (.phrase ⟨n, lo, hi⟩ :: s) cbs s') :
      Nests s (.enter n lo hi :: cbs) s'
  | exit {s s' : List Opening} {cbs : List Callback} {n : NonTerminal} {lo hi : Nat}
      (h : Nests s cbs s') : Nests (.phrase ⟨n, lo, hi⟩ :: s) (.exit n lo hi :: cbs) s'
  | enterAlternative {s s' : List Opening} {cbs : List Callback} {n : NonTerminal} {p lo hi : Nat}
      (h : Nests (.alternative ⟨n, lo, hi⟩ p :: s) cbs s') :
      Nests s (.enterAlternative n p lo hi :: cbs) s'
  | exitAlternative {s s' : List Opening} {cbs : List Callback} {n : NonTerminal} {p lo hi : Nat}
      (h : Nests s cbs s') :
      Nests (.alternative ⟨n, lo, hi⟩ p :: s) (.exitAlternative n p lo hi :: cbs) s'

namespace Nests

variable {s s' s'' : List Opening} {cbs cbs' : List Callback}

lemma append (h : Nests s cbs s') (h' : Nests s' cbs' s'') : Nests s (cbs ++ cbs') s'' := by
  induction h with
  | nil => exact h'
  | token _ ih => exact .token (ih h')
  | epsilon _ ih => exact .epsilon (ih h')
  | cycle hopen _ ih => exact .cycle hopen (ih h')
  | enter hnew _ ih => exact .enter hnew (ih h')
  | exit _ ih => exact .exit (ih h')
  | enterAlternative _ ih => exact .enterAlternative (ih h')
  | exitAlternative _ ih => exact .exitAlternative (ih h')

lemma flatMap {children : List Nat} {met : Nat → List Callback}
    (h : ∀ j ∈ children, Nests s (met j) s) : Nests s (children.flatMap met) s := by
  induction children with
  | nil => exact .nil
  | cons j children ih =>
    obtain ⟨hj, hchildren⟩ := List.forall_mem_cons.1 h
    exact hj.append (ih hchildren)

end Nests

namespace Forest

variable {P : Parsing} {F : Forest} {entered marked : List Nat} {id bound : Nat}
  {met : List Callback}

/-! ### Marks -/

/-- A member that is added to a set and taken out of it again. -/
lemma erase_insert (h : id ∉ marked) : (Ordered.insert id marked).erase id = marked := by
  induction marked with
  | nil => simp [Ordered.insert]
  | cons i marked ih =>
    obtain ⟨hne, hmarked⟩ := List.ne_and_not_mem_of_not_mem_cons h
    rw [Ordered.insert]
    split
    · simp
    · next heq => exact absurd (Std.LawfulEqOrd.eq_of_compare heq) hne
    · rw [List.erase_cons_tail (by simpa using hne.symm), ih hmarked]

/-- Visits that leave the marks as they are can be made on their own. -/
lemma visitAll_eq {visit : List Nat → Nat → List Callback × List Nat} {met : Nat → List Callback}
    {children : List Nat} (h : ∀ j, visit marked j = (met j, marked)) :
    visitAll visit marked children = (children.flatMap met, marked) := by
  induction children with
  | nil => rfl
  | cons j children ih => simp only [visitAll, h j, ih, List.flatMap_cons]

/-- A visit leaves the marks as it has found them, and it meets what a traversal meets below the
marked nodes. -/
theorem visitFrom_eq (F : Forest) (hmarked : ∀ i, i ∈ marked ↔ i ∈ entered) :
    F.visitFrom bound marked id = (F.traverseFrom bound entered id, marked) := by
  induction bound generalizing marked entered id with
  | zero => rfl
  | succ bound ih =>
    cases hm : F.nodes[id]? with
    | none => simp only [visitFrom, traverseFrom, hm]
    | some m =>
      cases m with
      | token => simp only [visitFrom, traverseFrom, hm]
      | epsilon => simp only [visitFrom, traverseFrom, hm]
      | nonterminal n lo hi ambiguous children =>
        simp only [visitFrom, traverseFrom, hm]
        by_cases hid : id ∈ marked
        · rw [if_pos hid, if_pos ((hmarked id).1 hid)]
        · have hinsert (i : Nat) : i ∈ Ordered.insert id marked ↔ i ∈ id :: entered := by
            rw [Ordered.mem_insert, List.mem_cons, hmarked]
          have hbelow : visitAll (F.visitFrom bound) (Ordered.insert id marked) children =
              (children.flatMap (F.traverseFrom bound (id :: entered)), Ordered.insert id marked) :=
            visitAll_eq fun _ => ih hinsert
          rw [if_neg hid, if_neg fun h => hid ((hmarked id).2 h), hbelow, erase_insert hid]
      | alternative n p lo hi children =>
        have hbelow : visitAll (F.visitFrom bound) marked children =
            (children.flatMap (F.traverseFrom bound entered), marked) :=
          visitAll_eq fun _ => ih hmarked
        simp only [visitFrom, traverseFrom, hm, hbelow]

/-! ### What is met is nested -/

/-- The stack holds the nonterminals that are entered. -/
def Holds (F : Forest) (entered : List Nat) (s : List Opening) : Prop :=
  ∀ n lo hi, .phrase ⟨n, lo, hi⟩ ∈ s ↔
    ∃ i ∈ entered, ∃ ambiguous ids, F.nodes[i]? = some (.nonterminal n lo hi ambiguous ids)

lemma Holds.nil (F : Forest) : F.Holds [] [] := by simp [Holds]

lemma Holds.enter {s : List Opening} (h : F.Holds entered s) {n : NonTerminal} {lo hi : Nat}
    {ambiguous : Bool} {ids : List Nat}
    (hm : F.nodes[id]? = some (.nonterminal n lo hi ambiguous ids)) :
    F.Holds (id :: entered) (.phrase ⟨n, lo, hi⟩ :: s) := by
  intro n' lo' hi'
  rw [List.mem_cons, h n' lo' hi', List.exists_mem_cons_iff]
  refine or_congr_left ?_
  simp only [hm, Opening.phrase.injEq, Phrase.mk.injEq, Option.some.injEq,
    ForestNode.nonterminal.injEq]
  constructor
  · rintro ⟨rfl, rfl, rfl⟩
    exact ⟨ambiguous, ids, rfl, rfl, rfl, rfl, rfl⟩
  · rintro ⟨_, _, rfl, rfl, rfl, -⟩
    exact ⟨rfl, rfl, rfl⟩

lemma Holds.alternative {s : List Opening} (h : F.Holds entered s) (x : Phrase) (p : Nat) :
    F.Holds entered (.alternative x p :: s) := by
  intro n lo hi
  rw [← h n lo hi]
  simp

/-- A traversal leaves all that it enters, and below a nonterminal it does not enter it again. -/
lemma WellFormed.nests {G : Grammar} {w : List Token} (hF : F.WellFormed G w)
    (h : F.Traverses entered id met) {s : List Opening} (hs : F.Holds entered s) :
    Nests s met s := by
  induction h generalizing s with
  | token => exact .token .nil
  | epsilon => exact .epsilon .nil
  | cycle hm hid => exact .cycle ((hs _ _ _).2 ⟨_, hid, _, _, hm⟩) .nil
  | enter hm hid _ ih =>
    refine .enter (fun hopen => hid ?_) ?_
    · -- A nonterminal has one node for each range.
      obtain ⟨i, hi, ambiguous', ids', hm'⟩ := (hs _ _ _).1 hopen
      rwa [hF.nonterminal_unique _ _ _ _ _ _ _ _ _ hm hm']
    · exact (Nests.flatMap fun j hj => ih j hj (hs.enter hm)).append (.exit .nil)
  | alternative _ _ ih =>
    refine .enterAlternative ?_
    exact (Nests.flatMap fun j hj => ih j hj (hs.alternative _ _)).append (.exitAlternative .nil)

/-- With a high enough bound a visit of any node ends, whichever nodes are marked. -/
lemma Sound.visitFrom_spec (h : F.Sound P) (hid : id < F.nodes.size)
    (hbound : 2 * F.nodes.size + 2 ≤ bound) :
    ∃ met, F.visitFrom bound marked id = (met, marked) ∧
      ∀ met', F.Traverses marked id met' ↔ met' = met := by
  have hunentered : F.unentered marked ≤ F.nodes.size := by
    simpa [unentered] using Finset.card_le_card
      (Finset.sdiff_subset (s := Finset.range F.nodes.size) (t := marked.toFinset))
  have hneed := F.need_le marked id
  have htraverses : F.Traverses marked id (F.traverseFrom bound marked id) :=
    h.traverses_of_need_le hid (by omega)
  refine ⟨_, F.visitFrom_eq fun _ => Iff.rfl, fun met' => ?_⟩
  constructor
  · exact fun hmet' => hmet'.unique htraverses
  · rintro rfl
    exact htraverses

lemma visit_eq (F : Forest) : F.visit = (F.traverse, []) :=
  F.visitFrom_eq fun _ => Iff.rfl

end Forest

/-- In the forest of an input each visit of a node ends, leaves the marks as it has found them, and
meets exactly what there is below the marked nodes: a nonterminal that is marked is a cycle, and all
else is gone into, wherever it was met before. What is met from the root is nested: each nonterminal
and each alternative that is entered is left in its turn, and a nonterminal is reported as a cycle
exactly where it is entered and not yet left. -/
theorem visit_nested {G : Grammar} {tokens : List Token} {start : NonTerminal}
    {rules : List RuleDecl} (hG : Grammar.build start rules = .ok G) {P : Parsing}
    (hP : (G.recognize tokens).result = .ok P) :
    ∃ F, P.forest = .ok F ∧
      (∀ bound marked id, 2 * F.nodes.size + 2 ≤ bound → id < F.nodes.size →
        ∃ met, F.visitFrom bound marked id = (met, marked) ∧
          ∀ met', F.Traverses marked id met' ↔ met' = met) ∧
      F.Traverses [] F.root F.visit.1 ∧ F.visit.2 = [] ∧ Nests [] F.visit.1 [] := by
  obtain ⟨rfl, rfl, hc⟩ := complete_of_recognize (Grammar.closed_of_build hG) hP
  obtain ⟨F, w, b, th, hF⟩ := hc.exists_builds
  have hsound := hF.sound hc
  have htraverse : F.Traverses [] F.root F.traverse := hsound.traverses_iff.2 rfl
  refine ⟨F, hF.forest, fun bound marked id hbound hid => hsound.visitFrom_spec hid hbound, ?_⟩
  rw [F.visit_eq]
  exact ⟨htraverse, rfl, (hF.wellFormed hc).nests htraverse (.nil F)⟩

/-- In the forest of the cyclic grammar the phrase of the token is met below itself. -/
theorem visit_nested_cyclic :
    Grammar.build ⟨"A"⟩ [Samples.rule "A" [[Samples.nt "A"], [Samples.tm "a"]]]
        = .ok Samples.cyclic ∧
      ∃ P F, (Samples.cyclic.recognize [.plain "a"]).result = .ok P ∧ P.forest = .ok F ∧
        F.visit.2 = [] ∧ Nests [] F.visit.1 [] ∧ .cycle ⟨"A"⟩ 0 1 ∈ F.visit.1 := by
  have hbuild : Grammar.build ⟨"A"⟩ [Samples.rule "A" [[Samples.nt "A"], [Samples.tm "a"]]]
      = .ok Samples.cyclic := rfl
  have hrun : ((Samples.cyclic.recognize [.plain "a"]).result.toOption.any fun P =>
      P.forest.toOption.any fun F => F.visit.1.contains (.cycle ⟨"A"⟩ 0 1)) = true := by
    decide +kernel
  obtain ⟨P, hP, hforest⟩ := any_toOption_iff.1 hrun
  obtain ⟨F, hF, hcycle⟩ := any_toOption_iff.1 hforest
  obtain ⟨F', hF', -, -, hleft, hnests⟩ := visit_nested hbuild hP
  obtain rfl : F = F' := Except.ok.inj (hF.symm.trans hF')
  exact ⟨hbuild, P, F, hP, hF, hleft, hnests, by simpa using hcycle⟩

end ParseForest
