import ParseForest.Proofs.Forest.Alternatives
import ParseForest.Proofs.Forest.Traversing
import ParseForest.Proofs.Forest.Unfolding
import ParseForest.Proofs.Tree.Unique

/-!
# Trees and forests agree

A tree is built exactly if the forest has no alternatives, and then a traversal of the one meets
what a traversal of the other meets, `tree_ok_iff_not_isAmbiguous`. A builder of trees that has not
failed was told nothing that makes alternatives. The other way around, a forest without alternatives
packs all readings, so no phrase has two of them, and there is one derivation.
-/

namespace ParseForest

open Relation

variable {P : Parsing} {F : Forest} {G : Grammar} {w : List Token} {x : Phrase} {r r' : Reading}
  {s : Piece} {t t' : Tree} {i : Nat}

/-- Whether what is met is neither an alternative nor a cycle. -/
def Callback.isBare : Callback → Bool
  | enter _ _ _ => true
  | exit _ _ _ => true
  | token _ _ => true
  | epsilon _ => true
  | enterAlternative _ _ _ _ => false
  | exitAlternative _ _ _ _ => false
  | cycle _ _ _ => false

/-! ### One derivation -/

lemma eq_of_forall₂ {α β : Type} {R : α → β → Prop} {as : List α} {bs bs' : List β}
    (h : List.Forall₂ R as bs) (h' : List.Forall₂ R as bs')
    (hR : ∀ a ∈ as, ∀ b ∈ bs, ∀ b', R a b → R a b' → b = b') : bs = bs' := by
  induction h generalizing bs' with
  | nil =>
    cases h'
    rfl
  | cons hab _ ih =>
    cases h' with
    | cons hab' h' =>
      rw [hR _ List.mem_cons_self _ List.mem_cons_self _ hab hab', ih h' fun a ha b hb =>
        hR a (List.mem_cons_of_mem _ ha) b (List.mem_cons_of_mem _ hb)]

/-- If nothing that is reached from a phrase has two readings, the phrase has no two derivations. -/
lemma derives_unique
    (h : ∀ y r r', ReflTransGen (G.Has w) x y → G.Reads w y r → G.Reads w y r' → r = r')
    (ht : G.Derives w x.symbol x.lo x.hi t) (ht' : G.Derives w x.symbol x.lo x.hi t') : t = t' := by
  induction hd : t.depth using Nat.strongRecOn generalizing x t t' with
  | _ d ih =>
    subst hd
    obtain ⟨r, ts, rfl, hr, hts⟩ := derives_iff.1 ht
    obtain ⟨r', ts', rfl, hr', hts'⟩ := derives_iff.1 ht'
    obtain rfl := h x r r' .refl hr hr'
    rw [eq_of_forall₂ hts hts' fun s hs u hu u' hsu hsu' => ?_]
    cases s with
    | token index => exact hsu.unique (by simp) hsu'
    | epsilon position => exact hsu.unique (by simp) hsu'
    | phrase y =>
      cases hsu with
      | phrase hy =>
      cases hsu' with
      | phrase hy' =>
        refine ih _ (Tree.depth_lt_of_mem hu) (fun z r r' hz => h z r r' ?_) hy hy' rfl
        exact .head ⟨_, hr, hs⟩ hz

namespace Forest.Packed

variable (h : F.Packed P) (hno : ¬ HasAlternative F.nodes)

include h hno

/-- Without alternatives the node of a phrase contains its readings itself. -/
lemma contains_node (hi : (kindAt F.nodes i).bind Kind.phrase? = some x)
    (hr : P.grammar.Reads P.tokens x r) :
    (kindAt F.nodes i).bind Kind.container? = some x ∧ Contains F.nodes i r := by
  obtain ⟨j, ⟨hj, hjr⟩, -⟩ := h.container x r ⟨i, hi⟩ hr
  rcases h.choice_cases hi hj with ⟨rfl, -⟩ | ⟨-, -, -, p, hp⟩
  · exact ⟨hj, hjr⟩
  · exact absurd ⟨j, x, p, hp⟩ hno

/-- Without alternatives no phrase has two readings. -/
lemma reading_eq (hx : Known F.nodes x) (hr : P.grammar.Reads P.tokens x r)
    (hr' : P.grammar.Reads P.tokens x r') : r = r' := by
  obtain ⟨i, hi⟩ := hx
  obtain ⟨hcont, hir⟩ := h.contains_node hno hi hr
  obtain ⟨-, hir'⟩ := h.contains_node hno hi hr'
  exact h.reading_unique i x r r' hcont ⟨hr, hir⟩ ⟨hr', hir'⟩

end Forest.Packed

/-- What occurs in derivations of the input has a node. -/
lemma Parsing.Builds.known_of_reached {w : Walk} {b : ForestBuilder} {th : Nat → Thread}
    (hP : P.Complete) (h : P.Builds F w b th)
    (hx : ReflTransGen (P.grammar.Has P.tokens) P.whole x) : Known F.nodes x := by
  cases hx with
  | refl => exact ⟨F.root, phrase_of_piece (h.root_eq hP)⟩
  | tail hy hyx => exact (h.links hP hy hyx).reaches.known_right

/-- If the forest has no alternatives the input has one derivation. -/
lemma Parsing.Builds.derives_unique {w : Walk} {b : ForestBuilder} {th : Nat → Thread}
    (hP : P.Complete) (h : P.Builds F w b th) (hno : ¬ HasAlternative F.nodes)
    (ht : P.grammar.Derives P.tokens P.grammar.start 0 P.tokens.length t)
    (ht' : P.grammar.Derives P.tokens P.grammar.start 0 P.tokens.length t') : t = t' := by
  have hpacked := h.packed hP (h.neverOverwrites hP hno)
  refine ParseForest.derives_unique (x := P.whole) (fun y r r' hy hr hr' => ?_) ht ht'
  exact hpacked.reading_eq hno (h.known_of_reached hP hy) hr hr'

/-! ### Reports that a builder of trees takes -/

/-- A builder of trees that has taken a report was not told of an entry to come back to. -/
lemma TreeBuilder.branches_eq_nil (hP : P.Complete) {w w' : Walk} {ev : WalkEvent}
    {b b' : TreeBuilder} (hm : Walk.Moves P.grammar P.chart w ev w') (hbs : w.branches = [])
    (hh : b.handle P ev = .ok b') : w'.branches = [] := by
  cases hm with
  | finish hx hid ha =>
    dsimp only at hbs ⊢
    subst hbs
    rw [Walk.defer_eq_nil_iff ha, Bool.eq_false_iff]
    intro hbr
    rw [handle_finish_branching hx hbr] at hh
    cases hh
  | finishAgain _ _ hl => exact hl.branches_eq.trans hbs
  | start _ _ hl => exact hl.branches_eq.trans hbs
  | startAgain _ _ hl => exact hl.branches_eq.trans hbs
  | enter => exact hbs
  | scan => exact hbs
  | resume hx hs ha =>
    dsimp only at hbs ⊢
    subst hbs
    rw [Walk.defer_eq_nil_iff ha, Bool.eq_false_iff]
    intro hbr
    obtain ⟨prod, hp, -⟩ := hP.prod_of_item hx
    rw [handle_item_branching hx hp hbr] at hh
    cases hh
  | backtrack => simp at hbs

/-- As long as a builder of trees takes the reports of a walk, a builder of forests makes no
alternatives. -/
lemma TreeBuilder.plain_of_feed (hP : P.Complete) {w w' : Walk} {b b' : ForestBuilder}
    (hf : Walk.Feeds P.grammar P.chart (ForestBuilder.handle P) w b w' b')
    (hw : Walk.Fits P.grammar P.chart w) (hbs : w.branches = []) (hb : Plain b.nodes)
    {c c' : TreeBuilder} {limit : Nat} (hlimit : Walk.potential P.grammar P.chart w ≤ limit)
    (hc : Walk.feed P.grammar P.chart (TreeBuilder.handle P) .fault limit w c = .ok c') :
    Plain b'.nodes := by
  induction hf generalizing c limit with
  | refl => exact hb
  | step hm hh _ ih =>
    obtain ⟨limit', hlimit', heq⟩ := Walk.feed_step (TreeBuilder.handle P) .fault c hP hw hm hlimit
    rw [heq] at hc
    split at hc
    · cases hc
    · next c₁ hc₁ =>
      have hbs' := branches_eq_nil hP hm hbs hc₁
      exact ih (hm.fits hP hw) hbs' (hb.handle hP hm hbs hbs' hh) hlimit' hc

/-- If a tree is built the forest has no alternatives. -/
lemma Parsing.Builds.not_hasAlternative {w : Walk} {b : ForestBuilder} {th : Nat → Thread}
    (hP : P.Complete) (h : P.Builds F w b th) (ht : P.tree = .ok t) :
    ¬ HasAlternative F.nodes := by
  obtain ⟨hstart, hfits⟩ := Walk.startAt_fits (G := P.grammar) hP.accepting
  rw [Parsing.tree, Parsing.walk, hstart] at ht
  dsimp only at ht
  split at ht
  · cases ht
  · next c hc =>
    have hplain := TreeBuilder.plain_of_feed hP h.feeds hfits rfl
      (fun i k hk => by simp [kindAt, ForestBuilder.empty] at hk)
      (Walk.potential_startAt_le hP hP.accepting) hc
    rw [h.nodes] at hplain
    exact hplain.not_hasAlternative

/-! ### Traversals -/

lemma Tree.traverseList_eq (ts : List Tree) : Tree.traverseList ts = ts.flatMap Tree.traverse := by
  induction ts with
  | nil => rfl
  | cons t ts ih => rw [Tree.traverseList, ih, List.flatMap_cons]

lemma flatMap_eq_of_forall₂ {α β γ δ : Type} {Q : α → β → Prop} {R : β → γ → Prop} {f : α → List δ}
    {g : γ → List δ} {as : List α} {bs : List β} {cs : List γ} (hQ : List.Forall₂ Q as bs)
    (hR : List.Forall₂ R bs cs) (h : ∀ a ∈ as, ∀ b c, Q a b → R b c → f a = g c) :
    as.flatMap f = cs.flatMap g := by
  induction hQ generalizing cs with
  | nil =>
    cases hR
    rfl
  | cons hab _ ih =>
    cases hR with
    | cons hbc hR =>
      rw [List.flatMap_cons, List.flatMap_cons, h _ List.mem_cons_self _ _ hab hbc,
        ih hR fun a ha => h a (List.mem_cons_of_mem _ ha)]

/-- A traversal of a forest without alternatives and cycles meets what a traversal of the derivation
meets. -/
lemma Forest.Packed.traverse_eq (h : F.Packed P) (hno : ¬ HasAlternative F.nodes)
    (hac : F.Acyclic) {entered : List Nat} {met : List Callback}
    (htraverse : F.Traverses entered i met) (hentered : ∀ j ∈ entered, TransGen F.Child j i)
    (hs : (kindAt F.nodes i).bind Kind.piece? = some s) (ht : s.Derives P.grammar P.tokens t) :
    met = t.traverse := by
  induction htraverse generalizing s t with
  | token hm =>
    rw [kindAt_eq hm] at hs
    cases hs
    cases ht with
    | token hu =>
      rw [Option.some.inj (hu.symm.trans (h.leaves _ _ _ hm))]
      rfl
  | epsilon hm =>
    rw [kindAt_eq hm] at hs
    cases hs
    cases ht
    rfl
  | cycle hm hid => exact absurd (hentered _ hid) (hac _)
  | @enter entered i lo hi n ambiguous children met hm hid _ ih =>
    obtain rfl : s = .phrase ⟨n, lo, hi⟩ := by
      rw [kindAt_eq hm] at hs
      cases ambiguous <;> exact (Option.some.inj hs).symm
    cases ht with
    | phrase ht =>
      obtain ⟨r, ts, rfl, hr, hts⟩ := derives_iff.1 ht
      obtain ⟨-, hids, -⟩ := h.contains_node hno (phrase_of_piece hs) hr
      rw [childrenAt_eq hm, ForestNode.children, piecesOf_eq_iff] at hids
      have hmet : children.flatMap met = ts.flatMap Tree.traverse := by
        refine flatMap_eq_of_forall₂ hids hts fun j hj s t hjs hst => ?_
        refine ih j hj (fun k hk => ?_) hjs hst
        rcases List.mem_cons.1 hk with rfl | hk
        · exact .single ⟨_, hm, hj⟩
        · exact (hentered k hk).tail ⟨_, hm, hj⟩
      rw [Tree.traverse, Tree.traverseList_eq, hmet]
  | alternative hm => exact absurd ⟨_, _, _, kindAt_eq hm⟩ hno

mutual

/-- A traversal of a tree meets no alternatives and no cycles. -/
lemma Tree.isBare_of_mem_traverse {c : Callback} (t : Tree) (hc : c ∈ t.traverse) :
    c.isBare = true := by
  match t with
  | .token index u =>
    obtain rfl := List.mem_singleton.1 hc
    rfl
  | .epsilon position =>
    obtain rfl := List.mem_singleton.1 hc
    rfl
  | .node n p lo hi ts =>
    rcases List.mem_cons.1 hc with rfl | hc
    · rfl
    · rcases List.mem_append.1 hc with hc | hc
      · exact Tree.isBare_of_mem_traverseList ts hc
      · obtain rfl := List.mem_singleton.1 hc
        rfl

lemma Tree.isBare_of_mem_traverseList {c : Callback} (ts : List Tree)
    (hc : c ∈ Tree.traverseList ts) : c.isBare = true := by
  match ts with
  | [] => cases hc
  | t :: ts =>
    rcases List.mem_append.1 hc with hc | hc
    · exact Tree.isBare_of_mem_traverse t hc
    · exact Tree.isBare_of_mem_traverseList ts hc

end

/-! ### Agreement -/

/-- A tree is built exactly if the forest has no alternatives. Traversals of the tree and of the
forest then meet the same nonterminals, tokens and empty positions in the same order, and no
alternatives and no cycles. -/
theorem tree_ok_iff_not_isAmbiguous {G : Grammar} {tokens : List Token} {start : NonTerminal}
    {rules : List RuleDecl} (hG : Grammar.build start rules = .ok G)
    (hP : (G.recognize tokens).result = .ok P) :
    ∃ F, P.forest = .ok F ∧ ((∃ t, P.tree = .ok t) ↔ F.isAmbiguous = false) ∧
      ∀ t, P.tree = .ok t → F.traverse = t.traverse ∧ ∀ c ∈ F.traverse, c.isBare = true := by
  obtain ⟨rfl, rfl, hc⟩ := complete_of_recognize (Grammar.closed_of_build hG) hP
  obtain ⟨F, w, b, th, hF⟩ := hc.exists_builds
  obtain ⟨t₀, ht₀⟩ := hc.accepts
  refine ⟨F, hF.forest, ?_, fun t ht => ?_⟩
  · rw [Forest.isAmbiguous_eq_false_iff]
    constructor
    · rintro ⟨t, ht⟩
      exact hF.not_hasAlternative hc ht
    · intro hno
      rcases hc.tree_cases ht₀ with ⟨-, t', hne, ht'⟩ | ⟨hok, -⟩
      · exact absurd (hF.derives_unique hc hno ht' ht₀) hne
      · exact ⟨t₀, hok⟩
  · have hno := hF.not_hasAlternative hc ht
    obtain ⟨hok, huniq⟩ : P.tree = .ok t₀ ∧ _ := by
      rcases hc.tree_cases ht₀ with ⟨⟨n, lo, hi, herr⟩, -⟩ | h
      · rw [ht] at herr
        cases herr
      · exact h
    rw [ht] at hok
    cases hok
    have hac : F.Acyclic := by
      refine (hF.acyclic_iff hc).2 (acyclic_of_finite (x := P.whole) ?_)
      exact (Set.finite_singleton t₀).subset huniq
    have heq : F.traverse = t₀.traverse :=
      (hF.packed hc (hF.neverOverwrites hc hno)).traverse_eq hno hac
        ((hF.sound hc).traverses_iff.2 rfl) (by simp) (hF.root_eq hc) (.phrase ht₀)
    exact ⟨heq, fun c hc => t₀.isBare_of_mem_traverse (heq ▸ hc)⟩

/-- The empty phrase that stands twice before the token has one node in the forest, and both
traversals meet it twice. -/
theorem tree_ok_iff_not_isAmbiguous_nullablePair :
    Grammar.build ⟨"Ss"⟩ [Samples.rule "Ss" [[Samples.nt "A", Samples.nt "A", Samples.tm "x"]],
        Samples.rule "A" [[]]] = .ok Samples.nullablePair ∧
      ∃ P t F, (Samples.nullablePair.recognize [.plain "x"]).result = .ok P ∧ P.tree = .ok t ∧
        P.forest = .ok F ∧ F.isAmbiguous = false ∧ F.traverse = t.traverse ∧
        t.traverse = [.enter ⟨"Ss"⟩ 0 1, .enter ⟨"A"⟩ 0 0, .epsilon 0, .exit ⟨"A"⟩ 0 0,
          .enter ⟨"A"⟩ 0 0, .epsilon 0, .exit ⟨"A"⟩ 0 0, .token 0 (.plain "x"),
          .exit ⟨"Ss"⟩ 0 1] := by
  have hbuild : Grammar.build ⟨"Ss"⟩
      [Samples.rule "Ss" [[Samples.nt "A", Samples.nt "A", Samples.tm "x"]],
        Samples.rule "A" [[]]] = .ok Samples.nullablePair := rfl
  have hrun : ((Samples.nullablePair.recognize [.plain "x"]).result.toOption.bind fun P =>
      P.tree.toOption.map Tree.traverse) =
        some [.enter ⟨"Ss"⟩ 0 1, .enter ⟨"A"⟩ 0 0, .epsilon 0, .exit ⟨"A"⟩ 0 0,
          .enter ⟨"A"⟩ 0 0, .epsilon 0, .exit ⟨"A"⟩ 0 0, .token 0 (.plain "x"),
          .exit ⟨"Ss"⟩ 0 1] := by decide +kernel
  cases hP : (Samples.nullablePair.recognize [.plain "x"]).result with
  | error e => simp [hP, Except.toOption] at hrun
  | ok P =>
    cases ht : P.tree with
    | error e => simp [hP, ht, Except.toOption] at hrun
    | ok t =>
      obtain ⟨F, hF, hiff, htraverse⟩ := tree_ok_iff_not_isAmbiguous hbuild hP
      refine ⟨hbuild, P, t, F, rfl, ht, hF, hiff.1 ⟨t, ht⟩, (htraverse t ht).1, ?_⟩
      simpa [hP, ht, Except.toOption] using hrun

end ParseForest
