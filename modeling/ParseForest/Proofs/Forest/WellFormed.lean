import ParseForest.Proofs.Forest.Packed

/-!
# Forests are well formed

The graph of a finished forest is reached from the node of the whole input, has one node for each
phrase and each token, and its containers spell productions. The builder can be stopped after any
number of reports, it has taken all of them, `forest_wellFormed`.
-/

namespace ParseForest

open Relation

namespace Forest

/-- The children of a node spell the production: a token of its kind for each terminal, a phrase
that has a permitted derivation for each nonterminal and that the constraint permits, one leaf that
stands for nothing if there are no symbols. Their ranges meet and cover the range of the node. -/
def Spells (F : Forest) (G : Grammar) (w : List Token) (n : NonTerminal) (p lo hi : Nat)
    (children : List Nat) : Prop :=
  ∃ ss, G.Reads w ⟨n, lo, hi⟩ ⟨p, ss⟩ ∧ piecesOf F.nodes children = ss.map some

/-- The graph is one of derivations of an input. -/
structure WellFormed (F : Forest) (G : Grammar) (w : List Token) : Prop where
  /-- The root is the node of the start symbol over the whole input. -/
  root : ∃ ambiguous ids,
    F.nodes[F.root]? = some (.nonterminal G.start 0 w.length ambiguous ids)
  /-- Every node is reached from the root. -/
  reached : ∀ i < F.nodes.size, ReflTransGen F.Child F.root i
  /-- A nonterminal has one node for each range. -/
  nonterminal_unique : ∀ (i j : Nat) n lo hi ambiguous ambiguous' ids ids',
    F.nodes[i]? = some (.nonterminal n lo hi ambiguous ids) →
    F.nodes[j]? = some (.nonterminal n lo hi ambiguous' ids') → i = j
  /-- A token has one leaf. -/
  token_unique : ∀ (i j index : Nat) t t', F.nodes[i]? = some (.token index t) →
    F.nodes[j]? = some (.token index t') → i = j
  /-- Leaves are tokens of the input. -/
  token : ∀ (i index : Nat) t, F.nodes[i]? = some (.token index t) → w[index]? = some t
  /-- The children of an ambiguous node are alternatives of it, each of them once. -/
  ambiguous : ∀ (i : Nat) n lo hi ids, F.nodes[i]? = some (.nonterminal n lo hi true ids) →
    ids.Nodup ∧ ∀ j ∈ ids, ∃ p ids', F.nodes[j]? = some (.alternative n p lo hi ids')
  /-- An alternative has one parent, the ambiguous node of its symbol and range. -/
  parent : ∀ (j : Nat) n p lo hi ids, F.nodes[j]? = some (.alternative n p lo hi ids) →
    ∃ i ids', F.nodes[i]? = some (.nonterminal n lo hi true ids') ∧ j ∈ ids' ∧
      ∀ i', F.Child i' j → i' = i
  /-- The children of an alternative spell its production. -/
  alternative : ∀ (i : Nat) n p lo hi ids, F.nodes[i]? = some (.alternative n p lo hi ids) →
    F.Spells G w n p lo hi ids
  /-- The children of a node that is not ambiguous spell a production. -/
  plain : ∀ (i : Nat) n lo hi ids, F.nodes[i]? = some (.nonterminal n lo hi false ids) →
    ∃ p, F.Spells G w n p lo hi ids

end Forest

variable {P : Parsing} {F : Forest} {w : Walk} {b : ForestBuilder} {th : Nat → Thread}
  {acc : Phrase → Reading → Nat} {nodes : Array ForestNode} {i j p : Nat} {x : Phrase}

/-! ### The finished graph -/

namespace Forest.Sound

/-- Only an ambiguous node has alternatives as children, and those of its phrase. -/
lemma ambiguous_of_child (h : F.Sound P) (hj : kindAt F.nodes j = some (.alternative x p))
    (hc : F.Child i j) : kindAt F.nodes i = some (.ambiguous x) := by
  obtain ⟨th, vis, hset⟩ := h.settled
  -- Alternatives are no pieces, so a container does not have them.
  have hcont : ∀ y, (kindAt F.nodes i).bind Kind.container? ≠ some y := by
    intro y hi
    obtain ⟨r, -, hids, -⟩ := h.reading i y hi
    have hmem : (kindAt F.nodes j).bind Kind.piece? ∈ r.pieces.map some := by
      rw [← hids, piecesOf_eq]
      exact List.mem_map_of_mem (child_iff.1 hc)
    simp [hj, Kind.piece?] at hmem
  obtain ⟨y, howner, -⟩ := h.child_cases hc
  cases hk : kindAt F.nodes i with
  | none => simp [hk] at howner
  | some kind =>
    cases kind with
    | leaf s => simp [hk, Kind.owner?] at howner
    | plain y => exact absurd (by rw [hk]; rfl) (hcont y)
    | alternative y q => exact absurd (by rw [hk]; rfl) (hcont y)
    | ambiguous y =>
      obtain ⟨q, hq⟩ := (hset.alternatives i y hk).2 j (child_iff.1 hc)
      rw [hj] at hq
      cases hq
      rfl

/-- What a container spells is a production of its phrase, and its own if it has one. -/
lemma spells {m : ForestNode} (h : F.Sound P) (hm : F.nodes[i]? = some m)
    (hx : m.kind.container? = some x) :
    ∃ q, F.Spells P.grammar P.tokens x.symbol q x.lo x.hi m.children ∧
      ∀ y p, m.kind = .alternative y p → p = q := by
  obtain ⟨r, hr, hids, hprod⟩ := h.reading i x (by rw [kindAt_eq hm]; exact hx)
  refine ⟨r.prod, ⟨r.pieces, hr, ?_⟩, fun y p hk => hprod y p ?_⟩
  · rw [← childrenAt_eq hm]
    exact hids
  · rw [kindAt_eq hm, hk]

end Forest.Sound

/-- A finished forest is well formed. -/
theorem Parsing.Builds.wellFormed (hP : P.Complete) (h : P.Builds F w b th) :
    F.WellFormed P.grammar P.tokens where
  root := by
    obtain ⟨hroot, hpiece⟩ := h.root_eq_zero hP
    obtain ⟨m, hm, hs⟩ := Option.bind_eq_some_iff.1 hpiece
    rw [hroot]
    cases m with
    | nonterminal n lo hi ambiguous ids =>
      cases hs
      exact ⟨ambiguous, ids, hm⟩
    | _ => cases hs
  reached i hi :=
    ReflTransGen.mono (fun _ _ hc => Forest.child_iff.2 hc) _ _ ((h.connected hP).1 i hi)
  nonterminal_unique i j n lo hi a a' ids ids' hi' hj' := by
    refine h.settled.unique i j ⟨n, lo, hi⟩ ?_ ?_
    · rw [kindAt_eq hi', Option.bind_some, ForestNode.phrase?_kind]
    · rw [kindAt_eq hj', Option.bind_some, ForestNode.phrase?_kind]
  token_unique i j index t t' hi hj :=
    (h.connected hP).2 i j index (kindAt_eq hi) (kindAt_eq hj)
  token := (h.sound hP).leaves
  ambiguous i n lo hi ids hi' := by
    obtain ⟨hnodup, halts⟩ := h.settled.alternatives i ⟨n, lo, hi⟩ (kindAt_eq hi')
    rw [childrenAt_eq hi'] at hnodup halts
    refine ⟨hnodup, fun j hj => ?_⟩
    obtain ⟨p, hp⟩ := halts j hj
    exact ⟨p, _, kindAt_eq_alternative_iff.1 hp⟩
  parent j n p lo hi ids hj := by
    obtain ⟨i, hi', hmem⟩ := h.settled.owned j ⟨n, lo, hi⟩ p (kindAt_eq hj)
    refine ⟨i, _, kindAt_eq_ambiguous_iff.1 hi', hmem, fun i' hc => ?_⟩
    have hi'' := (h.sound hP).ambiguous_of_child (kindAt_eq hj) hc
    exact h.settled.unique i' i ⟨n, lo, hi⟩ (by rw [hi'']; rfl) (by rw [hi']; rfl)
  alternative i n p lo hi ids hi' := by
    obtain ⟨q, hspells, hq⟩ := (h.sound hP).spells hi' rfl
    rw [hq _ p rfl]
    exact hspells
  plain i n lo hi ids hi' := by
    obtain ⟨q, hspells, -⟩ := (h.sound hP).spells hi' rfl
    exact ⟨q, hspells⟩

/-! ### Some of the reports -/

/-- A builder that was told some of the reports takes any number of those that follow. -/
lemma Accounts.exists_feed (hP : P.Complete) (h : Accounts P w b acc)
    (hw : Walk.Fits P.grammar P.chart w) (hv : Exact P b.nodes acc ∨ Lossy P b.nodes acc)
    (limit : Nat) :
    ∃ b', Walk.feed P.grammar P.chart (ForestBuilder.handle P) id limit w b = .ok b' := by
  induction limit generalizing w b acc with
  | zero => exact ⟨b, rfl⟩
  | succ limit ih =>
    rcases Walk.next_cases hP hw with ⟨hend, -, -⟩ | ⟨ev, w', hm⟩
    · exact ⟨b, Walk.feed_eq_ok hend (limit + 1)⟩
    · obtain ⟨b₁, acc₁, hh, hacc₁, hv₁⟩ := h.judged hP hw hm hv
      obtain ⟨b', hb'⟩ := ih hacc₁ (hm.fits hP hw) (hv₁.imp And.left And.left)
      refine ⟨b', ?_⟩
      simp only [Walk.feed, hm.next_eq hP.filled.indexed, hh]
      exact hb'

/-- A new builder takes any number of the reports of the walk through the parse. -/
lemma Parsing.Complete.exists_feed (hP : P.Complete) (limit : Nat) :
    ∃ w b, P.walk = .ok w ∧
      Walk.feed P.grammar P.chart (ForestBuilder.handle P) id limit w .empty = .ok b := by
  obtain ⟨hstart, hfits⟩ := Walk.startAt_fits (G := P.grammar) hP.accepting
  cases limit with
  | zero => exact ⟨_, .empty, hstart, rfl⟩
  | succ limit =>
    obtain ⟨w₁, b₁, hb⟩ := hP.exists_begins
    obtain ⟨acc, hacc, he⟩ := hb.exact
    obtain ⟨b, hfeed⟩ := hacc.exists_feed hP (hb.moves.fits hP hfits) (Or.inl he) limit
    refine ⟨_, b, hstart, ?_⟩
    simp only [Walk.feed, hb.moves.next_eq hP.filled.indexed, hb.handles]
    exact hfeed

/-- No report of the walk through a parse is one that a builder of forests fails at, and the forest
that it has built after all of them is well formed. -/
theorem forest_wellFormed {G : Grammar} {tokens : List Token} {start : NonTerminal}
    {rules : List RuleDecl} (hG : Grammar.build start rules = .ok G)
    (hP : (G.recognize tokens).result = .ok P) :
    ∃ w, P.walk = .ok w ∧
      (∀ limit, ∃ b,
        Walk.feed G P.chart (ForestBuilder.handle P) id limit w .empty = .ok b) ∧
      ∃ F, P.forest = .ok F ∧ F.WellFormed G tokens := by
  obtain ⟨rfl, rfl, hc⟩ := complete_of_recognize (Grammar.closed_of_build hG) hP
  obtain ⟨F, w, b, th, hF⟩ := hc.exists_builds
  obtain ⟨w₀, -, hw₀, -⟩ := hc.exists_feed 0
  refine ⟨w₀, hw₀, fun limit => ?_, F, hF.forest, hF.wellFormed hc⟩
  obtain ⟨w₁, b₁, hw₁, hfeed⟩ := hc.exists_feed limit
  rw [hw₀] at hw₁
  cases hw₁
  exact ⟨b₁, hfeed⟩

/-- The forest of two tokens that are three phrases in several ways is well formed, though readings
are overwritten while it is built. -/
theorem forest_wellFormed_tripleConcat :
    Grammar.build ⟨"S"⟩ [Samples.rule "S"
        [[Samples.tm "a"], [], [Samples.nt "S", Samples.nt "S", Samples.nt "S"]]] =
        .ok Samples.tripleConcat ∧
      ∃ P F, (Samples.tripleConcat.recognize [.plain "a", .plain "a"]).result = .ok P ∧
        P.overwrites = true ∧ P.forest = .ok F ∧
        F.WellFormed Samples.tripleConcat [.plain "a", .plain "a"] := by
  have hbuild : Grammar.build ⟨"S"⟩ [Samples.rule "S"
      [[Samples.tm "a"], [], [Samples.nt "S", Samples.nt "S", Samples.nt "S"]]] =
        .ok Samples.tripleConcat := rfl
  have hrun : ((Samples.tripleConcat.recognize [.plain "a", .plain "a"]).result.toOption.any
      Parsing.overwrites) = true := by
    decide +kernel
  cases hP : (Samples.tripleConcat.recognize [.plain "a", .plain "a"]).result with
  | error e => simp [hP, Except.toOption] at hrun
  | ok P =>
    obtain ⟨w, -, -, F, hF, hwell⟩ := forest_wellFormed hbuild hP
    exact ⟨hbuild, P, F, rfl, by simpa [hP, Except.toOption] using hrun, hF, hwell⟩

end ParseForest
