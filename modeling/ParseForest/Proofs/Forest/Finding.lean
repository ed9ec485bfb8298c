import ParseForest.Proofs.Tree.Agreement

/-!
# Looking up the nodes of a forest

A nonterminal is found over a range exactly if it occurs there in a derivation of the input,
`forest_finds_iff_occurs`, and what is found is the only node of the symbol and the range. A phrase
that is complete in the chart but occurs in no derivation of the input leaves nothing behind: the
walk goes into no finish entry that it does not reach from the accepting one.
-/

namespace ParseForest

variable {F : Forest} {P : Parsing} {n : NonTerminal} {lo hi id : Nat}

namespace Forest

lemma kindAt_phrase?_iff :
    (kindAt F.nodes id).bind Kind.phrase? = some ⟨n, lo, hi⟩ ↔
      ∃ ambiguous ids, F.nodes[id]? = some (.nonterminal n lo hi ambiguous ids) := by
  constructor
  · intro h
    obtain ⟨kind, hk, hphrase⟩ := Option.bind_eq_some_iff.1 h
    obtain ⟨m, hm, rfl⟩ := Option.map_eq_some_iff.1 hk
    cases m with
    | nonterminal n' lo' hi' ambiguous ids =>
      rw [ForestNode.phrase?_kind] at hphrase
      cases hphrase
      exact ⟨ambiguous, ids, hm⟩
    | _ => cases hphrase
  · rintro ⟨ambiguous, ids, h⟩
    rw [kindAt_eq h, Option.bind_some, ForestNode.phrase?_kind]

/-- The phrases that are found are those that have a node. -/
lemma exists_find?_iff : (∃ id, F.find? n lo hi = some id) ↔ Known F.nodes ⟨n, lo, hi⟩ :=
  ForestBuilder.exists_findIdx?_iff

end Forest

/-- The phrases that have a node are those that occur in derivations of the input. -/
lemma Parsing.Builds.known_iff_occurs {w : Walk} {b : ForestBuilder} {th : Nat → Thread}
    (hP : P.Complete) (h : P.Builds F w b th) {x : Phrase} :
    Known F.nodes x ↔ P.grammar.Occurs P.tokens x := by
  rw [occurs_iff]
  constructor
  · rintro ⟨i, hi⟩
    exact ⟨hP.accepts, h.reached hP hi⟩
  · rintro ⟨-, hx⟩
    exact h.known_of_reached hP hx

/-- The nodes of a forest are the constituents of the input. A nonterminal is found over a range
exactly if it is the symbol of a node over that range in a permitted derivation of the input, and
what is found is the only node of that nonterminal and that range. What does not occur, complete in
the chart or not, has neither a node nor an alternative. -/
theorem forest_finds_iff_occurs {G : Grammar} {tokens : List Token} {start : NonTerminal}
    {rules : List RuleDecl} (hG : Grammar.build start rules = .ok G)
    (hP : (G.recognize tokens).result = .ok P) :
    ∃ F, P.forest = .ok F ∧ ∀ n lo hi,
      ((∃ id, F.find? n lo hi = some id) ↔ G.Occurs tokens ⟨n, lo, hi⟩) ∧
      (∀ id, F.find? n lo hi = some id → ∀ i : Nat,
        (∃ ambiguous ids, F.nodes[i]? = some (.nonterminal n lo hi ambiguous ids)) ↔ i = id) ∧
      (¬ G.Occurs tokens ⟨n, lo, hi⟩ → ∀ i : Nat,
        (∀ ambiguous ids, F.nodes[i]? ≠ some (.nonterminal n lo hi ambiguous ids)) ∧
        ∀ p ids, F.nodes[i]? ≠ some (.alternative n p lo hi ids)) := by
  obtain ⟨rfl, rfl, hc⟩ := complete_of_recognize (Grammar.closed_of_build hG) hP
  obtain ⟨F, w, b, th, hF⟩ := hc.exists_builds
  refine ⟨F, hF.forest, fun n lo hi => ⟨?_, fun id hid i => ?_, fun hnot i => ?_⟩⟩
  · rw [Forest.exists_find?_iff]
    exact hF.known_iff_occurs hc
  · have hat := ForestBuilder.phrase_of_findIdx? hid
    rw [← Forest.kindAt_phrase?_iff]
    constructor
    · intro hi'
      exact hF.settled.unique i id _ hi' hat
    · rintro rfl
      exact hat
  · rw [← hF.known_iff_occurs hc] at hnot
    have hnone : ∀ (j : Nat) ambiguous ids,
        F.nodes[j]? ≠ some (.nonterminal n lo hi ambiguous ids) := fun j ambiguous ids hj =>
      hnot ⟨j, Forest.kindAt_phrase?_iff.2 ⟨ambiguous, ids, hj⟩⟩
    refine ⟨hnone i, fun p ids hi' => ?_⟩
    obtain ⟨j, ids', hj, -, -⟩ := (hF.wellFormed hc).parent i n p lo hi ids hi'
    exact hnone j true ids' hj

/-- Of three tokens that are split in two ways the first is a phrase that is found. The first two
are a pair that is complete in the chart and is part of no derivation of all three. -/
theorem forest_finds_iff_occurs_splitAmbiguity :
    Grammar.build ⟨"S"⟩ [Samples.rule "S" [[Samples.nt "A", Samples.nt "A"]],
        Samples.rule "A" [[Samples.tm "a"], [Samples.tm "a", Samples.tm "a"]]] =
        .ok Samples.splitAmbiguity ∧
      ∃ P F,
        (Samples.splitAmbiguity.recognize [.plain "a", .plain "a", .plain "a"]).result = .ok P ∧
        P.forest = .ok F ∧ (∃ id, F.find? ⟨"A"⟩ 0 1 = some id) ∧
        Samples.splitAmbiguity.Occurs [.plain "a", .plain "a", .plain "a"] ⟨⟨"A"⟩, 0, 1⟩ ∧
        P.chart.Holds ⟨.finish ⟨"S"⟩, 0, 2⟩ ∧ F.find? ⟨"S"⟩ 0 2 = none ∧
        ¬ Samples.splitAmbiguity.Occurs [.plain "a", .plain "a", .plain "a"] ⟨⟨"S"⟩, 0, 2⟩ := by
  have hbuild : Grammar.build ⟨"S"⟩ [Samples.rule "S" [[Samples.nt "A", Samples.nt "A"]],
      Samples.rule "A" [[Samples.tm "a"], [Samples.tm "a", Samples.tm "a"]]] =
        .ok Samples.splitAmbiguity := rfl
  let w : List Token := [.plain "a", .plain "a", .plain "a"]
  have hchart : (Samples.splitAmbiguity.recognize w).result.toOption.any (fun P =>
      (P.chart.find? (.finish ⟨"S"⟩) 0 2).isSome) = true := by decide +kernel
  have hfound : (Samples.splitAmbiguity.recognize w).result.toOption.any (fun P =>
      P.forest.toOption.any fun F =>
        (F.find? ⟨"A"⟩ 0 1).isSome && (F.find? ⟨"S"⟩ 0 2).isNone) = true := by decide +kernel
  cases hP : (Samples.splitAmbiguity.recognize w).result with
  | error e => simp [hP, Except.toOption] at hfound
  | ok P =>
    obtain ⟨-, -, hc⟩ := complete_of_recognize (Grammar.closed_of_build hbuild) hP
    obtain ⟨F, hF, hfind⟩ := forest_finds_iff_occurs hbuild hP
    simp only [hP, hF, Except.toOption, Option.any_some, Bool.and_eq_true,
      Option.isSome_iff_exists, Option.isNone_iff_eq_none] at hchart hfound
    refine ⟨hbuild, P, F, rfl, hF, hfound.1, (hfind _ _ _).1.1 hfound.1, ?_, hfound.2, ?_⟩
    · obtain ⟨id, hid⟩ := hchart
      exact ⟨id, hc.filled.indexed.find?_eq_some_iff.1 hid⟩
    · rw [← (hfind _ _ _).1, hfound.2]
      simp

end ParseForest
