import ParseForest.Proofs.Forest.Nonterminals
import ParseForest.Proofs.Forest.Stored
import ParseForest.Proofs.Walk.Potential
import ParseForest.Grammar.Samples
import Mathlib.Logic.Relation

/-!
# Which forests are exhaustive

A builder of forests keeps one snapshot for each entry. An item with several antecedents may be
passed again, inside of another phrase or before other pieces, while the walk is still to come back
to it for what was saved the first time; the snapshot is then overwritten. `forest_exhaustive_iff`
says that this is the only thing that goes wrong: a forest is always built, and it stores all
readings of all its phrases, each of them once, exactly if the walk never passes an item in this
way.
-/

namespace ParseForest

namespace Walk

/-- The walk is at an item that it is still to come back to. -/
def Overwrites (c : Chart) (w : Walk) : Prop :=
  ∃ id p dot o k, w.cursor = some id ∧ c.place? id = some ⟨.item p dot, o, k⟩ ∧
    Pending id w.branches

instance (c : Chart) (w : Walk) : Decidable (Overwrites c w) :=
  decidable_of_iff ((w.cursor.any fun id =>
      (c.place? id).any (·.vertex.prod?.isSome) && decide (Pending id w.branches)) = true) <| by
    simp only [Overwrites, Option.any_eq_true, Bool.and_eq_true, decide_eq_true_eq]
    constructor
    · rintro ⟨id, hid, ⟨⟨v, o, k⟩, hx, hv⟩, hpend⟩
      cases v with
      | item p dot => exact ⟨id, p, dot, o, k, hid, hx, hpend⟩
      | start n => cases hv
      | finish n => cases hv
    · rintro ⟨id, p, dot, o, k, hid, hx, hpend⟩
      exact ⟨id, hid, ⟨_, hx, rfl⟩, hpend⟩

/-- The walk makes a report and then is `w'`. -/
def Advances (G : Grammar) (c : Chart) (w w' : Walk) : Prop :=
  ∃ ev, next G c w = .ok (some (ev, w'))

/-- The walk is never again at an item that it is still to come back to. -/
def NeverOverwrites (G : Grammar) (c : Chart) (w : Walk) : Prop :=
  ∀ w', Relation.ReflTransGen (Advances G c) w w' → ¬ Overwrites c w'

variable {G : Grammar} {c : Chart} {w w' : Walk} {ev : WalkEvent}

lemma neverOverwrites_iff (h : next G c w = .ok (some (ev, w'))) :
    NeverOverwrites G c w ↔ ¬ Overwrites c w ∧ NeverOverwrites G c w' := by
  constructor
  · exact fun hn => ⟨hn w .refl, fun w'' hw => hn w'' (.head ⟨ev, h⟩ hw)⟩
  · rintro ⟨hno, hn⟩ w'' hw
    rcases hw.cases_head with rfl | ⟨w₁, ⟨ev', h'⟩, hw⟩
    · exact hno
    · rw [h] at h'
      cases h'
      exact hn w'' hw

lemma neverOverwrites_of_end (h : next G c w = .ok none) (hcur : w.cursor = none) :
    NeverOverwrites G c w := by
  intro w' hw
  rcases hw.cases_head with rfl | ⟨w₁, ⟨ev, h'⟩, -⟩
  · rintro ⟨id, p, dot, o, k, hid, -⟩
    rw [hcur] at hid
    cases hid
  · rw [h] at h'
    cases h'

/-- What the walk comes to in at most `limit` reports. -/
def states (G : Grammar) (c : Chart) : (limit : Nat) → Walk → List Walk
  | 0, w => [w]
  | limit + 1, w =>
    w :: match next G c w with
      | .ok (some (_, w')) => states G c limit w'
      | _ => []

/-- A walk through a parse can be looked through for overwriting. -/
lemma neverOverwrites_iff_states {P : Parsing} (hP : P.Complete)
    (hw : Fits P.grammar P.chart w) {limit : Nat}
    (hlimit : potential P.grammar P.chart w ≤ limit) :
    NeverOverwrites P.grammar P.chart w ↔
      ∀ w' ∈ states P.grammar P.chart limit w, ¬ Overwrites P.chart w' := by
  induction limit generalizing w with
  | zero =>
    rcases next_cases hP hw with ⟨hend, hcur, -⟩ | ⟨ev, w', hm⟩
    · have hnever := neverOverwrites_of_end hend hcur
      simp only [states, List.mem_singleton, forall_eq]
      exact iff_of_true hnever (hnever w .refl)
    · have hlt := hm.potential_lt hP hw
      omega
  | succ limit ih =>
    rcases next_cases hP hw with ⟨hend, hcur, -⟩ | ⟨ev, w', hm⟩
    · have hnever := neverOverwrites_of_end hend hcur
      simp only [states, hend, List.mem_singleton, forall_eq]
      exact iff_of_true hnever (hnever w .refl)
    · have hnext := hm.next_eq hP.filled.indexed
      have hlt := hm.potential_lt hP hw
      rw [neverOverwrites_iff hnext, ih (hm.fits hP hw) (by omega)]
      simp only [states, hnext, List.forall_mem_cons]

/-- At an entry that is not an item nothing is overwritten. -/
lemma not_overwrites {id k o : Nat} {v : Vertex} {vis : List Nat} {cs : List CallSite}
    {bs : List Branch} {fl : Nat} (hx : c.place? id = some ⟨v, o, k⟩)
    (hv : ∀ p dot, v ≠ .item p dot) : ¬ Overwrites c ⟨some id, k, vis, cs, bs, fl⟩ := by
  rintro ⟨id', p, dot, o', k', hid, hx', -⟩
  cases hid
  rw [hx] at hx'
  cases hx'
  exact hv p dot rfl

end Walk

/-- A walk through the parse is never at an item that it is still to come back to. -/
def Parsing.NeverOverwrites (P : Parsing) : Prop :=
  ∀ w, P.walk = .ok w → w.NeverOverwrites P.grammar P.chart

variable {P : Parsing} {w w' : Walk} {ev : WalkEvent} {b : ForestBuilder}
  {acc : Phrase → Reading → Nat}

lemma Parsing.neverOverwrites_iff (h : P.walk = .ok w) :
    P.NeverOverwrites ↔ w.NeverOverwrites P.grammar P.chart := by
  constructor
  · exact fun hn => hn w h
  · intro hn w' hw'
    rw [h] at hw'
    cases hw'
    exact hn

/-- Whether the walk is ever at an item that it is still to come back to. -/
def Parsing.overwrites (P : Parsing) : Bool :=
  match P.walk with
  | .ok w => (Walk.states P.grammar P.chart (Walk.bound P.grammar P.chart) w).any
      fun w' => decide (w'.Overwrites P.chart)
  | .error _ => false

/-- Overwriting is found by taking the walk. -/
theorem Parsing.Complete.overwrites_eq_false_iff (hP : P.Complete) :
    P.overwrites = false ↔ P.NeverOverwrites := by
  obtain ⟨hstart, hfits⟩ := Walk.startAt_fits (G := P.grammar) hP.accepting
  rw [Parsing.neverOverwrites_iff hstart,
    Walk.neverOverwrites_iff_states hP hfits (Walk.potential_startAt_le hP hP.accepting),
    Parsing.overwrites, Parsing.walk, hstart]
  simp

/-! ### One report -/

/-- The builder takes the report. Its accounts are exact after it if they were and nothing was
overwritten; else a reading is lost. -/
def Judged (P : Parsing) (w : Walk) (b : ForestBuilder) (acc : Phrase → Reading → Nat)
    (ev : WalkEvent) (w' : Walk) : Prop :=
  ∃ b' acc', b.handle P ev = .ok b' ∧ Accounts P w' b' acc' ∧
    (Exact P b'.nodes acc' ∧ Exact P b.nodes acc ∧ ¬ w.Overwrites P.chart ∨
      Lossy P b'.nodes acc' ∧ ¬ (Exact P b.nodes acc ∧ ¬ w.Overwrites P.chart))

lemma Conserved.judged (h : Conserved P b acc ev w') (hno : ¬ w.Overwrites P.chart)
    (hv : Exact P b.nodes acc ∨ Lossy P b.nodes acc) : Judged P w b acc ev w' := by
  obtain ⟨b', acc', hh, hacc, hcons⟩ := h
  refine ⟨b', acc', hh, hacc, ?_⟩
  rcases hv with he | hl
  · exact Or.inl ⟨hcons.exact he, he, hno⟩
  · exact Or.inr ⟨hcons.lossy hl, fun he => he.1.not_lossy hl⟩

/-- What a walk comes back to branches. -/
lemma Tracks.not_overwrites {th : Nat → Thread} {fresh : Option (Phrase × Thread)} {saved : Saved}
    {act : List Nat} (h : Tracks P w b th fresh saved act) {id : Nat} (hid : w.cursor = some id)
    (hbr : P.chart.branches id = false) : ¬ w.Overwrites P.chart := by
  rintro ⟨id', p, dot, o, k, hid', -, d, hd, rfl, -⟩
  rw [hid] at hid'
  cases hid'
  have htrue := h.branching d hd
  rw [hbr] at htrue
  cases htrue

/-- Each report of a walk is taken by a builder that was told those before. -/
theorem Accounts.judged (hP : P.Complete) (h : Accounts P w b acc)
    (hw : Walk.Fits P.grammar P.chart w) (hm : Walk.Moves P.grammar P.chart w ev w')
    (hv : Exact P b.nodes acc ∨ Lossy P b.nodes acc) : Judged P w b acc ev w' := by
  obtain ⟨th, fresh, saved, act, h, hacc⟩ := h
  obtain ⟨-, hfl, hbs⟩ := hw
  cases hm with
  | finish hx hid ha =>
    exact (conserved_finish hP h hacc hbs hx hid ha).judged (Walk.not_overwrites hx (by simp)) hv
  | finishAgain hx hid hl =>
    exact (conserved_finishAgain hP h hacc hx hid hl).judged (Walk.not_overwrites hx (by simp)) hv
  | start hx hid hl =>
    exact (conserved_start hP (by simp) h hacc hx (Or.inr rfl) hl).judged
      (Walk.not_overwrites hx (by simp)) hv
  | startAgain hx hid hl =>
    exact (conserved_start hP (by simp) h hacc hx (Or.inl rfl) hl).judged
      (Walk.not_overwrites hx (by simp)) hv
  | enter hx hp hs =>
    exact (conserved_enter hP h hacc hx hp hs).judged
      (h.not_overwrites rfl (hP.branches_enter hx)) hv
  | scan hx hs hb =>
    exact (conserved_scan hP h hacc hx hs hb).judged
      (h.not_overwrites rfl (hP.branches_scan hx hs)) hv
  | backtrack hdead hb =>
    refine (conserved_backtrack hP h hacc hdead hb (hbs _ (by simp))).judged ?_ hv
    rintro ⟨id, p, dot, o, k, hid, -⟩
    cases hid
  | @resume id k o a p dot fl n vis untried cs bs hx hs ha =>
    cases hbr : P.chart.branches id with
    | false =>
      obtain rfl := (Chart.branches_eq_false_iff ha).1 hbr
      exact (conserved_resume hP hfl h hacc hx hs ha).judged (h.not_overwrites rfl hbr) hv
    | true =>
      by_cases hpend : Pending id bs
      · obtain ⟨b', acc', hh, hacc', hl⟩ :=
          handle_overwrites hP hfl h hacc hx hs ha hbr hbs hpend hv
        exact ⟨b', acc', hh, hacc', Or.inr ⟨hl, fun he => he.2 ⟨id, p, _, o, k, rfl, hx, hpend⟩⟩⟩
      · refine (conserved_branching hP hfl h hacc hx hs ha hbr hpend).judged ?_ hv
        rintro ⟨id', p', dot', o', k', hid', -, hpend'⟩
        cases hid'
        exact hpend hpend'

/-! ### All reports -/

/-- A builder whose accounts are exact has exact accounts at the end of the walk if nothing is
overwritten on the way; else a reading is lost. -/
theorem Accounts.feed (hP : P.Complete) (h : Accounts P w b acc)
    (hw : Walk.Fits P.grammar P.chart w) (hv : Exact P b.nodes acc ∨ Lossy P b.nodes acc)
    {limit : Nat} (hlimit : Walk.potential P.grammar P.chart w ≤ limit) :
    ∃ b' w' acc',
      Walk.feed P.grammar P.chart (ForestBuilder.handle P) id limit w b = .ok b' ∧
      Walk.Feeds P.grammar P.chart (ForestBuilder.handle P) w b w' b' ∧
      Accounts P w' b' acc' ∧ w'.cursor = none ∧ (∀ d ∈ w'.branches, d.untried = []) ∧
      (Exact P b'.nodes acc' ∧ Exact P b.nodes acc ∧ w.NeverOverwrites P.grammar P.chart ∨
        Lossy P b'.nodes acc' ∧
          ¬ (Exact P b.nodes acc ∧ w.NeverOverwrites P.grammar P.chart)) := by
  induction hn : Walk.potential P.grammar P.chart w using Nat.strongRecOn
    generalizing w b acc limit with
  | ind n ih =>
    rcases Walk.next_cases hP hw with ⟨hend, hcur, hbs⟩ | ⟨ev, w', hm⟩
    · have hnever := Walk.neverOverwrites_of_end hend hcur
      refine ⟨b, w, acc, Walk.feed_eq_ok hend limit, .refl w b, h, hcur, hbs, ?_⟩
      rcases hv with he | hl
      · exact Or.inl ⟨he, he, hnever⟩
      · exact Or.inr ⟨hl, fun he => he.1.not_lossy hl⟩
    · obtain ⟨b', acc', hh, hacc', hjudged⟩ := h.judged hP hw hm hv
      obtain ⟨limit', hlimit', heq⟩ :=
        Walk.feed_step (ForestBuilder.handle P) id b hP hw hm hlimit
      obtain ⟨b'', w'', acc'', hfeed, hfeeds, hacc'', hcur, hbs, hrest⟩ :=
        ih _ (hn ▸ hm.potential_lt hP hw) hacc' (hm.fits hP hw)
          (hjudged.imp (fun he => he.1) fun hl => hl.1) hlimit' rfl
      refine ⟨b'', w'', acc'', ?_, .step hm hh hfeeds, hacc'', hcur, hbs, ?_⟩
      · rw [heq, hh, ← hfeed]
      · rw [Walk.neverOverwrites_iff (hm.next_eq hP.filled.indexed)]
        rcases hrest with ⟨he'', he', hnever⟩ | ⟨hl'', hnot⟩
        · obtain ⟨-, he, hno⟩ := hjudged.resolve_right fun hl => he'.not_lossy hl.1
          exact Or.inl ⟨he'', he, hno, hnever⟩
        · refine Or.inr ⟨hl'', ?_⟩
          rintro ⟨he, hno, hnever⟩
          obtain ⟨he', -⟩ := hjudged.resolve_right fun hl => hl.2 ⟨he, hno⟩
          exact hnot ⟨he', hnever⟩

/-- At the end of the walk no container is worked on, and the accounts are about what is stored. -/
lemma Accounts.settled (h : Accounts P w b acc) (hcur : w.cursor = none)
    (hbs : ∀ d ∈ w.branches, d.untried = []) :
    ∃ th root, Settled P b.nodes th [] w.visited ∧ acc = heldWeight P b.nodes th ∧
      b.root = some root := by
  obtain ⟨th, fresh, saved, act, ⟨hphase, -, -, -, hroot⟩, hacc⟩ := h
  obtain ⟨root, hroot⟩ := Option.isSome_iff_exists.1 hroot
  generalize b.path = path at hphase
  cases hphase with
  | idle hset =>
    refine ⟨th, root, hset, ?_, hroot⟩
    funext x r
    rw [hacc, account, pendingWeight_eq_zero hbs]
    simp [freshWeight]
  | begun => cases hcur
  | inside => cases hcur
  | calling => cases hcur
  | leaving => cases hcur

/-- A builder that was told all reports of the walk through the parse, which then is `w`, and the
forest that it has built. -/
structure Parsing.Builds (P : Parsing) (F : Forest) (w : Walk) (b : ForestBuilder)
    (th : Nat → Thread) : Prop where
  forest : P.forest = .ok F
  feeds : Walk.Feeds P.grammar P.chart (ForestBuilder.handle P)
    ⟨some P.accepting, P.tokens.length, [], [], [], 0⟩ .empty w b
  /-- The walk is at its end. -/
  cursor : w.cursor = none
  branches : ∀ d ∈ w.branches, d.untried = []
  nodes : b.nodes = F.nodes
  root : b.root = some F.root
  settled : Settled P F.nodes th [] w.visited
  /-- Readings are lost exactly if the walk is at an item that it is still to come back to. -/
  judged : Exact P F.nodes (heldWeight P F.nodes th) ∧ P.NeverOverwrites ∨
    Lossy P F.nodes (heldWeight P F.nodes th) ∧ ¬ P.NeverOverwrites

/-- A forest is built for each complete parse. -/
theorem Parsing.Complete.exists_builds (hP : P.Complete) : ∃ F w b th, P.Builds F w b th := by
  obtain ⟨hstart, hfits⟩ := Walk.startAt_fits (G := P.grammar) hP.accepting
  obtain ⟨a, ha⟩ := hP.exists_antecedent_finish hP.accepting
  obtain ⟨a, untried, ha⟩ := List.exists_cons_of_ne_nil (List.ne_nil_of_mem ha)
  -- The walk goes into the phrase of the whole input first.
  have hm : Walk.Moves P.grammar P.chart ⟨some P.accepting, P.tokens.length, [], [], [], 0⟩ _ _ :=
    .finish hP.accepting List.not_mem_nil ha
  obtain ⟨b₁, acc₁, hh, hacc₁, he₁⟩ := exact_finish hP hP.accepting ha
  obtain ⟨limit, hlimit, heq⟩ := Walk.feed_step (ForestBuilder.handle P) id .empty hP hfits hm
    (Walk.potential_startAt_le hP hP.accepting)
  obtain ⟨b, w, acc, hfeed, hfeeds, hacc, hcur, hbs, hjudged⟩ :=
    hacc₁.feed hP (hm.fits hP hfits) (Or.inl he₁) hlimit
  obtain ⟨th, root, hset, rfl, hroot⟩ := hacc.settled hcur hbs
  refine ⟨⟨b.nodes, root⟩, w, b, th, ?_, .step hm hh hfeeds, hcur, hbs, rfl, hroot, hset, ?_⟩
  · rw [Parsing.forest, Parsing.walk, hstart]
    dsimp only
    rw [heq, hh]
    dsimp only
    rw [hfeed]
    dsimp only
    rw [ForestBuilder.finish, hroot]
  · rw [Parsing.neverOverwrites_iff hstart,
      Walk.neverOverwrites_iff (hm.next_eq hP.filled.indexed),
      and_iff_right (Walk.not_overwrites hP.accepting (by simp))]
    rcases hjudged with ⟨he, -, hn⟩ | ⟨hl, hnot⟩
    · exact Or.inl ⟨he, hn⟩
    · exact Or.inr ⟨hl, fun hn => hnot ⟨he₁, hn⟩⟩

/-- The forest of a complete parse is exhaustive exactly if nothing is overwritten. -/
lemma Parsing.Complete.forest_cases (hP : P.Complete) :
    ∃ F, P.forest = .ok F ∧ (F.Exhaustive P.grammar P.tokens ↔ P.NeverOverwrites) := by
  obtain ⟨F, w, b, th, hF⟩ := hP.exists_builds
  refine ⟨F, hF.forest, ?_⟩
  rcases hF.judged with ⟨he, hn⟩ | ⟨hl, hn⟩
  · exact iff_of_true (he.exhaustive hF.settled F.root) hn
  · exact iff_of_false (hl.not_exhaustive hF.settled F.root) hn

/-- A forest is built for each parse. It stores all readings of all its phrases, each of them once,
exactly if the walk is never at an item that it is still to come back to. -/
theorem forest_exhaustive_iff {G : Grammar} {tokens : List Token} {start : NonTerminal}
    {rules : List RuleDecl} (hG : Grammar.build start rules = .ok G)
    (hP : (G.recognize tokens).result = .ok P) :
    ∃ F, P.forest = .ok F ∧ (F.Exhaustive G tokens ↔ P.NeverOverwrites) := by
  obtain ⟨rfl, rfl, hc⟩ := complete_of_recognize (Grammar.closed_of_build hG) hP
  exact hc.forest_cases

/-- Both ways to put three tokens together are stored. -/
theorem forest_exhaustive_binaryConcat :
    Grammar.build ⟨"S"⟩ [Samples.rule "S" [[Samples.nt "S", Samples.nt "S"], [Samples.tm "a"]]] =
        .ok Samples.binaryConcat ∧
      ∃ P F, (Samples.binaryConcat.recognize [.plain "a", .plain "a", .plain "a"]).result = .ok P ∧
        P.forest = .ok F ∧ P.NeverOverwrites ∧
        F.Exhaustive Samples.binaryConcat [.plain "a", .plain "a", .plain "a"] := by
  have hbuild : Grammar.build ⟨"S"⟩
      [Samples.rule "S" [[Samples.nt "S", Samples.nt "S"], [Samples.tm "a"]]] =
        .ok Samples.binaryConcat := rfl
  have hrun : ((Samples.binaryConcat.recognize
      [.plain "a", .plain "a", .plain "a"]).result.toOption.any fun P => !P.overwrites) = true := by
    decide +kernel
  cases hP : (Samples.binaryConcat.recognize [.plain "a", .plain "a", .plain "a"]).result with
  | error e => simp [hP, Except.toOption] at hrun
  | ok P =>
    obtain ⟨F, hF, hex⟩ := forest_exhaustive_iff hbuild hP
    obtain ⟨-, -, hc⟩ := complete_of_recognize (Grammar.closed_of_build hbuild) hP
    have hnever := hc.overwrites_eq_false_iff.1 (by simpa [hP, Except.toOption] using hrun)
    exact ⟨hbuild, P, F, rfl, hF, hnever, hex.2 hnever⟩

/-- Before two tokens the walk is at an item that it is still to come back to, and one of the
readings of the input is missing. -/
theorem forest_not_exhaustive_tripleConcat :
    Grammar.build ⟨"S"⟩ [Samples.rule "S"
        [[Samples.tm "a"], [], [Samples.nt "S", Samples.nt "S", Samples.nt "S"]]] =
        .ok Samples.tripleConcat ∧
      ∃ P F, (Samples.tripleConcat.recognize [.plain "a", .plain "a"]).result = .ok P ∧
        P.forest = .ok F ∧ ¬ F.Exhaustive Samples.tripleConcat [.plain "a", .plain "a"] := by
  have hbuild : Grammar.build ⟨"S"⟩ [Samples.rule "S"
      [[Samples.tm "a"], [], [Samples.nt "S", Samples.nt "S", Samples.nt "S"]]] =
        .ok Samples.tripleConcat := rfl
  have hrun : ((Samples.tripleConcat.recognize [.plain "a", .plain "a"]).result.toOption.any
      Parsing.overwrites) = true := by
    decide +kernel
  cases hP : (Samples.tripleConcat.recognize [.plain "a", .plain "a"]).result with
  | error e => simp [hP, Except.toOption] at hrun
  | ok P =>
    obtain ⟨hgrammar, htokens, hc⟩ := complete_of_recognize (Grammar.closed_of_build hbuild) hP
    obtain ⟨F, hF, hex⟩ := hc.forest_cases
    refine ⟨hbuild, P, F, rfl, hF, fun hall => ?_⟩
    rw [← hgrammar, ← htokens, hex, ← hc.overwrites_eq_false_iff] at hall
    simp [hP, Except.toOption, hall] at hrun

end ParseForest
