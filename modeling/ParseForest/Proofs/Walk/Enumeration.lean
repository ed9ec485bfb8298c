import ParseForest.Proofs.Walk.Tracing
import ParseForest.Tree.Builder
import Mathlib.Data.Set.Card
import Mathlib.Data.Finset.Card

/-!
# Walks enumerate spines

The walk from the accepting entry goes once into the finish of each phrase that occurs in a
derivation of the input, and into no other finish, and it traces each spine of each such phrase
once. This is `walk_enumerates_spines`, read off the account of a reader that has followed the walk
to its end.
-/

namespace ParseForest

/-- Whether the report says that the walk passes the entry for the first time. -/
def WalkEvent.isVisit (id : Nat) (ev : WalkEvent) : Bool :=
  ev.kind == .visit && ev.entry == id

namespace Walk

variable {G : Grammar} {c : Chart} {w w' : Walk} {ev : WalkEvent} {evs : List WalkEvent}
  {id o k : Nat} {n : NonTerminal}

/-- A report of a visit marks a finish that was not marked before. -/
lemma Moves.visit (hm : Moves G c w ev w') (hx : c.place? id = some ⟨.finish n, o, k⟩) :
    ((if ev.isVisit id then 1 else 0) + if id ∈ w.visited then 1 else 0) =
      if id ∈ w'.visited then 1 else 0 := by
  have other : ∀ {id' o' k' : Nat} {v : Vertex}, c.place? id' = some ⟨v, o', k'⟩ →
      v ≠ .finish n → id ≠ id' := by
    rintro id' o' k' v hx' hv rfl
    rw [hx] at hx'
    cases hx'
    exact hv rfl
  cases hm with
  | @finish id' k' o' a fl m vis untried cs bs hx' hid' ha =>
    by_cases h : id = id'
    · subst h
      simp [WalkEvent.isVisit, hid']
    · simp [WalkEvent.isVisit, h, Ne.symm h]
  | finishAgain _ _ hl => simp [WalkEvent.isVisit, hl.visited_eq]
  | start hx' _ hl =>
    have hne := other hx' nofun
    simp [WalkEvent.isVisit, hl.visited_eq, hne, Ne.symm hne]
  | startAgain _ _ hl => simp [WalkEvent.isVisit, hl.visited_eq]
  | enter hx' =>
    have hne := other hx' nofun
    simp [WalkEvent.isVisit, Ne.symm hne]
  | scan hx' =>
    have hne := other hx' nofun
    simp [WalkEvent.isVisit, Ne.symm hne]
  | resume hx' =>
    have hne := other hx' nofun
    simp [WalkEvent.isVisit, Ne.symm hne]
  | backtrack => simp [WalkEvent.isVisit]

lemma Runs.visits (hr : Runs G c w evs w') (hx : c.place? id = some ⟨.finish n, o, k⟩) :
    (evs.countP (·.isVisit id) + if id ∈ w.visited then 1 else 0) =
      if id ∈ w'.visited then 1 else 0 := by
  induction hr with
  | refl => simp
  | move hm _ ih =>
    have := hm.visit hx
    rw [List.countP_cons]
    omega

end Walk

namespace SpineReader

open Walk

variable {P : Parsing} {w : Walk} {s : SpineReader} {act : List (Phrase × Thread)}
  {pend : List Postponed} {done : List (Phrase × Reading)}

/-- At the end of a walk every reading that is owed has been traced. -/
lemma Follows.count_eq (h : Follows P w s act pend done) (hcur : w.cursor = none)
    (hbs : ∀ b ∈ w.branches, b.untried = []) (x : Phrase) (r : Reading) :
    done.count (x, r) = owed P w.visited x r := by
  have hpend : Postponed.weights P (pend ++ []) x r = 0 := by
    rw [Postponed.weights_dead, Postponed.weights_nil]
    intro q hq
    refine hbs _ ?_
    rw [h.branches]
    exact List.mem_map_of_mem hq
  have hsum := h.account x r
  rw [h.stage.act_eq_nil hcur, activeWeight_nil] at hsum
  rw [List.append_nil] at hpend
  omega

/-- At the end of a walk it has gone into the finish entries of what occurs in derivations. -/
lemma Follows.entered_iff (hP : P.Complete) (h : Follows P w s act pend done)
    (hcur : w.cursor = none) (hbs : ∀ b ∈ w.branches, b.untried = []) (x : Phrase) :
    Entered P.chart w.visited x ↔ P.grammar.Occurs P.tokens x := by
  rw [occurs_iff, and_iff_right hP.accepts]
  refine ⟨h.reached x, fun hx => ?_⟩
  induction hx with
  | refl =>
    rcases h.whole with hw | ⟨id, hid, -⟩
    · exact hw
    · rw [hcur] at hid
      cases hid
  | @tail y z _ hyz ih =>
    obtain ⟨r, hr, hz⟩ := hyz
    have hcount : 0 < done.count (y, r) := by
      rw [h.count_eq hcur hbs, owed_pos_iff]
      exact ⟨ih, hr⟩
    exact h.pieces _ (List.count_pos_iff.1 hcount) z hz

lemma Follows.mem_done_iff (hP : P.Complete) (h : Follows P w s act pend done)
    (hcur : w.cursor = none) (hbs : ∀ b ∈ w.branches, b.untried = []) {x : Phrase} {r : Reading} :
    (x, r) ∈ done ↔ P.grammar.Occurs P.tokens x ∧ P.grammar.Reads P.tokens x r := by
  rw [← List.count_pos_iff, h.count_eq hcur hbs, owed_pos_iff, h.entered_iff hP hcur hbs]

/-- At the end of a walk the spines of what occurs in derivations have been traced. -/
lemma Follows.mem_traced_iff (hP : P.Complete) (h : Follows P w s act pend done)
    (hcur : w.cursor = none) (hbs : ∀ b ∈ w.branches, b.untried = []) {x : Phrase} {σ : Spine} :
    (x, σ) ∈ s.traced ↔ P.grammar.Occurs P.tokens x ∧ P.chart.IsSpine P.grammar x σ := by
  rw [h.traced, List.mem_map]
  constructor
  · rintro ⟨⟨y, r⟩, hd, heq⟩
    cases heq
    obtain ⟨hocc, hr⟩ := (h.mem_done_iff hP hcur hbs).1 hd
    obtain ⟨id, -, hx⟩ := (h.entered_iff hP hcur hbs y).2 hocc
    exact ⟨hocc, (hP.isSpine_iff ⟨id, hx⟩).2 ⟨r, hr, rfl⟩⟩
  · rintro ⟨hocc, hσ⟩
    obtain ⟨id, -, hx⟩ := (h.entered_iff hP hcur hbs x).2 hocc
    obtain ⟨r, hr, rfl⟩ := (hP.isSpine_iff ⟨id, hx⟩).1 hσ
    exact ⟨(x, r), (h.mem_done_iff hP hcur hbs).2 ⟨hocc, hr⟩, rfl⟩

/-- At the end of a walk no spine has been traced twice. -/
lemma Follows.nodup_traced (hP : P.Complete) (h : Follows P w s act pend done)
    (hcur : w.cursor = none) (hbs : ∀ b ∈ w.branches, b.untried = []) : s.traced.Nodup := by
  have hdone : done.Nodup := by
    rw [List.nodup_iff_count_le_one]
    rintro ⟨x, r⟩
    exact h.count_eq hcur hbs x r ▸ owed_le_one
  rw [h.traced]
  refine List.Nodup.map_on ?_ hdone
  rintro ⟨x, r⟩ hd ⟨x', r'⟩ hd' heq
  simp only [Prod.mk.injEq] at heq
  obtain ⟨rfl, heq⟩ := heq
  rw [spine_inj ((h.mem_done_iff hP hcur hbs).1 hd).2 ((h.mem_done_iff hP hcur hbs).1 hd').2 heq]

end SpineReader

/-- A list without repetitions has as many elements of a kind as it lists. -/
lemma encard_eq_countP {α : Type} [DecidableEq α] {l : List α} (hl : l.Nodup) (q : α → Bool) :
    Set.encard {a | a ∈ l ∧ q a = true} = l.countP q := by
  have hset : {a | a ∈ l ∧ q a = true} = ↑(l.filter q).toFinset := by
    ext a
    simp
  rw [hset, Set.encard_coe_eq_coe_finsetCard, List.toFinset_card_of_nodup (hl.filter q),
    List.countP_eq_length_filter]

/-- The walk from the accepting entry enumerates the spines of what occurs in derivations of the
input. Every phrase that is a node of a permitted derivation has a finish entry; the walk visits the
finish entries of these phrases once and no others; each of their spines is traced to its start
once, and nothing else is; and so there are as many reports of the start of a nonterminal at a
position as there are spines of phrases of the nonterminal that begin at the position. -/
theorem walk_enumerates_spines {G : Grammar} {tokens : List Token} {start : NonTerminal}
    {rules : List RuleDecl} (hG : Grammar.build start rules = .ok G) {P : Parsing}
    (hP : (G.recognize tokens).result = .ok P) :
    ∃ (w : Walk) (evs : List WalkEvent), P.walk = .ok w ∧ Walk.Reports G P.chart w evs ∧
      (∀ x, G.Occurs tokens x → P.chart.Holds x.place) ∧
      (∀ id x, P.chart.place? id = some (Phrase.place x) →
        (G.Occurs tokens x → evs.countP (·.isVisit id) = 1) ∧
          (¬ G.Occurs tokens x → evs.countP (·.isVisit id) = 0)) ∧
      (SpineReader.tracedBy P.chart evs).Nodup ∧
      (∀ x σ, (x, σ) ∈ SpineReader.tracedBy P.chart evs ↔
        G.Occurs tokens x ∧ P.chart.IsSpine G x σ) ∧
      ∀ n lo, (evs.countP (·.isStart P.chart n lo) : ℕ∞) =
        Set.encard {y : Phrase × Spine | y.1.symbol = n ∧ y.1.lo = lo ∧ G.Occurs tokens y.1 ∧
          P.chart.IsSpine G y.1 y.2} := by
  obtain ⟨rfl, rfl, hc⟩ := complete_of_recognize (Grammar.closed_of_build hG) hP
  obtain ⟨hstart, hfits⟩ := Walk.startAt_fits (G := P.grammar) hc.accepting
  obtain ⟨evs, w', hr, hend, -⟩ := hfits.exists_runs hc
  obtain ⟨act, pend, done, h, hcount⟩ :=
    SpineReader.Follows.run hc hr hfits (SpineReader.Follows.empty hc)
  have hfinal : w'.cursor = none ∧ ∀ b ∈ w'.branches, b.untried = [] := by
    rcases Walk.next_cases hc (hr.fits hc hfits) with ⟨-, hcur, hbs⟩ | ⟨ev, w'', hm⟩
    · exact ⟨hcur, hbs⟩
    · have := hm.next_eq hc.filled.indexed
      rw [hend] at this
      cases this
  obtain ⟨hcur, hbs⟩ := hfinal
  have htraced : (SpineReader.tracedBy P.chart evs).Nodup := h.nodup_traced hc hcur hbs
  refine ⟨_, evs, hstart, hr.reports hc.filled.indexed hend, fun x hx => ?_, fun id x hx => ?_,
    htraced, fun x σ => h.mem_traced_iff hc hcur hbs, fun n lo => ?_⟩
  · obtain ⟨id, -, hid⟩ := (h.entered_iff hc hcur hbs x).2 hx
    exact ⟨id, hid⟩
  · have hvisits := hr.visits hx
    have hmem : id ∈ w'.visited ↔ P.grammar.Occurs P.tokens x := by
      rw [← h.entered_iff hc hcur hbs]
      refine ⟨fun hid => ⟨id, hid, hx⟩, ?_⟩
      rintro ⟨id', hid', hx'⟩
      rwa [hc.filled.indexed.place?_inj hx hx']
    rw [if_neg List.not_mem_nil, Nat.add_zero] at hvisits
    exact ⟨fun hocc => by rw [hvisits, if_pos (hmem.2 hocc)],
      fun hocc => by rw [hvisits, if_neg (mt hmem.1 hocc)]⟩
  · -- Both sides count what has been traced.
    have hlist : evs.countP (·.isStart P.chart n lo) =
        (SpineReader.tracedBy P.chart evs).countP fun y => y.1.isFrom n lo := by
      have := hcount n lo
      rw [List.countP_nil, Nat.zero_add] at this
      rw [← this, SpineReader.tracedBy, h.traced, List.countP_map]
      rfl
    rw [hlist, ← encard_eq_countP htraced]
    congr 1
    ext ⟨x, σ⟩
    simp only [Set.mem_ofPred_eq, SpineReader.tracedBy, h.mem_traced_iff hc hcur hbs,
      Phrase.isFrom, Bool.and_eq_true, beq_iff_eq]
    constructor
    · rintro ⟨hx, hn, hlo⟩
      exact ⟨hn, hlo, hx⟩
    · rintro ⟨hn, hlo, hx⟩
      exact ⟨hx, hn, hlo⟩

/-- In the cyclic grammar the walk goes once into the only finish, and each spine of it is traced
once, the one that goes through the finish itself included. -/
theorem walk_enumerates_spines_cyclic :
    Grammar.build ⟨"A"⟩ [Samples.rule "A" [[Samples.nt "A"], [Samples.tm "a"]]]
        = .ok Samples.cyclic ∧
      ∃ P, (Samples.cyclic.recognize [.plain "a"]).result = .ok P ∧
        ∃ (w : Walk) (evs : List WalkEvent), P.walk = .ok w ∧
          Walk.Reports Samples.cyclic P.chart w evs ∧ evs.countP (·.isVisit P.accepting) = 1 ∧
          ∀ σ, (⟨⟨"A"⟩, 0, 1⟩, σ) ∈ SpineReader.tracedBy P.chart evs ↔
            P.chart.IsSpine Samples.cyclic ⟨⟨"A"⟩, 0, 1⟩ σ := by
  have hbuild : Grammar.build ⟨"A"⟩ [Samples.rule "A" [[Samples.nt "A"], [Samples.tm "a"]]]
      = .ok Samples.cyclic := rfl
  have hG := Grammar.closed_of_build hbuild
  obtain ⟨P, hP⟩ := exists_recognize_of_accepts hG accepts_cyclic
  obtain ⟨hgrammar, htokens, hc⟩ := complete_of_recognize hG hP
  have hx : P.chart.place? P.accepting = some (Phrase.place ⟨⟨"A"⟩, 0, 1⟩) := by
    rw [hc.accepting, hgrammar, htokens]
    rfl
  have hocc : Samples.cyclic.Occurs [.plain "a"] ⟨⟨"A"⟩, 0, 1⟩ :=
    occurs_iff.2 ⟨accepts_cyclic, .refl⟩
  obtain ⟨w, evs, hw, hevs, -, hvisits, -, htraced, -⟩ := walk_enumerates_spines hbuild hP
  exact ⟨hbuild, P, hP, w, evs, hw, hevs, (hvisits _ _ hx).1 hocc, fun σ =>
    (htraced _ σ).trans (and_iff_right hocc)⟩

end ParseForest
