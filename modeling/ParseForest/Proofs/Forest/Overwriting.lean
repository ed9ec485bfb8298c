import ParseForest.Proofs.Forest.Cycles
import ParseForest.Proofs.Forest.Exhaustive
import ParseForest.Proofs.Walk.Tracing

/-!
# Nothing is overwritten where ambiguity is finite

A walk that is at an item that it is still to come back to traces a thread within that item, which
by then can only belong to a phrase that is reached from a piece before the item. The piece is then
one of the phrase too, so that the phrase is a constituent of itself. If the input has finitely many
derivations there is no such phrase, and the forest stores all readings: `exhaustive_of_finite`.
-/

namespace ParseForest

variable {P : Parsing}

namespace SpineReader.Follows

open Walk

variable {w w' : Walk} {s : SpineReader} {act : List (Phrase × Thread)} {pend : List Postponed}
  {done : List (Phrase × Reading)}

lemma not_overwrites (hw : Walk.Fits P.grammar P.chart w) (h : Follows P w s act pend done)
    (hac : P.grammar.Acyclic P.tokens P.whole) : ¬ w.Overwrites P.chart := by
  rintro ⟨id, p, dot, o, k, hid, hx, b, hb, rfl, hne⟩
  have hfit := hw.branches b hb
  have hcol : k = w.column := by
    obtain ⟨v, o', hx', -⟩ := hw.cursor _ hid
    cases hx.symm.trans hx'
    rfl
  obtain ⟨cur, col, vis, cs, bs, fl⟩ := w
  obtain rfl : cur = some b.entry := hid
  obtain rfl : k = col := hcol
  obtain ⟨f, path, act', tail, -, rfl, -⟩ := h.stage.of_item hx
  rw [h.branches] at hb
  obtain ⟨q, hq, rfl⟩ := List.mem_map.1 hb
  have hlt := h.nested.lt q hq hne
  have hcov := h.nested.active _ List.mem_cons_self q hq
  obtain ⟨b, top, path', tail'⟩ := q
  cases hfit with
  | finish hx' => cases hx.symm.trans hx'
  | resume hx' =>
    cases hx.symm.trans hx'
    -- The thread that is next to be traced is the one of the item again.
    cases hcov _ rfl with
    | left hle => exact Nat.not_le_of_lt (hlt _ rfl) hle
    | same hdot => exact Nat.not_succ_le_self _ hdot
    | under hunder =>
      obtain ⟨ss, y, hss, hy, hyx⟩ := hunder
      obtain ⟨hent, hreads⟩ :=
        h.reads (r := ⟨_, ss ++ tail⟩) List.mem_cons_self ⟨rfl, ss, hss, rfl⟩
      exact hac _ (h.reached _ hent) (.head' ⟨_, hreads, List.mem_append_left _ hy⟩ hyx)

lemma neverOverwrites (hP : P.Complete) (hw : Walk.Fits P.grammar P.chart w)
    (h : Follows P w s act pend done) (hac : P.grammar.Acyclic P.tokens P.whole) :
    w.NeverOverwrites P.grammar P.chart := by
  intro w' hr
  have hlast : Walk.Fits P.grammar P.chart w' ∧
      ∃ s act pend done, Follows P w' s act pend done := by
    induction hr with
    | refl => exact ⟨hw, s, act, pend, done, h⟩
    | tail _ hadv ih =>
      obtain ⟨hw₁, s₁, act₁, pend₁, done₁, h₁⟩ := ih
      obtain ⟨ev, hnext⟩ := hadv
      have hm := hw₁.moves hP hnext
      obtain ⟨act', pend', done', -, h'⟩ := h₁.step hP hw₁ hm
      exact ⟨hm.fits hP hw₁, _, act', pend', done', h'⟩
  obtain ⟨hw', s', act', pend', done', h'⟩ := hlast
  exact h'.not_overwrites hw' hac

end SpineReader.Follows

/-- If no phrase of the input is a constituent of itself, the walk is never at an item that it is
still to come back to. -/
theorem Parsing.Complete.neverOverwrites_of_acyclic (hP : P.Complete)
    (hac : P.grammar.Acyclic P.tokens P.whole) : P.NeverOverwrites := by
  obtain ⟨hstart, hfits⟩ := Walk.startAt_fits (G := P.grammar) hP.accepting
  rw [P.neverOverwrites_iff hstart]
  exact (SpineReader.Follows.empty hP).neverOverwrites hP hfits hac

end ParseForest
