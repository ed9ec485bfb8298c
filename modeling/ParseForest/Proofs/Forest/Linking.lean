import ParseForest.Proofs.Forest.Levels
import ParseForest.Proofs.Walk.Enumeration
import ParseForest.Proofs.Forest.Packed

/-!
# Constituents are linked

A reader that follows the walk knows of which phrase each piece is. The builder may have put the
piece elsewhere, where a snapshot was overwritten, but only below the phrase: `Linked` says that the
builder stands below the phrases of the current leg, and that each piece that is chosen is below its
phrase in the graph. So in a finished forest there is a path from each phrase to each of its
constituents, `Builds.links`, and its graph has a cycle exactly if a phrase of the input is a
constituent of itself.
-/

namespace ParseForest

open Relation SpineReader

variable {P : Parsing} {nodes nodes' : Array ForestNode} {w w' : Walk} {ev : WalkEvent}
  {b b' : ForestBuilder} {act act' : List (Phrase × Thread)} {pend pend' : List Postponed}
  {done done' : List (Phrase × Reading)} {s : SpineReader}

/-- If the walk comes back to an item, what ends at `k` is left of the production of the item, or
belongs to a phrase that is below that of the item. -/
def SpineReader.Postponed.Guards (nodes : Array ForestNode) (q : Postponed) (k : Nat) (x : Phrase) :
    Prop :=
  ∀ s, q.branch.site = some s → k ≤ s.origin ∨ Reaches nodes q.top.phrase x

/-- The builder goes on below the phrase when the walk comes back to the entry. -/
def ForestBuilder.Restores (b : ForestBuilder) (entry : Nat) (x : Phrase) : Prop :=
  ∃ snap i rest y, b.snapshots.lookup entry = some snap ∧ snap.path = i :: rest ∧
    NodeOf b.nodes y i ∧ Reaches b.nodes x y

/-- What a builder has made of the pieces that a reader has chosen. -/
structure Linked (P : Parsing) (w : Walk) (b : ForestBuilder) (act : List (Phrase × Thread))
    (pend : List Postponed) (done : List (Phrase × Reading)) : Prop where
  /-- The builder stands below the phrases of the current leg. -/
  levels : Levels b.nodes b.path (act.map Prod.fst)
  restores : ∀ q ∈ pend, q.branch.untried ≠ [] → b.Restores q.branch.entry q.top.phrase
  active : ∀ a ∈ act, ∀ q ∈ pend, q.Guards b.nodes a.2.hi a.1
  /-- A phrase that is next belongs to the innermost one. -/
  called : ∀ y, Calls P w y → ∀ a, act.head? = some a → ∀ q ∈ pend, q.Guards b.nodes y.hi a.1
  postponed : pend.Pairwise fun q q' => q'.Guards b.nodes q.branch.column q.top.phrase
  /-- The pieces that are chosen are linked, but for one that is next. -/
  chosen : ∀ a ∈ act, ∀ y, .phrase y ∈ a.2.tail →
    Links b.nodes a.1 y ∨ Calls P w y ∧ act.head? = some a
  deferred : ∀ q ∈ pend, ∀ y, .phrase y ∈ q.tail → Links b.nodes q.top.phrase y
  traced : ∀ d ∈ done, ∀ y, .phrase y ∈ d.2.pieces → Links b.nodes d.1 y

/-! ### Growing -/

section Growing

variable {q : Postponed} {k k' : Nat} {x y : Phrase}

lemma SpineReader.Postponed.Guards.grows (h : q.Guards b.nodes k x) (hg : b.Grows b') :
    q.Guards b'.nodes k x :=
  fun s hs => (h s hs).imp_right hg.reaches

lemma SpineReader.Postponed.Guards.mono (h : q.Guards nodes k x) (hk : k' ≤ k) :
    q.Guards nodes k' x :=
  fun s hs => (h s hs).imp_left (Nat.le_trans hk)

lemma SpineReader.Postponed.Guards.trans (h : q.Guards nodes k x) (hone : PhrasesOnce nodes)
    (hxy : Reaches nodes x y) : q.Guards nodes k y :=
  fun s hs => (h s hs).imp_right fun hx => hx.trans hone hxy

lemma ForestBuilder.Restores.grows {entry : Nat} (h : b.Restores entry x) (hg : b.Grows b')
    (hsnap : b'.snapshots.lookup entry = b.snapshots.lookup entry) : b'.Restores entry x := by
  obtain ⟨snap, i, rest, y, hlook, hpath, hi, hx⟩ := h
  exact ⟨snap, i, rest, y, hsnap ▸ hlook, hpath, hi.evolves hg.evolves, hg.reaches hx⟩

/-- What the builder has saved for an entry, it has saved below each phrase that leads to where it
is. -/
lemma ForestBuilder.Saves.restores {entry : Nat} {xs : List Phrase} (h : b.Saves b' entry)
    (hl : Levels b'.nodes b'.path (x :: xs)) (hone : PhrasesOnce b'.nodes)
    (hy : Reaches b'.nodes y x) : b'.Restores entry y := by
  obtain ⟨children, hsnap⟩ := h
  obtain ⟨i, z, rest, hpath, hi, hx, -⟩ := ForestBuilder.outerPath_of_levels hl
  exact ⟨⟨b'.outerPath, children⟩, i, rest, z, by simp [hsnap], hpath, hi, hy.trans hone hx⟩

lemma ForestBuilder.Saves.lookup_eq {entry id : Nat} (h : b.Saves b' id) (hne : entry ≠ id) :
    b'.snapshots.lookup entry = b.snapshots.lookup entry := by
  obtain ⟨children, hsnap⟩ := h
  rw [hsnap, List.lookup_cons, beq_eq_false_iff_ne.2 hne]

/-- Saving where it is for an entry, the builder still goes on below the phrases that lead there. -/
lemma ForestBuilder.Restores.saves {entry id : Nat} {xs : List Phrase} {c : Bool}
    (h : b.Restores entry y) (hg : b.Grows b')
    (hs : if c then b.Saves b' id else b'.snapshots = b.snapshots)
    (hl : Levels b'.nodes b'.path (x :: xs)) (hone : PhrasesOnce b'.nodes)
    (hy : entry = id → Reaches b'.nodes y x) : b'.Restores entry y := by
  cases c with
  | false => exact h.grows hg (congrArg (List.lookup entry) hs)
  | true =>
    by_cases hid : entry = id
    · subst hid
      exact ForestBuilder.Saves.restores hs hl hone (hy rfl)
    · exact h.grows hg (ForestBuilder.Saves.lookup_eq hs hid)

end Growing

/-! ### Reports -/

lemma SpineReader.Calls.eq {id : Nat} {x y : Phrase} (h : Calls P w y) (hcur : w.cursor = some id)
    (hx : P.chart.place? id = some x.place) : y = x := by
  obtain ⟨id', hid, hy⟩ := h
  obtain rfl := Option.some.inj (hcur.symm.trans hid)
  obtain ⟨n, lo, hi⟩ := x
  obtain ⟨n', lo', hi'⟩ := y
  rw [hx] at hy
  cases hy
  rfl

/-- What the walk comes back to a finish for is its phrase. -/
lemma SpineReader.Postponed.Fits.phrase_eq {q : Postponed} (hq : q.Fits P)
    (hb : Walk.BranchFits P.grammar P.chart q.branch) {x : Phrase}
    (hx : P.chart.place? q.branch.entry = some x.place) : q.top.phrase = x := by
  obtain ⟨n, lo, hi⟩ := x
  cases hq with
  | finish hx' =>
    rw [hx] at hx'
    cases hx'
    rfl
  | resume =>
    cases hb with
    | resume hx' =>
      rw [hx] at hx'
      cases hx'

/-- No phrase has two nodes while the walk goes on. -/
lemma Accounts.phrasesOnce {acc : Phrase → Reading → Nat} (h : Accounts P w b acc) :
    PhrasesOnce b.nodes := by
  obtain ⟨th, fresh, saved, act, ⟨hphase, -, -, -, -⟩, -⟩ := h
  generalize b.path = path at hphase
  cases hphase with
  | idle hset => exact hset.unique
  | begun _ _ _ hset => exact hset.unique
  | inside _ _ _ hin => exact hin.settled.unique
  | calling _ _ _ _ hin => exact hin.settled.unique
  | leaving _ _ hin => exact hin.settled.unique

/-- A phrase that is next is a piece of the innermost one. -/
lemma SpineReader.Follows.act_ne_nil {acc : Phrase → Reading → Nat} {x : Phrase}
    (h : Follows P w s act pend done) (hacc : Accounts P w b acc)
    (hw : Walk.Fits P.grammar P.chart w) (hc : Calls P w x) : act ≠ [] := by
  obtain ⟨id, hcur, hx⟩ := hc
  obtain ⟨v, o, hx', -⟩ := hw.cursor id hcur
  obtain ⟨cursor, k, vis, cs, bs, fl⟩ := w
  obtain ⟨th, fresh, saved, act', ⟨hphase, -, -, -, -⟩, -⟩ := hacc
  obtain ⟨n, lo, hi⟩ := x
  dsimp only at hcur hx'
  subst hcur
  rw [hx] at hx'
  cases hx'
  obtain ⟨site, cs', -, -, -, -, -, rfl, -, -, hfl, -⟩ := hphase.of_finish hx
  obtain ⟨hwaits, -⟩ := h.stage.of_finish hx
  generalize s.path = path at hwaits
  cases hwaits with
  | nil hle =>
    rw [List.length_cons] at hle
    omega
  | cons => simp

namespace Linked

/-- If the piece that is next is linked, all pieces that are chosen are. -/
lemma links (h : Linked P w b act pend done) (hg : b.Grows b')
    (hnext : ∀ y, Calls P w y → ∀ a, act.head? = some a → Links b'.nodes a.1 y) :
    ∀ a ∈ act, ∀ y, .phrase y ∈ a.2.tail → Links b'.nodes a.1 y := by
  intro a ha y hy
  rcases h.chosen a ha y hy with hl | ⟨hc, hhead⟩
  · exact hg.links hl
  · exact hnext y hc a hhead

/-- A report after which the walk comes back to the same entries, and no phrase is next. -/
lemma pass (h : Linked P w b act pend done) (hg : b.Grows b')
    (hsnap : b'.snapshots = b.snapshots) (hcur' : ∀ y, ¬ Calls P w' y)
    (hl : Levels b'.nodes b'.path (act'.map Prod.fst))
    (hactive : ∀ a ∈ act', ∀ q ∈ pend, q.Guards b'.nodes a.2.hi a.1)
    (hchosen : ∀ a ∈ act', ∀ y, .phrase y ∈ a.2.tail → Links b'.nodes a.1 y)
    (htraced : ∀ d ∈ done', ∀ y, .phrase y ∈ d.2.pieces → Links b'.nodes d.1 y) :
    Linked P w' b' act' pend done' where
  levels := hl
  restores q hq hne := (h.restores q hq hne).grows hg (by rw [hsnap])
  active := hactive
  called y hy := absurd hy (hcur' y)
  postponed := h.postponed.imp fun hqq => hqq.grows hg
  chosen a ha y hy := Or.inl (hchosen a ha y hy)
  deferred q hq y hy := hg.links (h.deferred q hq y hy)
  traced := htraced

section Turns

variable {id k o p dot : Nat} {x y : Phrase} {tail : List Piece}

/-- A phrase that is gone into or met again is linked to the one that it is a piece of. -/
lemma links_of_puts (hone : PhrasesOnce b'.nodes) (h : Linked P w b act pend done)
    (hg : b.Grows b') {j : Nat} (hputs : b.Puts b' x j) :
    ∀ a, act.head? = some a → Links b'.nodes a.1 x := by
  intro a ha
  cases act with
  | nil => cases ha
  | cons a' act =>
    obtain rfl : a' = a := by simpa using ha
    obtain ⟨hj, hparent⟩ := hputs
    have hl := h.levels
    rw [List.map_cons] at hl
    obtain ⟨i, rest, kind, hpath, hkind, hleaf⟩ := hl.exists_kind
    rw [hpath] at hl
    exact (hg.levels hl).links hone (hparent i rest kind hpath hkind hleaf) hj

/-- The walk goes into a phrase. -/
lemma finish (hone : PhrasesOnce b'.nodes) (hfits : ∀ q ∈ pend, q.Fits P)
    (hbfits : ∀ q ∈ pend, Walk.BranchFits P.grammar P.chart q.branch) (hne : act ≠ [])
    (h : Linked P w b act pend done) (hg : b.Grows b') {a : Nat} {untried : List Nat}
    (hcur : w.cursor = some id) (hx : P.chart.place? id = some x.place)
    (ha : P.chart.antecedents id = a :: untried) (hcur' : ∀ y, ¬ Calls P w' y)
    (hh : b.handle P ⟨.visit, id, x.hi⟩ = .ok b') (cs : List CallSite) (path : List OpenSpine) :
    Linked P w' b' ((x, ⟨p, dot, x.lo, x.hi, padding dot x.lo⟩) :: act)
      (Postponed.defer ⟨⟨id, x.hi, cs, none, untried⟩, ⟨x, none, []⟩, path, []⟩ pend) done := by
  obtain ⟨j, hpath, hputs, hsaves⟩ := ForestBuilder.handle_enter hx hh
  have hself : Reaches b'.nodes x x := .refl ⟨j, hputs.1⟩
  have hl : Levels b'.nodes b'.path (x :: act.map Prod.fst) := by
    rw [hpath]
    exact .node hputs.1 hself (hg.levels h.levels)
  have hnext := h.links_of_puts hone hg hputs
  have hguards : ∀ q ∈ pend, q.Guards b'.nodes x.hi x := by
    obtain ⟨a₀, act₀, rfl⟩ := List.exists_cons_of_ne_nil hne
    exact fun q hq => ((h.called x ⟨id, hcur, hx⟩ a₀ rfl q hq).grows hg).trans hone
      (hnext a₀ rfl).reaches
  refine ⟨hl, ?_, fun c hc => ?_, fun y hy => absurd hy (hcur' y), ?_, fun c hc y hy => Or.inl ?_,
    ?_, fun d hd y hy => hg.links (h.traced d hd y hy)⟩
  · refine Postponed.forall_mem_defer (fun hne => ?_) fun q hq hne => ?_
    · have hbr := (Chart.branches_iff ha).2 hne
      rw [if_pos hbr] at hsaves
      exact hsaves.restores hl hone hself
    · refine (h.restores q hq hne).saves hg hsaves hl hone fun hid => ?_
      rw [(hfits q hq).phrase_eq (hbfits q hq) (hid ▸ hx)]
      exact hself
  · refine Postponed.forall_mem_defer (fun s hs => nomatch hs) fun q hq => ?_
    rcases List.mem_cons.1 hc with rfl | hc
    · exact hguards q hq
    · exact (h.active c hc q hq).grows hg
  · exact Postponed.pairwise_defer hguards (h.postponed.imp fun hqq => hqq.grows hg)
  · rcases List.mem_cons.1 hc with rfl | hc
    · exact absurd hy (Piece.phrase_not_mem_padding y _ _)
    · refine h.links hg (fun y hy => ?_) c hc y hy
      rw [hy.eq hcur hx]
      exact hnext
  · exact Postponed.forall_mem_defer nofun fun q hq y hy => hg.links (h.deferred q hq y hy)

/-- A phrase is met again. -/
lemma finishAgain (hone : PhrasesOnce b'.nodes) (h : Linked P w b act pend done) (hg : b.Grows b')
    (hcur : w.cursor = some id) (hx : P.chart.place? id = some x.place)
    (hcur' : ∀ y, ¬ Calls P w' y) (hh : b.handle P ⟨.revisit, id, x.hi⟩ = .ok b') :
    Linked P w' b' act pend done := by
  obtain ⟨hpath, hsnap, j, hputs⟩ := ForestBuilder.handle_revisit hx hh
  refine h.pass hg hsnap hcur' (by rw [hpath]; exact hg.levels h.levels)
    (fun c hc q hq => (h.active c hc q hq).grows hg) (h.links hg fun y hy => ?_)
    fun d hd y hy => hg.links (h.traced d hd y hy)
  rw [hy.eq hcur hx]
  exact h.links_of_puts hone hg hputs

/-- A reading has been traced. -/
lemma start {kind : WalkKind} {k : Nat}
    (h : Linked P w b ((x, ⟨p, 0, o, k, tail⟩) :: act) pend done)
    (hg : b.Grows b') (hcur : w.cursor = some id)
    (hx : P.chart.place? id = some ⟨.start x.symbol, o, k⟩) (hkind : kind ≠ .backtrack)
    (hcur' : ∀ y, ¬ Calls P w' y) (hh : b.handle P ⟨kind, id, k⟩ = .ok b') :
    Linked P w' b' act pend ((x, ⟨p, tail⟩) :: done) := by
  rw [ForestBuilder.handle_start hkind hx] at hh
  obtain ⟨hl, hsnap⟩ := ForestBuilder.levels_of_close hh h.levels
  have hlinks := h.links hg fun y hy => absurd hy (not_calls_of_place hcur hx (by simp) y)
  refine h.pass hg hsnap hcur' hl (fun c hc q hq => ?_) (fun c hc => ?_) fun d hd y hy => ?_
  · exact (h.active c (List.mem_cons_of_mem _ hc) q hq).grows hg
  · exact hlinks c (List.mem_cons_of_mem _ hc)
  · rcases List.mem_cons.1 hd with rfl | hd
    · exact hlinks _ List.mem_cons_self y hy
    · exact hg.links (h.traced d hd y hy)

/-- An item that does not branch is passed. -/
lemma passItem (hin : b.Inner) (h : Linked P w b act pend done) (hg : b.Grows b')
    (hcur : w.cursor = some id) (hx : P.chart.place? id = some ⟨.item p dot, o, k⟩)
    (hbr : P.chart.branches id = false) (hcur' : ∀ y, ¬ Calls P w' y)
    (hh : b.handle P ⟨.visit, id, k⟩ = .ok b') (hmap : act'.map Prod.fst = act.map Prod.fst)
    (hact : ∀ c ∈ act', ∃ c' ∈ act, c'.1 = c.1 ∧ c.2.hi ≤ c'.2.hi ∧
      ∀ y, .phrase y ∈ c.2.tail → .phrase y ∈ c'.2.tail) : Linked P w' b' act' pend done := by
  obtain ⟨hl, hsnap, -⟩ := ForestBuilder.handle_visit_item hx hin hh h.levels
  have hlinks := h.links hg fun y hy => absurd hy (not_calls_of_place hcur hx (by simp) y)
  refine h.pass hg (hsnap hbr) hcur' (hmap ▸ hl) (fun c hc q hq => ?_) (fun c hc y hy => ?_)
    fun d hd y hy => hg.links (h.traced d hd y hy)
  · obtain ⟨c', hc', heq, hle, -⟩ := hact c hc
    exact heq ▸ ((h.active c' hc' q hq).grows hg).mono hle
  · obtain ⟨c', hc', heq, -, htail⟩ := hact c hc
    exact heq ▸ hlinks c' hc' y (htail y hy)

/-- A phrase is chosen. -/
lemma resume (hone : PhrasesOnce b'.nodes) (hin : b.Inner)
    (hbfits : ∀ q ∈ pend, Walk.BranchFits P.grammar P.chart q.branch)
    (hlt : ∀ q ∈ pend, q.branch.untried ≠ [] → ∀ s, q.branch.site = some s →
      s.origin < q.branch.column) {f : OpenSpine} {a : Nat} {untried : List Nat}
    (h : Linked P w b ((f.phrase, ⟨p, dot + 1, o, y.hi, tail⟩) :: act) pend done)
    (hg : b.Grows b') (hcur : w.cursor = some id)
    (hx : P.chart.place? id = some ⟨.item p (dot + 1), o, y.hi⟩)
    (hs : P.grammar.symbolAt? p dot = some (.nonterminal y.symbol)) (hle : y.lo ≤ y.hi)
    (ha : P.chart.antecedents id = a :: untried) (hcur' : w'.cursor = some a)
    (hax : P.chart.place? a = some y.place) (hact : ∀ a ∈ act, a.2.hi ≤ o)
    (hh : b.handle P ⟨.visit, id, y.hi⟩ = .ok b') (cs : List CallSite) (path : List OpenSpine) :
    Linked P w' b' ((f.phrase, ⟨p, dot, o, y.lo, .phrase y :: tail⟩) :: act)
      (Postponed.defer ⟨⟨id, y.hi, cs, some ⟨p, dot, o⟩, untried⟩, f, path, tail⟩ pend) done := by
  obtain ⟨hl, hsnap, hsaves⟩ := ForestBuilder.handle_visit_item hx hin hh h.levels
  have hs' : P.grammar.prev? (.item p (dot + 1)) = some (.nonterminal y.symbol) := hs
  have hlinks := h.links hg fun y hy => absurd hy (not_calls_of_place hcur hx (by simp) y)
  have hself : Reaches b'.nodes f.phrase f.phrase := by
    obtain ⟨i, z, rest, -, -, hz, -⟩ := ForestBuilder.outerPath_of_levels hl
    exact .refl hz.known_left
  have htop : ∀ q ∈ pend, q.Guards b'.nodes y.hi f.phrase := fun q hq =>
    (h.active _ List.mem_cons_self q hq).grows hg
  have hsaved : if P.chart.branches id then b.Saves b' id else b'.snapshots = b.snapshots := by
    split
    · next hbr => exact hsaves _ hs' hbr
    · next hbr => exact hsnap (by simpa using hbr)
  refine ⟨hl, ?_, fun c hc => ?_, fun z hz c hc => ?_, ?_, fun c hc z hz => ?_, ?_,
    fun d hd z hz => hg.links (h.traced d hd z hz)⟩
  · refine Postponed.forall_mem_defer (fun hne => ?_) fun q hq hne => ?_
    · have hbr := (Chart.branches_iff ha).2 hne
      exact (hsaves _ hs' hbr).restores hl hone hself
    · refine (h.restores q hq hne).saves hg hsaved hl hone fun hid => ?_
      -- The item that the walk comes back to is this one, and it is not at its origin.
      obtain ⟨hsite, -⟩ := (hbfits q hq).site_eq (hid ▸ hx)
      obtain ⟨v, o', hx', -⟩ := (hbfits q hq).exists_place?
      rw [hid, hx] at hx'
      have hcol : y.hi = q.branch.column := (Place.mk.inj (Option.some.inj hx')).2.2
      have hlt' : o < q.branch.column := hlt q hq hne _ hsite
      refine (htop q hq _ hsite).resolve_left fun hle' => ?_
      dsimp only at hle'
      omega
  · refine Postponed.forall_mem_defer (fun s hs => ?_) fun q hq => ?_
    · cases hs
      rcases List.mem_cons.1 hc with rfl | hc
      · exact Or.inr hself
      · exact Or.inl (hact c hc)
    · rcases List.mem_cons.1 hc with rfl | hc
      · exact (htop q hq).mono hle
      · exact (h.active c (List.mem_cons_of_mem _ hc) q hq).grows hg
  · obtain rfl := Option.some.inj hc
    rw [hz.eq hcur' hax]
    refine Postponed.forall_mem_defer (fun s hs => ?_) htop
    cases hs
    exact Or.inr hself
  · exact Postponed.pairwise_defer htop (h.postponed.imp fun hqq => hqq.grows hg)
  · rcases List.mem_cons.1 hc with rfl | hc
    · rcases List.mem_cons.1 hz with hz | hz
      · cases hz
        exact Or.inr ⟨⟨a, hcur', hax⟩, rfl⟩
      · exact Or.inl (hlinks _ List.mem_cons_self z hz)
    · exact Or.inl (hlinks c (List.mem_cons_of_mem _ hc) z hz)
  · exact Postponed.forall_mem_defer (hlinks _ List.mem_cons_self) fun q hq z hz =>
      hg.links (h.deferred q hq z hz)

/-- The walk comes back to an entry. -/
lemma backtrack {q : Postponed} {dead : List Postponed} {a : Nat} {untried : List Nat} {τ : Thread}
    {v : Vertex} (h : Linked P w b act (dead ++ q :: pend) done) (hg : b.Grows b')
    (hx : P.chart.place? q.branch.entry = some ⟨v, o, q.branch.column⟩) (hv : ∀ n, v ≠ .start n)
    (hq : q.branch.untried = a :: untried) (hle : τ.hi ≤ q.branch.column)
    (htail : ∀ y, .phrase y ∈ τ.tail → .phrase y ∈ q.tail ∨ Calls P w' y)
    (hcur' : ∀ y, Calls P w' y → y.hi = q.branch.column)
    (hh : b.handle P ⟨.backtrack, q.branch.entry, q.branch.column⟩ = .ok b') :
    Linked P w' b' [(q.top.phrase, τ)] (q.rest untried :: pend) done := by
  obtain ⟨snap, i, rest, z, hlook, hpath, hi, hz⟩ := h.restores q (by simp) (by simp [hq])
  obtain ⟨hpost, hpend⟩ := List.pairwise_cons.1 (List.pairwise_append.1 h.postponed).2.1
  have hmem : ∀ d ∈ q.rest untried :: pend, ∃ d' ∈ dead ++ q :: pend, d'.top = d.top ∧
      d'.tail = d.tail ∧ d'.branch.entry = d.branch.entry ∧
      (d.branch.untried ≠ [] → d'.branch.untried ≠ []) := by
    intro d hd
    rcases List.mem_cons.1 hd with rfl | hd
    · exact ⟨q, by simp, rfl, rfl, rfl, fun _ => by simp [hq]⟩
    · exact ⟨d, by simp [hd], rfl, rfl, rfl, id⟩
  have hl₀ : Levels b.nodes snap.path [q.top.phrase] := by
    rw [hpath]
    exact .node hi hz .nil
  have hl : Levels b'.nodes b'.path [q.top.phrase] ∧ b'.snapshots = b.snapshots := by
    cases v with
    | start n => exact absurd rfl (hv n)
    | finish n =>
      rw [ForestBuilder.handle_backtrack_finish hx hlook] at hh
      cases hh
      exact ⟨hl₀, rfl⟩
    | item p dot =>
      rw [ForestBuilder.handle_backtrack_item hx hlook] at hh
      obtain ⟨y, x, hadds⟩ := ForestBuilder.exists_adds hh
      exact ⟨(ForestBuilder.Grows.adds hadds).levels_of_adds hadds rfl hl₀, hadds.snapshots⟩
  have hself : Reaches b'.nodes q.top.phrase q.top.phrase := .refl (hg.reaches hz).known_left
  have hguards : ∀ d ∈ q.rest untried :: pend, d.Guards b'.nodes q.branch.column q.top.phrase := by
    intro d hd
    rcases List.mem_cons.1 hd with rfl | hd
    · exact fun s hs => Or.inr hself
    · exact (hpost d hd).grows hg
  refine ⟨hl.1, fun d hd hne => ?_, fun c hc d hd => ?_, fun y hy c hc d hd => ?_, ?_,
    fun c hc y hy => ?_, fun d hd y hy => ?_, fun d hd y hy => hg.links (h.traced d hd y hy)⟩
  · obtain ⟨d', hd', htop, -, hentry, hne'⟩ := hmem d hd
    exact htop ▸ hentry ▸ (h.restores d' hd' (hne' hne)).grows hg (by rw [hl.2])
  · obtain rfl := List.mem_singleton.1 hc
    exact (hguards d hd).mono hle
  · obtain rfl := Option.some.inj hc
    rw [hcur' y hy]
    exact hguards d hd
  · exact List.pairwise_cons.2
      ⟨fun d hd => (hpost d hd).grows hg, hpend.imp fun hqq => hqq.grows hg⟩
  · obtain rfl := List.mem_singleton.1 hc
    rcases htail y hy with hy | hy
    · exact Or.inl (hg.links (h.deferred q (by simp) y hy))
    · exact Or.inr ⟨hy, rfl⟩
  · obtain ⟨d', hd', htop, htail', -⟩ := hmem d hd
    exact htop ▸ hg.links (h.deferred d' hd' y (htail' ▸ hy))

end Turns

/-- What a reader that follows a walk has chosen stays linked. -/
theorem step (hP : P.Complete) {acc acc' : Phrase → Reading → Nat} (hacc : Accounts P w b acc)
    (hacc' : Accounts P w' b' acc') (hw : Walk.Fits P.grammar P.chart w)
    (hf : Follows P w s act pend done) (h : Linked P w b act pend done)
    (hm : Walk.Moves P.grammar P.chart w ev w') (hh : b.handle P ev = .ok b')
    (hturn : Turn P w w' ev act pend done act' pend' done') : Linked P w' b' act' pend' done' := by
  have hone := hacc'.phrasesOnce
  have hg := hacc.grows hm hh
  have hin : ∀ {id}, w.cursor = some id → b.Inner := fun hcur => hacc.inner (by simp [hcur])
  have hbfits : ∀ q ∈ pend, Walk.BranchFits P.grammar P.chart q.branch := fun q hq =>
    hw.branches _ (by rw [hf.branches]; exact List.mem_map_of_mem hq)
  cases hturn with
  | finish hcur hx ha hcur' =>
    have hne : act ≠ [] := hf.act_ne_nil hacc hw ⟨_, hcur, hx⟩
    exact h.finish hone hf.fits hbfits hne hg hcur hx ha hcur' hh _ _
  | finishAgain hcur hx hcur' => exact h.finishAgain hone hg hcur hx hcur' hh
  | start hcur hx hkind hcur' => exact h.start hg hcur hx hkind hcur' hh
  | enter hcur hx hcur' =>
    exact h.passItem (hin hcur) hg hcur hx (hP.branches_enter hx) hcur' hh rfl fun c hc =>
      ⟨c, hc, rfl, Nat.le_refl _, fun _ => id⟩
  | scan hcur hx hs hcur' =>
    refine h.passItem (hin hcur) hg hcur hx (hP.branches_scan hx hs) hcur' hh rfl fun c hc => ?_
    rcases List.mem_cons.1 hc with rfl | hc
    · exact ⟨_, List.mem_cons_self, rfl, Nat.le_succ _, fun y hy => by simpa using hy⟩
    · exact ⟨c, List.mem_cons_of_mem _ hc, rfl, Nat.le_refl _, fun _ => id⟩
  | resume hcur hx hs hle ha hcur' hax hact =>
    exact h.resume hone (hin hcur) hbfits hf.nested.lt hg hcur hx hs hle ha hcur' hax hact hh _ _
  | backtrack hcur hx hv hdead hq hle htail hcur' =>
    exact h.backtrack hg hx hv hq hle htail hcur' hh

/-- After the first report the builder is in the node of the whole input. -/
lemma begins (hP : P.Complete) (hb : P.Begins w b)
    (hturn : Turn P ⟨some P.accepting, P.tokens.length, [], [], [], 0⟩ w
      ⟨.visit, P.accepting, P.tokens.length⟩ [] [] [] act pend done) :
    Linked P w b act pend done := by
  obtain ⟨acc, hacc, -⟩ := hb.exact
  generalize hev : (⟨.visit, P.accepting, P.tokens.length⟩ : WalkEvent) = ev at hturn
  generalize hnil : ([] : List Postponed) = pend₀ at hturn
  have hh := hb.handles
  rw [hev] at hh
  cases hturn with
  | finishAgain => cases hev
  | enter hcur hx =>
    cases hev
    rw [hP.accepting] at hx
    cases hx
  | backtrack hcur => cases hcur
  | @finish _ _ _ _ x _ _ _ _ _ _ hcur hx ha hcur' =>
    subst hnil
    obtain ⟨j, hpath, ⟨hj, -⟩, hsaves⟩ := ForestBuilder.handle_enter hx hh
    have hself := Reaches.refl ⟨j, hj⟩
    have hl : Levels b.nodes b.path [x] := by
      rw [hpath]
      exact .node hj hself .nil
    refine ⟨hl, ?_, fun c hc => ?_, fun y hy => absurd hy (hcur' y), ?_, fun c hc y hy => ?_, ?_,
      by simp⟩
    · refine Postponed.forall_mem_defer (fun hne => ?_) (by simp)
      have hbr := (Chart.branches_iff ha).2 hne
      rw [if_pos hbr] at hsaves
      exact hsaves.restores hl hacc.phrasesOnce hself
    · exact Postponed.forall_mem_defer (fun s hs => nomatch hs) (by simp)
    · exact Postponed.pairwise_defer (by simp) .nil
    · obtain rfl := List.mem_singleton.1 hc
      exact absurd hy (Piece.phrase_not_mem_padding y _ _)
    · exact Postponed.forall_mem_defer nofun (by simp)

end Linked

namespace Parsing.Builds

variable {F : Forest} {th : Nat → Thread}

/-- In a finished forest there is a path from each phrase to each of its constituents. -/
theorem links (hP : P.Complete) (h : P.Builds F w b th) {x y : Phrase}
    (hx : ReflTransGen (P.grammar.Has P.tokens) P.whole x) (hy : P.grammar.Has P.tokens x y) :
    Links F.nodes x y := by
  let Q (w : Walk) (b : ForestBuilder) : Prop :=
    ∃ s act pend done, Follows P w s act pend done ∧ Linked P w b act pend done
  have hQ : Q w b := by
    refine h.induction hP (fun hb => ?_) fun w w' ev b b' acc acc' hacc hacc' hw hm hh hq => ?_
    · obtain ⟨act, pend, done, hturn, hf⟩ := (Follows.empty hP).step hP
        (Walk.startAt_fits (G := P.grammar) hP.accepting).2 hb.moves
      exact ⟨_, act, pend, done, hf, .begins hP hb hturn⟩
    · obtain ⟨s, act, pend, done, hf, hl⟩ := hq
      obtain ⟨act', pend', done', hturn, hf'⟩ := hf.step hP hw hm
      exact ⟨_, act', pend', done', hf', hl.step hP hacc hacc' hw hf hm hh hturn⟩
  obtain ⟨s, act, pend, done, hf, hl⟩ := hQ
  obtain ⟨r, hr, hmem⟩ := hy
  have hd : (x, r) ∈ done :=
    (hf.mem_done_iff hP h.cursor h.branches).2 ⟨occurs_iff.2 ⟨hP.accepts, hx⟩, hr⟩
  rw [← h.nodes]
  exact hl.traced _ hd y hmem

/-- The graph of a finished forest has a cycle exactly if a phrase of the input is a constituent of
itself. -/
theorem acyclic_iff (hP : P.Complete) (h : P.Builds F w b th) :
    F.Acyclic ↔ P.grammar.Acyclic P.tokens P.whole := by
  refine ⟨fun hac x hx hxx => ?_, (h.sound hP).acyclic⟩
  have hlinks : ∀ y, TransGen (P.grammar.Has P.tokens) x y → Links F.nodes x y := by
    intro y hy
    induction hy with
    | single hxy => exact h.links hP hx hxy
    | tail hxz hzy ih =>
      exact ih.reaches.trans_links h.settled.unique
        (h.links hP (hx.trans hxz.to_reflTransGen) hzy)
  obtain ⟨i, j, hi, hj, hp⟩ := hlinks x hxx
  obtain rfl := h.settled.unique i j x hi hj
  exact hac i (TransGen.mono (fun _ _ hc => Forest.child_iff.2 hc) _ _ hp)

end Parsing.Builds

end ParseForest
