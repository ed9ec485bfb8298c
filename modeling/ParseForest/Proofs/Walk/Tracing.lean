import ParseForest.Proofs.Walk.Nesting
import ParseForest.Proofs.Walk.Total

/-!
# A reader follows a walk

What has been traced, what is going to be traced in the current leg, and what is going to be traced
from the entries that the walk comes back to add up: each reading of a phrase counts once if the
walk has gone into the finish of the phrase, and not at all otherwise. `Follows` puts this account
together with the state of the reader, and the main statements say that each report keeps it,
`Follows.step`, and so do the reports of a whole walk, `Follows.run`.
-/

namespace ParseForest

namespace SpineReader

open Walk

variable {P : Parsing} {w w' : Walk} {s s' : SpineReader} {ev : WalkEvent}
  {act act' : List (Phrase × Thread)} {pend pend' : List Postponed}
  {done done' : List (Phrase × Reading)}

/-! ### The account -/

/-- How often the reading of the phrase has to be traced in the end, as far as the walk has gone. -/
noncomputable def owed (P : Parsing) (visited : List Nat) (x : Phrase) (r : Reading) : Nat :=
  open Classical in if Entered P.chart visited x then readsWeight P.grammar P.tokens x r else 0

section Owed

variable {vis vis' : List Nat} {x : Phrase} {r : Reading}

lemma owed_of_entered (h : Entered P.chart vis x) :
    owed P vis x r = readsWeight P.grammar P.tokens x r :=
  if_pos h

lemma owed_of_not_entered (h : ¬ Entered P.chart vis x) : owed P vis x r = 0 :=
  if_neg h

lemma owed_congr (h : Entered P.chart vis' x ↔ Entered P.chart vis x) :
    owed P vis' x r = owed P vis x r := by
  by_cases hx : Entered P.chart vis x
  · rw [owed_of_entered hx, owed_of_entered (h.2 hx)]
  · rw [owed_of_not_entered hx, owed_of_not_entered (mt h.1 hx)]

lemma owed_pos_iff :
    0 < owed P vis x r ↔ Entered P.chart vis x ∧ P.grammar.Reads P.tokens x r := by
  by_cases hx : Entered P.chart vis x
  · rw [owed_of_entered hx, readsWeight_pos_iff]
    simp [hx]
  · simp [owed_of_not_entered hx, hx]

lemma owed_le_one : owed P vis x r ≤ 1 := by
  by_cases hx : Entered P.chart vis x
  · exact owed_of_entered hx ▸ readsWeight_le_one x
  · rw [owed_of_not_entered hx]
    exact Nat.zero_le 1

end Owed

/-! ### What a report changes -/

/-- The finish of the phrase is next. -/
def Calls (P : Parsing) (w : Walk) (x : Phrase) : Prop :=
  ∃ id, w.cursor = some id ∧ P.chart.place? id = some x.place

/-- How a report changes the threads of the current leg, the entries that the walk comes back to and
the readings that have been traced. -/
inductive Turn (P : Parsing) (w w' : Walk) : WalkEvent →
    (act : List (Phrase × Thread)) → (pend : List Postponed) → (done : List (Phrase × Reading)) →
    (act' : List (Phrase × Thread)) → (pend' : List Postponed) →
    (done' : List (Phrase × Reading)) → Prop where
  /-- The walk goes into a phrase, by one of its readings, and postpones the others. -/
  | finish {id a p dot : Nat} {x : Phrase} {untried : List Nat} {cs : List CallSite}
      {path : List OpenSpine} {act : List (Phrase × Thread)} {pend : List Postponed}
      {done : List (Phrase × Reading)} (hcur : w.cursor = some id)
      (hx : P.chart.place? id = some x.place) (ha : P.chart.antecedents id = a :: untried)
      (hcur' : ∀ y, ¬ Calls P w' y) :
      Turn P w w' ⟨.visit, id, x.hi⟩ act pend done
        ((x, ⟨p, dot, x.lo, x.hi, padding dot x.lo⟩) :: act)
        (Postponed.defer ⟨⟨id, x.hi, cs, none, untried⟩, ⟨x, none, []⟩, path, []⟩ pend) done
  /-- The walk does not go into a phrase again. -/
  | finishAgain {id : Nat} {x : Phrase} {act : List (Phrase × Thread)} {pend : List Postponed}
      {done : List (Phrase × Reading)} (hcur : w.cursor = some id)
      (hx : P.chart.place? id = some x.place) (hcur' : ∀ y, ¬ Calls P w' y) :
      Turn P w w' ⟨.revisit, id, x.hi⟩ act pend done act pend done
  /-- A reading has been traced. -/
  | start {id p : Nat} {kind : WalkKind} {x : Phrase} {tail : List Piece}
      {act : List (Phrase × Thread)} {pend : List Postponed} {done : List (Phrase × Reading)}
      (hcur : w.cursor = some id) (hx : P.chart.place? id = some ⟨.start x.symbol, x.lo, x.lo⟩)
      (hkind : kind ≠ .backtrack) (hcur' : ∀ y, ¬ Calls P w' y) :
      Turn P w w' ⟨kind, id, x.lo⟩ ((x, ⟨p, 0, x.lo, x.lo, tail⟩) :: act) pend done act pend
        ((x, ⟨p, tail⟩) :: done)
  /-- The walk is before the first symbol of a production. -/
  | enter {id p o k : Nat} {act : List (Phrase × Thread)} {pend : List Postponed}
      {done : List (Phrase × Reading)} (hcur : w.cursor = some id)
      (hx : P.chart.place? id = some ⟨.item p 0, o, k⟩) (hcur' : ∀ y, ¬ Calls P w' y) :
      Turn P w w' ⟨.visit, id, k⟩ act pend done act pend done
  /-- A token is chosen. -/
  | scan {id p dot o k : Nat} {t : Terminal} {x : Phrase} {tail : List Piece}
      {act : List (Phrase × Thread)} {pend : List Postponed} {done : List (Phrase × Reading)}
      (hcur : w.cursor = some id) (hx : P.chart.place? id = some ⟨.item p (dot + 1), o, k + 1⟩)
      (hs : P.grammar.symbolAt? p dot = some (.terminal t)) (hcur' : ∀ y, ¬ Calls P w' y) :
      Turn P w w' ⟨.visit, id, k + 1⟩ ((x, ⟨p, dot + 1, o, k + 1, tail⟩) :: act) pend done
        ((x, ⟨p, dot, o, k, .token k :: tail⟩) :: act) pend done
  /-- A phrase is chosen, and the others are postponed. -/
  | resume {id a p dot o : Nat} {y : Phrase} {f : OpenSpine} {tail : List Piece}
      {untried : List Nat} {cs : List CallSite} {path : List OpenSpine}
      {act : List (Phrase × Thread)} {pend : List Postponed} {done : List (Phrase × Reading)}
      (hcur : w.cursor = some id) (hx : P.chart.place? id = some ⟨.item p (dot + 1), o, y.hi⟩)
      (hs : P.grammar.symbolAt? p dot = some (.nonterminal y.symbol)) (hle : y.lo ≤ y.hi)
      (ha : P.chart.antecedents id = a :: untried) (hcur' : w'.cursor = some a)
      (hax : P.chart.place? a = some y.place) (hact : ∀ a ∈ act, a.2.hi ≤ o) :
      Turn P w w' ⟨.visit, id, y.hi⟩ ((f.phrase, ⟨p, dot + 1, o, y.hi, tail⟩) :: act) pend done
        ((f.phrase, ⟨p, dot, o, y.lo, .phrase y :: tail⟩) :: act)
        (Postponed.defer ⟨⟨id, y.hi, cs, some ⟨p, dot, o⟩, untried⟩, f, path, tail⟩ pend) done
  /-- The walk comes back to an entry for its next antecedent. -/
  | backtrack {a : Nat} {q : Postponed} {dead pend : List Postponed} {untried : List Nat}
      {τ : Thread} {done : List (Phrase × Reading)} {v : Vertex} {o : Nat} (hcur : w.cursor = none)
      (hx : P.chart.place? q.branch.entry = some ⟨v, o, q.branch.column⟩) (hv : ∀ n, v ≠ .start n)
      (hdead : ∀ d ∈ dead, d.branch.untried = []) (hq : q.branch.untried = a :: untried)
      (hle : τ.hi ≤ q.branch.column)
      (htail : ∀ y, .phrase y ∈ τ.tail → .phrase y ∈ q.tail ∨ Calls P w' y)
      (hcur' : ∀ y, Calls P w' y → y.hi = q.branch.column) :
      Turn P w w' ⟨.backtrack, q.branch.entry, q.branch.column⟩ [] (dead ++ q :: pend) done
        [(q.top.phrase, τ)] (q.rest untried :: pend) done

lemma not_calls_of_place {id : Nat} {x : Place} (hcur : w.cursor = some id)
    (hx : P.chart.place? id = some x) (hv : ∀ n, x.vertex ≠ .finish n) (y : Phrase) :
    ¬ Calls P w y := by
  rintro ⟨id', hid, hy⟩
  obtain rfl := Option.some.inj (hcur.symm.trans hid)
  rw [hx] at hy
  cases hy
  exact hv _ rfl

lemma not_calls_of_leaves {w₁ : Walk} (hl : Leaves P.chart w₁ w) (y : Phrase) : ¬ Calls P w y := by
  rintro ⟨id, hid, hy⟩
  exact hl.not_finish hid hy

/-- Another reading has been traced exactly if the report is one of a start. -/
lemma Turn.countP_eq (h : Turn P w w' ev act pend done act' pend' done') (n : NonTerminal)
    (j : Nat) :
    done'.countP (fun d => d.1.isFrom n j) =
      done.countP (fun d => d.1.isFrom n j) + if ev.isStart P.chart n j then 1 else 0 := by
  cases h with
  | finish _ hx => simp [WalkEvent.isStart, hx, Phrase.place]
  | finishAgain _ hx => simp [WalkEvent.isStart, hx, Phrase.place]
  | start _ hx => simp [WalkEvent.isStart, hx, Phrase.isFrom, List.countP_cons]
  | enter _ hx => simp [WalkEvent.isStart, hx]
  | scan _ hx => simp [WalkEvent.isStart, hx]
  | resume _ hx => simp [WalkEvent.isStart, hx]
  | backtrack _ hx hv => simp [WalkEvent.isStart, hx, hv]

/-! ### Following a walk -/

/-- What holds between a walk and a reader that was told its reports: `act` are the threads of the
current leg, `pend` the entries that the walk comes back to, and `done` the readings that have been
traced. -/
structure Follows (P : Parsing) (w : Walk) (s : SpineReader) (act : List (Phrase × Thread))
    (pend : List Postponed) (done : List (Phrase × Reading)) : Prop where
  stage : Stage P w s.path act
  branches : w.branches = pend.map Postponed.branch
  saved : s.saved = pend.flatMap Postponed.saved
  fits : ∀ q ∈ pend, q.Fits P
  traced : s.traced = done.map fun d => (d.1, d.2.spine d.1.lo)
  /-- Every reading is traced once in the end. -/
  account : ∀ x r, done.count (x, r) + activeWeight P act x r + Postponed.weights P pend x r =
    owed P w.visited x r
  /-- The walk meets the phrases of the pieces that are chosen. -/
  active : ∀ a ∈ act, ∀ y, .phrase y ∈ a.2.tail → Meets P.chart w y
  postponed : ∀ q ∈ pend, ∀ y, .phrase y ∈ q.tail → Entered P.chart w.visited y
  pieces : ∀ d ∈ done, ∀ y, .phrase y ∈ d.2.pieces → Entered P.chart w.visited y
  /-- The walk goes only into phrases that occur in derivations of the input. -/
  reached : ∀ x, Entered P.chart w.visited x →
    Relation.ReflTransGen (P.grammar.Has P.tokens) P.whole x
  whole : Meets P.chart w P.whole
  nested : Nested P w act pend

/-- The reader follows the walk after the report, by a turn. -/
def Followed (P : Parsing) (w : Walk) (ev : WalkEvent) (w' : Walk) (s : SpineReader)
    (act : List (Phrase × Thread)) (pend : List Postponed) (done : List (Phrase × Reading)) :
    Prop :=
  ∃ act' pend' done', Turn P w w' ev act pend done act' pend' done' ∧
    Follows P w' (s.read P.chart ev) act' pend' done'

namespace Follows

/-- A thread of the current leg becomes readings of a phrase whose finish the walk has gone into. -/
lemma reads (h : Follows P w s act pend done) {a : Phrase × Thread} (ha : a ∈ act) {r : Reading}
    (hr : a.2.Yields P.grammar P.tokens r) :
    Entered P.chart w.visited a.1 ∧ P.grammar.Reads P.tokens a.1 r := by
  have hpos := activeWeight_pos (P := P) ha hr
  have hsum := h.account a.1 r
  exact owed_pos_iff.1 (by omega)

/-- A report that leads into no finish keeps what holds, if what is still to be traced does not
change by it. -/
lemma advance (h : Follows P w s act pend done) (hm : Moves P.grammar P.chart w ev w')
    (hvis : ∀ x, Entered P.chart w'.visited x ↔ Entered P.chart w.visited x)
    (hstage : Stage P w' s'.path act') (hbranches : w'.branches = pend'.map Postponed.branch)
    (hsaved : s'.saved = pend'.flatMap Postponed.saved) (hfits : ∀ q ∈ pend', q.Fits P)
    (htraced : s'.traced = done'.map fun d => (d.1, d.2.spine d.1.lo))
    (haccount : ∀ x r, done'.count (x, r) + activeWeight P act' x r +
        Postponed.weights P pend' x r =
      done.count (x, r) + activeWeight P act x r + Postponed.weights P pend x r)
    (hactive : ∀ a ∈ act', ∀ y, .phrase y ∈ a.2.tail →
      Meets P.chart w' y ∨ ∃ b ∈ act, .phrase y ∈ b.2.tail)
    (hpostponed : ∀ q ∈ pend', ∀ y, .phrase y ∈ q.tail →
      (∃ b ∈ act, .phrase y ∈ b.2.tail) ∨ ∃ q' ∈ pend, .phrase y ∈ q'.tail)
    (hpieces : ∀ d ∈ done', ∀ y, .phrase y ∈ d.2.pieces →
      (∃ b ∈ act, .phrase y ∈ b.2.tail) ∨ d ∈ done)
    (hnested : (∀ a ∈ act', ∀ r, a.2.Yields P.grammar P.tokens r →
      P.grammar.Reads P.tokens a.1 r) → Nested P w' act' pend') :
    Follows P w' s' act' pend' done' := by
  have hchosen : ∀ {y : Phrase}, (∃ b ∈ act, .phrase y ∈ b.2.tail) →
      Entered P.chart w'.visited y := by
    rintro y ⟨b, hb, hy⟩
    exact hm.entered_of_meets (h.active b hb y hy)
  refine ⟨hstage, hbranches, hsaved, hfits, htraced, fun x r => ?_, fun a ha y hy => ?_,
    fun q hq y hy => ?_, fun d hd y hy => ?_, fun x hx => h.reached x ((hvis x).1 hx),
    Or.inl (hm.entered_of_meets h.whole), hnested fun a ha r hr => ?_⟩
  · rw [haccount, h.account, owed_congr (hvis x)]
  · exact (hactive a ha y hy).elim id fun hb => Or.inl (hchosen hb)
  · rcases hpostponed q hq y hy with hb | ⟨q', hq', hy⟩
    · exact hchosen hb
    · exact hm.entered (h.postponed q' hq' y hy)
  · rcases hpieces d hd y hy with hb | hd
    · exact hchosen hb
    · exact hm.entered (h.pieces d hd y hy)
  · have hpos := activeWeight_pos (P := P) ha hr
    have hsum := haccount a.1 r
    rw [h.account] at hsum
    have howed : 0 < owed P w.visited a.1 r := by omega
    exact (owed_pos_iff.1 howed).2

section Moves

variable {id k o p dot fl : Nat} {n : NonTerminal} {vis : List Nat} {cs : List CallSite}
  {bs : List Branch}

/-! ### Finish entries -/

/-- A finish that is next occurs in a derivation of the input. -/
lemma reached_of_finish (hP : P.Complete)
    (hw : Walk.Fits P.grammar P.chart ⟨some id, k, vis, cs, bs, fl⟩)
    (h : Follows P ⟨some id, k, vis, cs, bs, fl⟩ s act pend done)
    (hx : P.chart.place? id = some ⟨.finish n, o, k⟩) :
    Relation.ReflTransGen (P.grammar.Has P.tokens) P.whole ⟨n, o, k⟩ := by
  obtain ⟨hwaits, hcall | ⟨a, ha, hy⟩⟩ := h.stage.of_finish hx
  · rw [hcall]
  · obtain ⟨r, hr, hall⟩ := hwaits.exists_yields hP (hw.stacked rfl hx) a ha
    obtain ⟨hent, hreads⟩ := h.reads ha hr
    exact (h.reached _ hent).tail ⟨r, hreads, hall _ hy⟩

/-- Going into a finish, the readings of its phrase are shared out among its complete items. -/
lemma finish (hP : P.Complete) (hw : Walk.Fits P.grammar P.chart ⟨some id, k, vis, cs, bs, fl⟩)
    (h : Follows P ⟨some id, k, vis, cs, bs, fl⟩ s act pend done)
    (hx : P.chart.place? id = some ⟨.finish n, o, k⟩) (hid : id ∉ vis) {a : Nat}
    {untried : List Nat} (ha : P.chart.antecedents id = a :: untried) :
    Followed P ⟨some id, k, vis, cs, bs, fl⟩ ⟨.visit, id, k⟩
      ⟨some a, k, id :: vis, cs, Walk.defer ⟨id, k, cs, none, untried⟩ bs, fl⟩ s act pend done := by
  have hm : Moves P.grammar P.chart ⟨some id, k, vis, cs, bs, fl⟩ _ _ := .finish hx hid ha
  obtain ⟨hwaits, -⟩ := h.stage.of_finish hx
  obtain ⟨p, prod, hp, rfl, hax⟩ :=
    (hP.mem_antecedents_finish_iff hx).1 (by rw [ha]; exact List.mem_cons_self)
  have hnew : ¬ Entered P.chart vis ⟨prod.head, o, k⟩ := by
    rintro ⟨id', hid', hx'⟩
    exact hid (hP.filled.indexed.place?_inj hx' hx ▸ hid')
  let q : Postponed :=
    ⟨⟨id, k, cs, none, untried⟩, ⟨⟨prod.head, o, k⟩, none, []⟩, s.path, []⟩
  rw [Followed, read_finish hx, ha]
  refine ⟨(⟨prod.head, o, k⟩, ⟨p, prod.body.length, o, k, padding prod.body.length o⟩) :: act,
    q.defer pend, done,
    .finish (x := q.top.phrase) rfl hx ha (not_calls_of_place rfl hax (by simp)),
    ?_, ?_, ?_, ?_, h.traced, fun x r => ?_, fun b hb y hy => ?_, fun d hd y hy => ?_,
    fun d hd y hy => (h.pieces d hd y hy).cons id, fun x hent => ?_,
    Or.inl (hm.entered_of_meets h.whole), ?_⟩
  · exact .inside hax ⟨rfl, prod, hp, rfl⟩ (Piece.ends_padding _ _).symm hwaits
  · rw [Postponed.map_branch_defer, ← h.branches]
  · rw [Postponed.flatMap_saved_defer, ← h.saved]
    rfl
  · exact Postponed.forall_mem_defer (.finish hx) h.fits
  · have hsum := h.account x r
    rw [activeWeight_cons, Postponed.weights_defer]
    by_cases heq : x = ⟨prod.head, o, k⟩
    · subst heq
      rw [owed_of_not_entered hnew] at hsum
      rw [owed_of_entered ((entered_cons_finish hx).2 (Or.inl rfl)), hP.weight_finish [] hx, ha,
        threadsWeight_cons, thread_none hax, added_self]
      simp only [Postponed.weight, q, if_true]
      omega
    · have hiff : Entered P.chart (id :: vis) x ↔ Entered P.chart vis x := by
        rw [entered_cons_finish hx]
        simp [heq]
      rw [owed_congr hiff, ← hsum, added, Postponed.weight, if_neg (Ne.symm heq),
        if_neg (Ne.symm heq)]
      omega
  · rcases List.mem_cons.1 hb with rfl | hb
    · exact absurd hy (Piece.phrase_not_mem_padding y _ _)
    · exact Or.inl (hm.entered_of_meets (h.active b hb y hy))
  · refine Postponed.forall_mem_defer (Q := fun d => .phrase y ∈ d.tail → _) (fun hy => ?_)
      (fun d hd hy => (h.postponed d hd y hy).cons id) d hd hy
    cases hy
  · rcases (entered_cons_finish hx).1 hent with rfl | hent
    · exact h.reached_of_finish hP hw hx
    · exact h.reached x hent
  · exact h.nested.of_finish (h.nested.called id ⟨prod.head, o, k⟩ rfl hx) rfl rfl rfl
      (not_finish_of_place hax (by simp))

/-- A finish that is met again is a piece of the spine that it was called from, and no more. -/
lemma finishAgain (h : Follows P ⟨some id, k, vis, cs, bs, fl⟩ s act pend done)
    (hx : P.chart.place? id = some ⟨.finish n, o, k⟩) (hid : id ∈ vis)
    (hl : Leaves P.chart ⟨some id, o, vis, cs, bs, fl⟩ w') :
    Followed P ⟨some id, k, vis, cs, bs, fl⟩ ⟨.revisit, id, k⟩ w' s act pend done := by
  obtain ⟨hwaits, -⟩ := h.stage.of_finish hx
  rw [Followed, read_finishAgain hx]
  refine ⟨act, pend, done, .finishAgain (x := ⟨n, o, k⟩) rfl hx (not_calls_of_leaves hl), ?_⟩
  refine h.advance (.finishAgain hx hid hl) (fun x => by rw [hl.visited_eq]) (hwaits.leaves hl)
    (hl.branches_eq.trans h.branches) h.saved h.fits h.traced (fun _ _ => rfl)
    (fun a ha y hy => Or.inr ⟨a, ha, hy⟩) (fun q hq y hy => Or.inr ⟨q, hq, hy⟩)
    (fun d hd y hy => Or.inr hd) fun _ => h.nested.pass h.nested.active fun _ _ => hl.not_finish

/-! ### Starts -/

/-- At the start of its nonterminal the innermost spine has been traced. -/
lemma start (hP : P.Complete) (h : Follows P ⟨some id, k, vis, cs, bs, fl⟩ s act pend done)
    (hx : P.chart.place? id = some ⟨.start n, o, k⟩) {kind : WalkKind} (hkind : kind ≠ .backtrack)
    {vis' : List Nat}
    (hm : Moves P.grammar P.chart ⟨some id, k, vis, cs, bs, fl⟩ ⟨kind, id, k⟩ w')
    (hvis : ∀ x, Entered P.chart vis' x ↔ Entered P.chart vis x)
    (hl : Leaves P.chart ⟨some id, k, vis', cs, bs, fl⟩ w') :
    Followed P ⟨some id, k, vis, cs, bs, fl⟩ ⟨kind, id, k⟩ w' s act pend done := by
  obtain ⟨f, p, path, act', tail, hpath, rfl, rfl, rfl, hf, hprod, hpos, hwaits⟩ :=
    h.stage.of_start hx
  obtain ⟨f, fprod, fpos⟩ := f
  obtain rfl : f.lo = o := hf.lo
  obtain rfl : fprod = some p := hprod
  obtain rfl : fpos = f.lo :: Piece.ends tail := hpos
  obtain ⟨prod, hp, -⟩ := hf.prod
  have hle : f.lo ≤ P.tokens.length := (hP.valid hx).bounds.2
  rw [Followed, read_start hx hkind, close_eq hpath]
  refine ⟨act', pend, (f, ⟨p, tail⟩) :: done, .start rfl hx hkind (not_calls_of_leaves hl), ?_⟩
  refine h.advance hm (fun x => by rw [hl.visited_eq]; exact hvis x) (hwaits.leaves hl)
    (hl.branches_eq.trans h.branches) h.saved h.fits ?_ (fun x r => ?_)
    (fun a ha y hy => Or.inr ⟨a, List.mem_cons_of_mem _ ha, hy⟩)
    (fun q hq y hy => Or.inr ⟨q, hq, hy⟩) (fun d hd y hy => ?_) fun _ =>
      h.nested.pass (fun a ha => h.nested.active a (List.mem_cons_of_mem _ ha)) fun _ _ =>
        hl.not_finish
  · simp [h.traced, Reading.spine]
  · have hone : Thread.weight P.grammar P.tokens ⟨p, 0, f.lo, f.lo, tail⟩ r =
        if r = ⟨p, tail⟩ then 1 else 0 := by
      unfold Thread.weight
      simp only [yields_zero_iff hp hle]
    simp only [activeWeight_cons, added, hone, List.count_cons, beq_iff_eq, Prod.mk.injEq]
    by_cases hfx : f = x
    · by_cases hr : r = ⟨p, tail⟩
      · simp [hfx, hr]
        omega
      · simp [hfx, hr, Ne.symm hr]
    · simp [hfx]
  · rcases List.mem_cons.1 hd with rfl | hd
    · exact Or.inl ⟨_, List.mem_cons_self, hy⟩
    · exact Or.inr hd

/-! ### Items -/

/-- Before its first symbol all items of the innermost spine are read. -/
lemma enter (hP : P.Complete) (h : Follows P ⟨some id, k, vis, cs, bs, fl⟩ s act pend done)
    {prod : Production} {st : Nat} (hx : P.chart.place? id = some ⟨.item p 0, o, k⟩)
    (hp : P.grammar.prods[p]? = some prod)
    (hs : P.chart.place? st = some ⟨.start prod.head, o, k⟩) :
    Followed P ⟨some id, k, vis, cs, bs, fl⟩ ⟨.visit, id, k⟩ ⟨some st, k, vis, cs, bs, fl⟩ s act
      pend done := by
  obtain ⟨rfl, -⟩ := hP.holds_start_of_enter hp hx
  obtain ⟨f, path, act', tail, hpath, rfl, hf, hpos, hwaits⟩ := h.stage.of_item hx
  obtain ⟨prod', hp', hhead⟩ := hf.prod
  obtain rfl := Option.some.inj (hp.symm.trans hp')
  rw [Followed, read_item_of_branches_eq_false hx (hP.branches_enter hx), passItem_eq hpath]
  rw [hhead] at hs
  refine ⟨_, pend, done, .enter rfl hx (not_calls_of_place rfl hs (by simp)), ?_⟩
  exact h.advance (.enter hx hp (hhead ▸ hs)) (fun _ => Iff.rfl)
    (.leaving (f := ⟨f.phrase, some p, o :: f.positions⟩) hs ⟨hf.lo, hf.prod⟩
      rfl (by rw [hpos]) hwaits)
    h.branches h.saved h.fits h.traced (fun _ _ => rfl) (fun a ha y hy => Or.inr ⟨a, ha, hy⟩)
    (fun q hq y hy => Or.inr ⟨q, hq, hy⟩) (fun d hd y hy => Or.inr hd) fun _ =>
      h.nested.pass h.nested.active (not_finish_of_place hs (by simp))

/-- Going back over a terminal chooses its token. -/
lemma scan (hP : P.Complete) (h : Follows P ⟨some id, k + 1, vis, cs, bs, fl⟩ s act pend done)
    {t : Terminal} {b : Nat} (hx : P.chart.place? id = some ⟨.item p (dot + 1), o, k + 1⟩)
    (hs : P.grammar.symbolAt? p dot = some (.terminal t))
    (hb : P.chart.place? b = some ⟨.item p dot, o, k⟩) :
    Followed P ⟨some id, k + 1, vis, cs, bs, fl⟩ ⟨.visit, id, k + 1⟩ ⟨some b, k, vis, cs, bs, fl⟩ s
      act pend done := by
  obtain ⟨f, path, act', tail, hpath, rfl, hf, hpos, hwaits⟩ := h.stage.of_item hx
  obtain ⟨i, u, hi, hu, rfl, -⟩ := hP.holds_item_of_scan hs hx
  obtain rfl := Nat.succ.inj hi
  have hstage : Stage P ⟨some b, k, vis, cs, bs, fl⟩
      (⟨f.phrase, some p, (k + 1) :: f.positions⟩ :: path)
      ((f.phrase, ⟨p, dot, o, k, .token k :: tail⟩) :: act') :=
    .inside hb ⟨hf.lo, hf.prod⟩ (by simp [hpos]) hwaits
  rw [Followed, read_item_of_branches_eq_false hx (hP.branches_scan hx hs), passItem_eq hpath]
  refine ⟨_, pend, done, .scan rfl hx hs (not_calls_of_place rfl hb (by simp)), ?_⟩
  refine h.advance (.scan hx hs hb) (fun _ => Iff.rfl) hstage h.branches h.saved h.fits h.traced
    (fun x r => ?_) (fun a ha y hy => ?_) (fun q hq y hy => Or.inr ⟨q, hq, hy⟩)
    (fun d hd y hy => Or.inr hd) fun _ =>
      h.nested.pass (fun a ha q hq => ?_) (not_finish_of_place hb (by simp))
  · rw [activeWeight_cons, activeWeight_cons, added, added,
      weight_eq_of_iff (yields_scan_iff hs hu)]
  · rcases List.mem_cons.1 ha with rfl | ha
    · exact Or.inr ⟨_, List.mem_cons_self, by simpa using hy⟩
    · exact Or.inr ⟨a, List.mem_cons_of_mem _ ha, hy⟩
  · rcases List.mem_cons.1 ha with rfl | ha
    · exact fun s' hs' => (h.nested.active _ List.mem_cons_self q hq s' hs').choose
        (hP.appends_of_scan hb hs hu)
    · exact h.nested.active a (List.mem_cons_of_mem _ ha) q hq

/-- Going back into a nonterminal, the readings of the thread are shared out among the
antecedents. -/
lemma resume (hP : P.Complete) (hw : Walk.Fits P.grammar P.chart ⟨some id, k, vis, cs, bs, fl⟩)
    (h : Follows P ⟨some id, k, vis, cs, bs, fl⟩ s act pend done) {a : Nat} {untried : List Nat}
    (hx : P.chart.place? id = some ⟨.item p (dot + 1), o, k⟩)
    (hs : P.grammar.symbolAt? p dot = some (.nonterminal n))
    (ha : P.chart.antecedents id = a :: untried) :
    Followed P ⟨some id, k, vis, cs, bs, fl⟩ ⟨.visit, id, k⟩
      ⟨some a, k, vis, ⟨p, dot, o⟩ :: cs,
        Walk.defer ⟨id, k, cs, some ⟨p, dot, o⟩, untried⟩ bs, fl⟩ s act pend done := by
  obtain ⟨f, path, act', tail, hpath, rfl, hf, hpos, hwaits⟩ := h.stage.of_item hx
  obtain ⟨m, hax, -, happ⟩ :=
    hP.appends_of_mem hx hs (by rw [ha]; exact List.mem_cons_self)
  have hcs := hw.stacked rfl hx
  let g : OpenSpine := ⟨f.phrase, some p, k :: f.positions⟩
  have hg : Made P.grammar p o g := ⟨hf.lo, hf.prod⟩
  let q : Postponed := ⟨⟨id, k, cs, some ⟨p, dot, o⟩, untried⟩, g, path, tail⟩
  rw [Followed, read_item hx, ha, passItem_eq hpath]
  refine ⟨(g.phrase, ⟨p, dot, o, m, .phrase ⟨n, m, k⟩ :: tail⟩) :: act', q.defer pend, done,
    .resume (y := ⟨n, m, k⟩) (f := g) rfl hx hs happ.le ha rfl hax (hwaits.hi_le hP hcs),
    h.advance (.resume hx hs ha) (fun _ => Iff.rfl) (.calling hax ?_ ?_) ?_ ?_ ?_ h.traced
    (fun x r => ?_) (fun b hb y hy => ?_) (fun d hd y hy => ?_) (fun d hd y hy => Or.inr hd)
    fun hreads => ?_⟩
  · exact .cons hw.floor_le hg (by simp [hpos]) hwaits
  · exact Or.inr ⟨_, List.mem_cons_self, List.mem_cons_self⟩
  · rw [Postponed.map_branch_defer, ← h.branches]
  · rw [Postponed.flatMap_saved_defer, ← h.saved]
    rfl
  · exact Postponed.forall_mem_defer (.resume hg (by simp [g, hpos])) h.fits
  · have hsum : Thread.weight P.grammar P.tokens ⟨p, dot + 1, o, k, tail⟩ r =
        Thread.weight P.grammar P.tokens ⟨p, dot, o, m, .phrase ⟨n, m, k⟩ :: tail⟩ r +
          threadsWeight P (some ⟨p, dot, o⟩) tail untried r := by
      rw [hP.weight_resume hs hx, ha, threadsWeight_cons, thread_some hax]
    simp only [activeWeight_cons, Postponed.weights_defer, added, Postponed.weight, q, g, hsum]
    split <;> omega
  · rcases List.mem_cons.1 hb with rfl | hb
    · rcases List.mem_cons.1 hy with hy | hy
      · cases hy
        exact Or.inl (Or.inr ⟨a, rfl, hax⟩)
      · exact Or.inr ⟨_, List.mem_cons_self, hy⟩
    · exact Or.inr ⟨b, List.mem_cons_of_mem _ hb, hy⟩
  · refine Postponed.forall_mem_defer (Q := fun d => .phrase y ∈ d.tail → _) (fun hy => ?_)
      (fun d hd hy => Or.inr ⟨d, hd, hy⟩) d hd hy
    exact Or.inl ⟨_, List.mem_cons_self, hy⟩
  · have hhas : P.grammar.Has P.tokens g.phrase ⟨n, m, k⟩ :=
      happ.has (hreads _ List.mem_cons_self)
    refine .of_choice (y := ⟨n, m, k⟩) rfl hax ?_ (fun b hb => ?_) ?_ ?_
    · exact Postponed.forall_mem_defer (Postponed.choose_own rfl rfl happ) fun d hd =>
        (h.nested.active _ List.mem_cons_self d hd).choose happ hhas
    · refine Postponed.forall_mem_defer (fun s' hs' => ?_) fun d hd =>
        h.nested.active b (List.mem_cons_of_mem _ hb) d hd
      cases hs'
      exact .left (hwaits.hi_le hP hcs b hb)
    · exact Postponed.pairwise_defer (fun d hd => h.nested.active _ List.mem_cons_self d hd)
        h.nested.postponed
    · refine Postponed.forall_mem_defer (fun hne s' hs' => ?_) h.nested.lt
      cases hs'
      exact hP.lt_of_branches hx hs ha hne

/-! ### Coming back -/

/-- Coming back to an entry, the reader goes on from what it has saved for the entry. -/
lemma backtrack (hP : P.Complete) {b : Branch} {dead : List Branch} {a : Nat} {untried : List Nat}
    (hw : Walk.Fits P.grammar P.chart ⟨none, k, vis, cs, dead ++ b :: bs, fl⟩)
    (h : Follows P ⟨none, k, vis, cs, dead ++ b :: bs, fl⟩ s act pend done)
    (hdead : ∀ d ∈ dead, d.untried = []) (hb : b.untried = a :: untried) :
    Followed P ⟨none, k, vis, cs, dead ++ b :: bs, fl⟩ ⟨.backtrack, b.entry, b.column⟩
      ⟨some a, b.column, vis, b.site.toList ++ b.callers, { b with untried := untried } :: bs,
        b.callers.length⟩ s act pend done := by
  have hm : Moves P.grammar P.chart ⟨none, k, vis, cs, dead ++ b :: bs, fl⟩ _ _ :=
    .backtrack hdead hb
  obtain rfl := h.stage.act_eq_nil rfl
  -- What is postponed are the dead entries, the entry that the walk comes back to, and others.
  obtain ⟨dq, rest, rfl, rfl, hrest⟩ := List.map_eq_append_iff.1 h.branches.symm
  obtain ⟨q, qs, rfl, rfl, rfl⟩ := List.map_eq_cons_iff.1 hrest
  have hdead' : ∀ d ∈ dq, d.branch.untried = [] := fun d hd => hdead _ (List.mem_map_of_mem hd)
  have hfit : BranchFits P.grammar P.chart q.branch := hw.branches _ (by simp)
  obtain ⟨v, o, hx, hv⟩ := hfit.exists_place?
  obtain ⟨hle, hcol⟩ := hfit.column_of_mem hP (a := a) (by simp [hb]) q.tail
  have hsaved : s.saved =
      (q.top :: q.path) :: (q.rest untried :: qs).flatMap Postponed.saved := by
    rw [h.saved, List.flatMap_append, Postponed.saved_dead hdead', List.flatMap_cons,
      Postponed.saved_cons hb]
    rfl
  have hq : q.Fits P := h.fits q (by simp)
  obtain ⟨hstage, htail⟩ :=
    hq.stage hP hfit (a := a) (by simp [hb]) vis ((q.rest untried :: qs).map Postponed.branch)
  rw [Followed, read_backtrack hx, restore_eq hsaved]
  refine ⟨_, q.rest untried :: qs, done, .backtrack rfl hx hv hdead' hb hle (fun y hy => ?_) ?_,
    h.advance hm (fun _ => Iff.rfl) hstage rfl rfl (fun d hd => ?_) h.traced (fun x r => ?_)
    (fun c hc y hy => ?_) (fun d hd y hy => ?_) (fun d hd y hy => Or.inr hd) fun hreads => ?_⟩
  · exact (htail y hy).imp_right fun hy => ⟨a, rfl, hy⟩
  · rintro y ⟨id, hid, hy⟩
    cases hid
    exact hcol y hy
  · rcases List.mem_cons.1 hd with rfl | hd
    · exact hq.rest untried
    · exact h.fits d (by simp [hd])
  · rw [Postponed.weights_dead hdead', Postponed.weights_cons, Postponed.weights_cons,
      Postponed.weight_cons hb, activeWeight_cons, activeWeight_nil]
    dsimp only
    omega
  · rw [List.mem_singleton.1 hc] at hy
    rcases htail y hy with hy | hy
    · exact Or.inl (Or.inl (h.postponed q (by simp) y hy))
    · exact Or.inl (Or.inr ⟨a, rfl, hy⟩)
  · rcases List.mem_cons.1 hd with rfl | hd
    · exact Or.inr ⟨q, by simp, hy⟩
    · exact Or.inr ⟨d, by simp [hd], hy⟩
  · exact h.nested.of_backtrack hP hq hfit hb rfl (hreads _ List.mem_cons_self)

end Moves

/-! ### Whole walks -/

/-- A reader that follows a walk follows it after each report. -/
theorem step (hP : P.Complete) (hw : Walk.Fits P.grammar P.chart w)
    (h : Follows P w s act pend done) (hm : Moves P.grammar P.chart w ev w') :
    Followed P w ev w' s act pend done := by
  cases hm with
  | finish hx hid ha => exact h.finish hP hw hx hid ha
  | finishAgain hx hid hl => exact h.finishAgain hx hid hl
  | start hx hid hl =>
    exact h.start hP hx (by simp) (.start hx hid hl) (fun _ => entered_cons_start hx) hl
  | startAgain hx hid hl =>
    exact h.start hP hx (by simp) (.startAgain hx hid hl) (fun _ => Iff.rfl) hl
  | enter hx hp hs => exact h.enter hP hx hp hs
  | scan hx hs hb => exact h.scan hP hx hs hb
  | resume hx hs ha => exact h.resume hP hw hx hs ha
  | backtrack hdead hb => exact h.backtrack hP hw hdead hb

theorem run (hP : P.Complete) {evs : List WalkEvent} (hr : Runs P.grammar P.chart w evs w')
    (hw : Walk.Fits P.grammar P.chart w) (h : Follows P w s act pend done) :
    ∃ act' pend' done', Follows P w' (evs.foldl (read P.chart) s) act' pend' done' ∧
      ∀ n j, done'.countP (fun d => d.1.isFrom n j) =
        done.countP (fun d => d.1.isFrom n j) + evs.countP (·.isStart P.chart n j) := by
  induction hr generalizing s act pend done with
  | refl => exact ⟨act, pend, done, h, fun n j => by simp⟩
  | move hm _ ih =>
    obtain ⟨act₁, pend₁, done₁, hturn, h₁⟩ := h.step hP hw hm
    obtain ⟨act', pend', done', h', hcount⟩ := ih (hm.fits hP hw) h₁
    refine ⟨act', pend', done', h', fun n j => ?_⟩
    rw [hcount, hturn.countP_eq, List.countP_cons]
    omega

/-- A reader that has been told nothing follows a walk that is about to begin at the accepting
entry. -/
lemma empty (hP : P.Complete) :
    Follows P ⟨some P.accepting, P.tokens.length, [], [], [], 0⟩ SpineReader.empty [] [] [] where
  stage := .calling hP.accepting (.nil (Nat.zero_le _)) (Or.inl rfl)
  branches := rfl
  saved := rfl
  fits := by simp
  traced := rfl
  account x r := by
    have hnone : ¬ Entered P.chart [] x := by
      rintro ⟨id, hid, -⟩
      cases hid
    simp [owed_of_not_entered hnone]
  active := by simp
  postponed := by simp
  pieces := by simp
  reached := by
    rintro x ⟨id, hid, -⟩
    cases hid
  whole := Or.inr ⟨_, rfl, hP.accepting⟩
  nested := ⟨by simp, by simp, .nil, by simp⟩

end Follows

end SpineReader

end ParseForest
