import ParseForest.Proofs.Walk.Moves
import Mathlib.Algebra.GroupWithZero.Nat

/-!
# Walks come to an end

The potential of a walk bounds the reports that it still makes: each finish that was not gone into
may be, each entry to come back to has antecedents left, and each open call has an item to go on
from. Every move lowers it, `Moves.potential_lt`, and a walk begins with no more than `Walk.bound`.
The number of reports that a builder is fed is therefore no restriction, `Feeds.feed_eq`.
-/

namespace ParseForest

namespace Walk

variable (G : Grammar) (c : Chart)

/-- What it may take to go from an item to the start of its production. -/
def itemCost (dot : Nat) : Nat :=
  itemBound c.entries.size dot

/-- What it may take to go from any complete item to the start of its production. -/
def fullCost : Nat :=
  itemCost c (longestBody G)

/-- What it may take to go from an entry to the start of its nonterminal, but for going into finish
entries. -/
def cursorCost (cursor : Option Nat) : Nat :=
  match cursor.bind c.place? with
  | some ⟨.item _ dot, _, _⟩ => itemCost c dot
  | some _ => 1
  | none => 0

/-- What it may take to go on from the calls that the leg leaves. -/
def callersCost (floor : Nat) : List CallSite → Nat
  | [] => 0
  | s :: cs => if floor ≤ cs.length then itemCost c s.dot + callersCost floor cs else 0

/-- What it may take to come back to an entry. -/
def branchCost (b : Branch) : Nat :=
  b.untried.length * match b.site with
    | none => 1 + fullCost G c
    | some s => 2 + itemCost c s.dot

/-- What it may take to come back to some entries. -/
def branchesCost (bs : List Branch) : Nat :=
  (bs.map (branchCost G c)).sum

/-- The number of entries that were not passed. -/
def unvisited (visited : List Nat) : Nat :=
  ((List.range c.entries.size).filter (· ∉ visited)).length

/-- The most reports that a walk still makes. -/
def potential (w : Walk) : Nat :=
  unvisited c w.visited * (c.entries.size * (1 + fullCost G c)) + cursorCost c w.cursor
    + callersCost c w.floor w.callers + branchesCost G c w.branches

variable {G c}

/-! ### Costs -/

lemma itemCost_succ (dot : Nat) :
    itemCost c (dot + 1) = 1 + c.entries.size * (2 + itemCost c dot) := rfl

lemma two_le_itemCost (h : 0 < c.entries.size) (dot : Nat) : 2 ≤ itemCost c dot := by
  cases dot with
  | zero => exact Nat.le_refl 2
  | succ dot =>
    have := Nat.le_mul_of_pos_left (2 + itemCost c dot) h
    rw [itemCost_succ]
    omega

lemma itemCost_add_lt (h : 0 < c.entries.size) (dot : Nat) :
    itemCost c dot + 2 < itemCost c (dot + 1) := by
  have := Nat.le_mul_of_pos_left (2 + itemCost c dot) h
  rw [itemCost_succ]
  omega

lemma itemCost_mono (h : 0 < c.entries.size) {dot dot' : Nat} (hd : dot ≤ dot') :
    itemCost c dot ≤ itemCost c dot' := by
  induction hd with
  | refl => exact Nat.le_refl _
  | step _ ih => exact Nat.le_trans ih (by have := itemCost_add_lt h; grind)

/-- A running maximum is no less than what it begins with and than what it passes. -/
lemma le_foldl_max (l : List Nat) (m : Nat) :
    m ≤ l.foldl max m ∧ ∀ n ∈ l, n ≤ l.foldl max m := by
  induction l generalizing m with
  | nil => simp
  | cons a l ih =>
    obtain ⟨hbegin, hpassed⟩ := ih (max m a)
    rw [List.foldl_cons]
    refine ⟨Nat.le_trans (Nat.le_max_left m a) hbegin, fun n hn => ?_⟩
    rcases List.mem_cons.1 hn with rfl | hn
    · exact Nat.le_trans (Nat.le_max_right m _) hbegin
    · exact hpassed n hn

lemma length_le_longestBody {prod : Production} (h : prod ∈ G.prods) :
    prod.body.length ≤ longestBody G :=
  (le_foldl_max _ 0).2 _ (List.mem_map.2 ⟨prod, h, rfl⟩)

lemma cursorCost_item {id p dot o k : Nat} (hx : c.place? id = some ⟨.item p dot, o, k⟩) :
    cursorCost c (some id) = itemCost c dot := by
  simp [cursorCost, hx]

lemma cursorCost_start {id o k : Nat} {n : NonTerminal}
    (hx : c.place? id = some ⟨.start n, o, k⟩) : cursorCost c (some id) = 1 := by
  simp [cursorCost, hx]

lemma cursorCost_finish {id o k : Nat} {n : NonTerminal}
    (hx : c.place? id = some ⟨.finish n, o, k⟩) : cursorCost c (some id) = 1 := by
  simp [cursorCost, hx]

@[simp] lemma cursorCost_none : cursorCost c none = 0 := rfl

/-- No entry of a parse is further from a start than a complete item may be. -/
lemma cursorCost_le {P : Parsing} (hP : P.Complete) {id : Nat} {x : Place}
    (hx : P.chart.place? id = some x) :
    cursorCost P.chart (some id) ≤ fullCost P.grammar P.chart := by
  have hpos : 0 < P.chart.entries.size := Nat.zero_lt_of_lt (Chart.lt_size_of_place? hx)
  have htwo : 2 ≤ fullCost P.grammar P.chart := two_le_itemCost hpos _
  obtain ⟨v, o, k⟩ := x
  cases v with
  | start n =>
    rw [cursorCost_start hx]
    omega
  | finish n =>
    rw [cursorCost_finish hx]
    omega
  | item p dot =>
    obtain ⟨prod, hp, hdot⟩ := hP.prod_of_item hx
    rw [cursorCost_item hx]
    exact itemCost_mono hpos (Nat.le_trans hdot (length_le_longestBody (List.mem_of_getElem? hp)))

lemma callersCost_of_le {fl : Nat} {cs : List CallSite} (h : cs.length ≤ fl) :
    callersCost c fl cs = 0 := by
  cases cs with
  | nil => rfl
  | cons s cs =>
    rw [List.length_cons] at h
    rw [callersCost, if_neg (by omega)]

lemma callersCost_cons {fl : Nat} {s : CallSite} {cs : List CallSite} (h : fl ≤ cs.length) :
    callersCost c fl (s :: cs) = itemCost c s.dot + callersCost c fl cs :=
  if_pos h

lemma branchesCost_defer (b : Branch) (bs : List Branch) :
    branchesCost G c (defer b bs) = branchCost G c b + branchesCost G c bs := by
  unfold defer
  split
  · next h => simp [branchCost, h]
  · simp [branchesCost]

lemma branchesCost_dead {dead : List Branch} (h : ∀ d ∈ dead, d.untried = []) (bs : List Branch) :
    branchesCost G c (dead ++ bs) = branchesCost G c bs := by
  induction dead with
  | nil => rfl
  | cons d dead ih =>
    have hd : branchCost G c d = 0 := by simp [branchCost, h d (by simp)]
    have := ih fun d' hd' => h d' (by simp [hd'])
    simp only [branchesCost, List.cons_append, List.map_cons, List.sum_cons, hd] at this ⊢
    omega

/-- An entry that is passed is unvisited no longer. -/
lemma unvisited_cons_lt {id : Nat} {vis : List Nat} (h : id < c.entries.size) (hid : id ∉ vis) :
    unvisited c (id :: vis) < unvisited c vis := by
  unfold unvisited
  have hsub : ((List.range c.entries.size).filter (· ∉ id :: vis)).Sublist
      ((List.range c.entries.size).filter (· ∉ vis)) := by
    refine List.monotone_filter_right _ fun a ha => ?_
    simp only [decide_eq_true_eq, List.mem_cons, not_or] at ha ⊢
    exact ha.2
  refine Nat.lt_of_le_of_ne hsub.length_le fun heq => ?_
  have hmem : id ∈ (List.range c.entries.size).filter (· ∉ vis) := by simpa [h] using hid
  rw [← hsub.eq_of_length heq] at hmem
  simp at hmem

/-! ### Moves lower the potential -/

lemma Leaves.potential_le {k fl : Nat} {cur : Option Nat} {vis : List Nat} {cs : List CallSite}
    {bs : List Branch} {w' : Walk} (h : Leaves c ⟨cur, k, vis, cs, bs, fl⟩ w') :
    potential G c w' ≤ unvisited c vis * (c.entries.size * (1 + fullCost G c))
      + callersCost c fl cs + branchesCost G c bs := by
  cases h with
  | stop hfl => simp [potential]
  | go hfl hx =>
    simp only [potential, callersCost_cons hfl, cursorCost_item hx]
    omega

/-- Every move of a walk that fits a parse lowers the potential. -/
theorem Moves.potential_lt {P : Parsing} (hP : P.Complete) {w w' : Walk} {ev : WalkEvent}
    (h : Moves P.grammar P.chart w ev w') (hw : Fits P.grammar P.chart w) :
    potential P.grammar P.chart w' < potential P.grammar P.chart w := by
  obtain ⟨hcur, hfl, hbs⟩ := hw
  cases h with
  | @finish id k o a fl n vis untried cs bs hx hid ha =>
    have hsize := Chart.lt_size_of_place? hx
    obtain ⟨v, hax⟩ :=
      exists_place?_of_finish hP hx (by rw [ha]; exact List.mem_cons_self)
    have hcost := cursorCost_le hP hax
    have hlen := hP.filled.length_antecedents_le hx
    rw [ha, List.length_cons] at hlen
    have hvis := Nat.mul_le_mul_right (P.chart.entries.size * (1 + fullCost P.grammar P.chart))
      (unvisited_cons_lt hsize hid)
    have hall := Nat.mul_le_mul_right (1 + fullCost P.grammar P.chart) hlen
    simp only [potential, branchesCost_defer, cursorCost_finish hx, branchCost]
    simp only [Nat.succ_mul] at hvis hall ⊢
    omega
  | finishAgain hx hid hl =>
    refine Nat.lt_of_le_of_lt hl.potential_le ?_
    simp only [potential, cursorCost_finish hx]
    omega
  | start hx hid hl =>
    refine Nat.lt_of_le_of_lt hl.potential_le ?_
    have hvis := Nat.mul_le_mul_right
      (P.chart.entries.size * (1 + fullCost P.grammar P.chart))
      (Nat.le_of_lt (unvisited_cons_lt (Chart.lt_size_of_place? hx) hid))
    simp only [potential, cursorCost_start hx]
    omega
  | startAgain hx hid hl =>
    refine Nat.lt_of_le_of_lt hl.potential_le ?_
    simp only [potential, cursorCost_start hx]
    omega
  | enter hx hp hs =>
    simp only [potential, cursorCost_item hx, cursorCost_start hs, itemCost, itemBound]
    omega
  | scan hx hs hb =>
    have := itemCost_add_lt (Nat.zero_lt_of_lt (Chart.lt_size_of_place? hx))
    simp only [potential, cursorCost_item hx, cursorCost_item hb]
    grind
  | @resume id k o a p dot fl n vis untried cs bs hx hs ha =>
    obtain ⟨m, hax, -⟩ :=
      hP.exists_finish_of_mem hx hs (by rw [ha]; exact List.mem_cons_self)
    have hlen := hP.filled.length_antecedents_le hx
    rw [ha, List.length_cons] at hlen
    have hall := Nat.mul_le_mul_right (2 + itemCost P.chart dot) hlen
    simp only [potential, branchesCost_defer, cursorCost_item hx, cursorCost_finish hax,
      branchCost, callersCost_cons hfl, itemCost_succ]
    simp only [Nat.succ_mul] at hall ⊢
    omega
  | @backtrack k a fl vis untried cs b dead bs hdead hb =>
    have hmem : a ∈ b.untried := by simp [hb]
    simp only [potential, branchesCost_dead hdead, cursorCost_none]
    simp only [branchesCost, List.map_cons, List.sum_cons, branchCost, hb, List.length_cons,
      Nat.succ_mul]
    cases hbs b (by simp) with
    | @finish id k o n cs untried' hx hcs hsuf =>
      obtain ⟨v, hax⟩ := exists_place?_of_finish hP hx (hsuf.subset hmem)
      have hcost := cursorCost_le hP hax
      simp only [Option.toList_none, List.nil_append, callersCost_of_le (Nat.le_refl cs.length)]
      omega
    | @resume id k o p dot n cs untried' hx hs hcs hsuf =>
      obtain ⟨m, hax, -⟩ := hP.exists_finish_of_mem hx hs (hsuf.subset hmem)
      simp only [cursorCost_finish hax, Option.toList_some, List.singleton_append,
        callersCost_cons (Nat.le_refl cs.length), callersCost_of_le (Nat.le_refl cs.length)]
      omega

/-- A walk begins with no more potential than the bound. -/
lemma potential_startAt_le {P : Parsing} (hP : P.Complete) {id : Nat} {x : Place}
    (hx : P.chart.place? id = some x) :
    potential P.grammar P.chart ⟨some id, x.column, [], [], [], 0⟩ ≤
      bound P.grammar P.chart := by
  have hpos : 0 < P.chart.entries.size := Nat.zero_lt_of_lt (Chart.lt_size_of_place? hx)
  have hvis : unvisited P.chart [] = P.chart.entries.size := by simp [unvisited]
  have hcur := cursorCost_le hP hx
  simp only [potential, hvis, callersCost, branchesCost, List.map_nil, List.sum_nil, Nat.add_zero]
  simp only [fullCost, itemCost] at hcur ⊢
  simp only [bound]
  omega

/-! ### Feeding a handler -/

section Feed

universe u v

variable {σ : Type u} {ε : Type v} {handle : σ → WalkEvent → Except ε σ} {fault : Fault → ε}
  {w w' : Walk} {s s' : σ} {ev : WalkEvent}

/-- The handler takes some reports of the walk, which then is `w'`, and comes to `s'`. -/
inductive Feeds (G : Grammar) (c : Chart) (handle : σ → WalkEvent → Except ε σ) :
    Walk → σ → Walk → σ → Prop where
  | refl (w : Walk) (s : σ) : Feeds G c handle w s w s
  | step {w w' w'' : Walk} {s s' s'' : σ} {ev : WalkEvent} (hm : Moves G c w ev w')
      (hh : handle s ev = .ok s') (h : Feeds G c handle w' s' w'' s'') :
      Feeds G c handle w s w'' s''

lemma Feeds.trans {w'' : Walk} {s'' : σ} (h : Feeds G c handle w s w' s')
    (h' : Feeds G c handle w' s' w'' s'') : Feeds G c handle w s w'' s'' := by
  induction h with
  | refl => exact h'
  | step hm hh _ ih => exact .step hm hh (ih h')

lemma Feeds.single (hm : Moves G c w ev w') (hh : handle s ev = .ok s') :
    Feeds G c handle w s w' s' :=
  .step hm hh (.refl _ _)

variable {P : Parsing}

variable (handle fault s) in
lemma feed_step (hP : P.Complete) (hw : Fits P.grammar P.chart w)
    (hm : Moves P.grammar P.chart w ev w') {limit : Nat}
    (hlimit : potential P.grammar P.chart w ≤ limit) :
    ∃ limit', potential P.grammar P.chart w' ≤ limit' ∧
      feed P.grammar P.chart handle fault limit w s =
        match handle s ev with
        | .error x => .error x
        | .ok s' => feed P.grammar P.chart handle fault limit' w' s' := by
  have hlt := hm.potential_lt hP hw
  cases limit with
  | zero => omega
  | succ limit =>
    refine ⟨limit, by omega, ?_⟩
    cases hh : handle s ev with
    | error x => simp only [feed, hm.next_eq hP.filled.indexed, hh]
    | ok s' => simp only [feed, hm.next_eq hP.filled.indexed, hh]

/-- Reports that a handler takes need not be fed one by one. -/
theorem Feeds.feed_eq (hP : P.Complete) (hw : Fits P.grammar P.chart w)
    (h : Feeds P.grammar P.chart handle w s w' s') {limit : Nat}
    (hlimit : potential P.grammar P.chart w ≤ limit) :
    Fits P.grammar P.chart w' ∧ ∃ limit', potential P.grammar P.chart w' ≤ limit' ∧
      feed P.grammar P.chart handle fault limit w s =
        feed P.grammar P.chart handle fault limit' w' s' := by
  induction h generalizing limit with
  | refl => exact ⟨hw, limit, hlimit, rfl⟩
  | step hm hh _ ih =>
    obtain ⟨limit', hlimit', heq⟩ := feed_step handle fault _ hP hw hm hlimit
    rw [heq, hh]
    exact ih (hm.fits hP hw) hlimit'

/-- A report that the handler does not take ends the feeding. -/
lemma feed_eq_error (hP : P.Complete) (hw : Fits P.grammar P.chart w)
    (hm : Moves P.grammar P.chart w ev w') {x : ε} (hh : handle s ev = .error x) {limit : Nat}
    (hlimit : potential P.grammar P.chart w ≤ limit) :
    feed P.grammar P.chart handle fault limit w s = .error x := by
  obtain ⟨limit', -, heq⟩ := feed_step handle fault s hP hw hm hlimit
  rw [heq, hh]

/-- At the end of the walk the handler has taken all reports. -/
lemma feed_eq_ok (h : next G c w = .ok none) (limit : Nat) :
    feed G c handle fault limit w s = .ok s := by
  cases limit with
  | zero => rfl
  | succ limit => rw [feed, h]

end Feed

end Walk

end ParseForest
