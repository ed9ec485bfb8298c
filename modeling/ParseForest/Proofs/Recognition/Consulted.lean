import ParseForest.Proofs.Recognition.Acceptance
import Mathlib.Data.List.Nodup

/-!
# What constraints are asked

A constraint is asked whenever a completed nonterminal meets an entry that awaits it. This happens
when the completed entry is processed, and when the awaiting entry is processed and finds the
nonterminal completed in its own column, so that it can happen twice for an empty phrase. The
invariant is `Asked`: a pair of entries has been asked about at least once when both are processed,
and at most once for each of the two that is processed, as far as it can find the other one. The
main statement is `consultations_exact`.
-/

namespace ParseForest

deriving instance DecidableEq for ReturnContext

/-- How often a question is put to a constraint. -/
def Recognition.timesAsked (r : Recognition) (x : ReturnContext) : Nat :=
  r.consultations.countP fun q => q.1 = x

/-- What a context says about the input is true: the callee is the symbol of the production at the
index, the symbols before it match up to where the callee begins, and the callee derives what lies
between there and the position. -/
structure ReturnContext.Truthful (G : Grammar) (w : List Token) (x : ReturnContext) : Prop where
  prod_eq : ∃ prod, G.prods[x.prod]? = some prod ∧ x.head = prod.head ∧ x.body = prod.body
  callee_eq : x.body[x.elemIndex]? = some (.nonterminal x.callee)
  tokens_eq : x.tokens = w
  callOrigin_le : x.callOrigin ≤ x.calleeOrigin
  calleeOrigin_le : x.calleeOrigin ≤ x.position
  position_le : x.position ≤ w.length
  matched : G.Matches w x.prod x.elemIndex x.callOrigin x.calleeOrigin
  derived : ∃ t, G.Derives w x.callee x.calleeOrigin x.position t

/-- The tokens of the callee lie inside of the input. -/
lemma ReturnContext.Truthful.length_calleeTokens {G : Grammar} {w : List Token} {x : ReturnContext}
    (h : x.Truthful G w) : x.calleeTokens.length = x.position - x.calleeOrigin := by
  have hle := h.position_le
  rw [ReturnContext.calleeTokens, slice, List.length_take, List.length_drop, h.tokens_eq]
  omega

variable {G : Grammar} {w : List Token}

/-! ### Entries that meet -/

/-- The entry `b` awaits the nonterminal that the entry `a` completes, where the nonterminal began,
and the production of `b` has a constraint. With this go what the constraint is asked and its
answer. -/
inductive Chart.Meets (G : Grammar) (w : List Token) (c : Chart) (b a : Nat) :
    ReturnContext × Bool → Prop where
  | intro {p dot j m k : Nat} {n : NonTerminal} {prod : Production} {permits : Constraint}
      (hb : c.place? b = some ⟨.item p dot, j, m⟩) (ha : c.place? a = some ⟨.finish n, m, k⟩)
      (hp : G.prods[p]? = some prod) (hs : prod.body[dot]? = some (.nonterminal n))
      (hc : prod.constraint = some permits) :
      Meets G w c b a (prod.context p dot n j m k w, permits (prod.context p dot n j m k w))

namespace Chart.Meets

variable {c c' : Chart} {b a bound : Nat} {q : ReturnContext × Bool}

lemma lt_size (h : c.Meets G w b a q) : b < c.entries.size ∧ a < c.entries.size := by
  cases h with
  | intro hb ha hp hs hc => exact ⟨Chart.lt_size_of_place? hb, Chart.lt_size_of_place? ha⟩

/-- Whether two entries meet depends on their places only. -/
lemma congr (h : c.Meets G w b a q) (hb : c'.place? b = c.place? b)
    (ha : c'.place? a = c.place? a) : c'.Meets G w b a q := by
  cases h with
  | intro hb' ha' hp hs hc => exact .intro (hb.trans hb') (ha.trans ha') hp hs hc

/-- The two entries determine what is asked. -/
lemma unique {q' : ReturnContext × Bool} (h : c.Meets G w b a q) (h' : c.Meets G w b a q') :
    q = q' := by
  cases h with
  | intro hb ha hp hs hc =>
    cases h' with
    | intro hb' ha' hp' hs' hc' =>
      simp only [hb, ha, Option.some.injEq, Place.mk.injEq, Vertex.item.injEq,
        Vertex.finish.injEq] at hb' ha'
      obtain ⟨⟨rfl, rfl⟩, rfl, rfl⟩ := hb'
      obtain ⟨rfl, -, rfl⟩ := ha'
      obtain rfl := Option.some.inj (hp.symm.trans hp')
      obtain rfl := Option.some.inj (hc.symm.trans hc')
      rfl

/-- What is asked determines the two entries. -/
lemma inj (hc : c.Indexed) {b' a' : Nat} {q' : ReturnContext × Bool} (h : c.Meets G w b a q)
    (h' : c.Meets G w b' a' q') (hq : q.1 = q'.1) : b = b' ∧ a = a' := by
  cases h with
  | intro hb ha hp hs _ =>
    cases h' with
    | intro hb' ha' hp' hs' _ =>
      simp only [Production.context, ReturnContext.mk.injEq] at hq
      obtain ⟨rfl, -, -, rfl, rfl, rfl, rfl, rfl, -⟩ := hq
      exact ⟨hc.place?_inj hb hb', hc.place?_inj ha ha'⟩

lemma answer_eq (h : c.Meets G w b a q) : ∃ prod permits, G.prods[q.1.prod]? = some prod ∧
    prod.constraint = some permits ∧ q.2 = permits q.1 := by
  cases h with
  | intro hb ha hp hs hc => exact ⟨_, _, hp, hc, rfl⟩

/-- Entries that say the truth ask truthfully. -/
lemma truthful (h : c.Meets G w b a q)
    (hvalid : ∀ id x, c.place? id = some x → Valid G w x) : q.1.Truthful G w := by
  cases h with
  | intro hb ha hp hs hc =>
    have hvb := hvalid _ _ hb
    have hva := hvalid _ _ ha
    exact ⟨⟨_, hp, rfl, rfl⟩, hs, rfl, hvb.bounds.1, hva.bounds.1, hva.bounds.2,
      ((valid_item_iff hp).1 hvb).2, (valid_finish_iff.1 hva).2⟩

end Chart.Meets

/-! ### What one entry asks -/

/-- Which entries a step is a return of, and what it asks the constraint, if there is one. -/
def Step.question? (s : Step) : Option ((Nat × Nat) × (ReturnContext × Bool)) :=
  s.return?.bind fun r => r.verdict.map fun answer => ((r.caller, s.source), (r.context, answer))

section Steps

variable {c : Chart} {column id b a : Nat} {q : ReturnContext × Bool}

/-- A return asks the constraint about its two entries. -/
lemma question?_returnStep? {caller completed p dot j m k : Nat} {n : NonTerminal}
    {prod : Production} (hb : c.place? caller = some ⟨.item p dot, j, m⟩)
    (ha : c.place? completed = some ⟨.finish n, m, k⟩) (hp : G.prods[p]? = some prod) :
    (G.returnStep? w c k caller completed).bind Step.question? =
      prod.constraint.map fun permits =>
        ((caller, completed), (prod.context p dot n j m k w,
          permits (prod.context p dot n j m k w))) := by
  rw [Chart.returnStep?_eq hb ha hp]
  simp [Step.question?, Step.return?, Production.verdict, Function.comp_def]

lemma caller_of_question? {caller completed : Nat}
    (h : (G.returnStep? w c column caller completed).bind Step.question? = some ((b, a), q)) :
    b = caller := by
  obtain ⟨s, hs, hask⟩ := Option.bind_eq_some_iff.1 h
  unfold Grammar.returnStep? at hs
  split at hs
  · split at hs
    · obtain ⟨prod, -, rfl⟩ := Option.map_eq_some_iff.1 hs
      obtain ⟨r, hr, hverdict⟩ := Option.bind_eq_some_iff.1 hask
      obtain rfl := Option.some.inj hr
      obtain ⟨answer, -, heq⟩ := Option.map_eq_some_iff.1 hverdict
      cases heq
      rfl
    · cases hs
  · cases hs

lemma questions_steps_start {n : NonTerminal} {o i : Nat}
    (hid : c.place? id = some ⟨.start n, o, i⟩) :
    (G.steps w c column id).filterMap Step.question? = [] := by
  rw [Chart.steps_start hid, List.filterMap_eq_nil_iff]
  intro s hs
  obtain ⟨p, -, rfl⟩ := List.mem_map.1 hs
  rfl

/-- A completed entry asks about the entries that await it. -/
lemma questions_steps_finish {n : NonTerminal} {o i : Nat}
    (hid : c.place? id = some ⟨.finish n, o, i⟩) :
    (G.steps w c column id).filterMap Step.question? =
      (c.awaiting G (.nonterminal n) o).filterMap fun caller =>
        (G.returnStep? w c column caller id).bind Step.question? := by
  rw [Chart.steps_finish hid, List.filterMap_filterMap]

lemma filterMap_toList {α β : Type} (x : Option α) (f : α → Option β) :
    x.toList.filterMap f = (x.bind f).toList := by
  cases x with
  | none => rfl
  | some y => cases hy : f y <;> simp [hy]

/-- An item asks about a nonterminal that is already completed in its column. -/
lemma questions_steps_item {p dot o i : Nat} {prod : Production}
    (hid : c.place? id = some ⟨.item p dot, o, i⟩) (hp : G.prods[p]? = some prod) :
    (G.steps w c column id).filterMap Step.question? =
      match prod.body[dot]? with
      | some (.nonterminal n) =>
        ((c.find? (.finish n) column column).bind fun done =>
          (G.returnStep? w c column id done).bind Step.question?).toList
      | _ => [] := by
  rw [Chart.steps_item hid hp]
  cases prod.body[dot]? with
  | none => rfl
  | some s =>
    cases s with
    | terminal t => rfl
    | nonterminal n =>
      dsimp only
      rw [List.filterMap_cons_none (by rfl), filterMap_toList, Option.bind_assoc]

/-- The steps from an entry ask about the entry and those that it meets, an item only if the other
one completes an empty phrase, in the column of the item. -/
lemma mem_questions_steps_iff (h : c.Indexed) (hitems : c.ItemsOf G) {v : Vertex} {o : Nat}
    (hid : c.place? id = some ⟨v, o, column⟩) :
    ((b, a), q) ∈ (G.steps w c column id).filterMap Step.question? ↔
      c.Meets G w b a q ∧
        (a = id ∨ b = id ∧ q.1.calleeOrigin = q.1.position) := by
  cases v with
  | start n =>
    rw [questions_steps_start hid]
    refine iff_of_false List.not_mem_nil ?_
    rintro ⟨⟨hb, ha, -, -, -⟩, rfl | ⟨rfl, -⟩⟩
    · cases hid.symm.trans ha
    · cases hid.symm.trans hb
  | finish n =>
    rw [questions_steps_finish hid, List.mem_filterMap]
    constructor
    · rintro ⟨caller, hcaller, hask⟩
      obtain ⟨p, dot, j, hb, hs⟩ := h.mem_awaiting_iff.1 hcaller
      obtain ⟨prod, hp, -⟩ := hitems _ _ _ _ _ hb
      rw [question?_returnStep? hb hid hp, Option.map_eq_some_iff] at hask
      obtain ⟨permits, hc, heq⟩ := hask
      cases heq
      rw [Grammar.symbolAt?_eq hp] at hs
      exact ⟨.intro hb hid hp hs hc, Or.inl rfl⟩
    · rintro ⟨@⟨p, dot, j, m, k, n', prod, permits, hb, ha, hp, hs, hc⟩, rfl | ⟨rfl, -⟩⟩
      · obtain ⟨rfl, rfl, rfl⟩ : n = n' ∧ o = m ∧ column = k := by
          simpa using hid.symm.trans ha
        refine ⟨b, h.mem_awaiting_iff.2 ⟨p, dot, j, hb, by rw [Grammar.symbolAt?_eq hp, hs]⟩, ?_⟩
        rw [question?_returnStep? hb hid hp, hc, Option.map_some]
      · cases hid.symm.trans hb
  | item p dot =>
    obtain ⟨prod, hp, -⟩ := hitems _ _ _ _ _ hid
    rw [questions_steps_item hid hp]
    constructor
    · intro hmem
      split at hmem
      · next n hs =>
        rw [Option.mem_toList, Option.bind_eq_some_iff] at hmem
        obtain ⟨done, hdone, hask⟩ := hmem
        have ha := h.find?_eq_some_iff.1 hdone
        rw [question?_returnStep? hid ha hp, Option.map_eq_some_iff] at hask
        obtain ⟨permits, hc, heq⟩ := hask
        cases heq
        exact ⟨.intro hid ha hp hs hc, Or.inr ⟨rfl, rfl⟩⟩
      · cases hmem
    · rintro ⟨@⟨p', dot', j, m, k, n, prod', permits, hb, ha, hp', hs, hc⟩,
        rfl | ⟨rfl, hempty⟩⟩
      · cases hid.symm.trans ha
      · obtain ⟨⟨rfl, rfl⟩, rfl, rfl⟩ : (p = p' ∧ dot = dot') ∧ o = j ∧ column = m := by
          simpa using hid.symm.trans hb
        obtain rfl := Option.some.inj (hp.symm.trans hp')
        obtain rfl : column = k := hempty
        rw [hs]
        dsimp only
        rw [Option.mem_toList, h.find?_eq_some_iff.2 ha, Option.bind_some,
          question?_returnStep? hid ha hp, hc, Option.map_some]

/-- The steps from an entry ask about no two entries twice. -/
lemma nodup_pairs_steps (h : c.Indexed) (hitems : c.ItemsOf G) {v : Vertex} {o : Nat}
    (hid : c.place? id = some ⟨v, o, column⟩) :
    (((G.steps w c column id).filterMap Step.question?).map Prod.fst).Nodup := by
  cases v with
  | start n =>
    rw [questions_steps_start hid]
    exact List.nodup_nil
  | finish n =>
    rw [questions_steps_finish hid, List.map_filterMap]
    have hnodup : (c.awaiting G (.nonterminal n) o).Nodup :=
      ((h.ids_pairwise o).imp Nat.ne_of_lt).filter _
    refine hnodup.filterMap fun caller caller' pair hpair hpair' => ?_
    obtain ⟨y, hy, rfl⟩ := Option.map_eq_some_iff.1 hpair
    obtain ⟨y', hy', heq⟩ := Option.map_eq_some_iff.1 hpair'
    exact (caller_of_question? hy).symm.trans
      ((congrArg Prod.fst heq).symm.trans (caller_of_question? hy'))
  | item p dot =>
    obtain ⟨prod, hp, -⟩ := hitems _ _ _ _ _ hid
    rw [questions_steps_item hid hp]
    split
    · next n hs =>
      rw [← Option.toList_map]
      exact Option.toList_nodup _
    · exact List.nodup_nil

lemma count_pairs_steps (h : c.Indexed) (hitems : c.ItemsOf G) {v : Vertex} {o : Nat}
    (hid : c.place? id = some ⟨v, o, column⟩) (hm : c.Meets G w b a q) :
    (((G.steps w c column id).filterMap Step.question?).map Prod.fst).count (b, a) =
      if a = id ∨ b = id ∧ q.1.calleeOrigin = q.1.position then 1 else 0 := by
  have hiff : (b, a) ∈ ((G.steps w c column id).filterMap Step.question?).map Prod.fst ↔
      a = id ∨ b = id ∧ q.1.calleeOrigin = q.1.position := by
    rw [List.mem_map]
    constructor
    · rintro ⟨⟨⟨b', a'⟩, q'⟩, hq', heq⟩
      cases heq
      obtain ⟨hm', hor⟩ := (mem_questions_steps_iff h hitems hid).1 hq'
      rwa [hm.unique hm']
    · intro hor
      exact ⟨((b, a), q), (mem_questions_steps_iff h hitems hid).2 ⟨hm, hor⟩, rfl⟩
  rw [(nodup_pairs_steps h hitems hid).count]
  simp only [hiff]

end Steps

/-! ### What is asked up to an entry -/

/-- What a recognition under way has asked, in order. -/
def Progress.questions (s : Progress) : List ((Nat × Nat) × (ReturnContext × Bool)) :=
  s.events.toList.filterMap fun
    | .step step => step.question?
    | _ => none

/-- How often it has asked whether the entry `a` may be returned into the entry `b`. -/
def Progress.asked (s : Progress) (b a : Nat) : Nat :=
  (s.questions.map Prod.fst).count (b, a)

lemma Progress.questions_foldl_perform (steps : List Step) (s : Progress) :
    (steps.foldl Progress.perform s).questions =
      s.questions ++ steps.filterMap Step.question? := by
  induction steps generalizing s with
  | nil => simp
  | cons step steps ih =>
    rw [List.foldl_cons, ih]
    simp only [Progress.questions, Progress.perform, Array.toList_push, List.filterMap_append,
      List.append_assoc, List.append_cancel_left_eq]
    cases hq : step.question? <;> simp [hq]

/-- The questions asked so far, when the entries below `next` are processed, are about entries that
meet. Each processed entry has asked about the processed entries it meets, or they have asked; and
it has asked at most once about each, an item only if the other entry is in its own column. -/
structure Asked (G : Grammar) (w : List Token) (next : Nat) (s : Progress) : Prop where
  meets : ∀ b a q, ((b, a), q) ∈ s.questions → s.chart.Meets G w b a q
  least : ∀ b a q, s.chart.Meets G w b a q → b < next → a < next → 1 ≤ s.asked b a
  most : ∀ b a q, s.chart.Meets G w b a q → s.asked b a ≤
    (if a < next then 1 else 0) + if b < next ∧ q.1.calleeOrigin = q.1.position then 1 else 0

/-- What an item of the column that is being filled meets is empty. -/
lemma Filling.empty_of_meets {column start next b a o : Nat} {c : Chart} {v : Vertex}
    {q : ReturnContext × Bool} (h : Filling G w column start next c)
    (hid : c.place? b = some ⟨v, o, column⟩) (hm : c.Meets G w b a q) :
    q.1.calleeOrigin = q.1.position := by
  cases hm with
  | @intro p dot j m k n prod permits hb ha _ _ _ =>
    obtain ⟨-, -, rfl⟩ : v = .item p dot ∧ o = j ∧ column = m := by simpa using hid.symm.trans hb
    exact Nat.le_antisymm (h.valid _ _ ha).bounds.1 (h.column_le_of_place? ha)

namespace Asked

variable {column start next next' : Nat} {s s' : Progress}

lemma count_eq_zero {new : List ((Nat × Nat) × (ReturnContext × Bool))} {c : Chart} {b a : Nat}
    (hnew : ∀ b a q, ((b, a), q) ∈ new → c.Meets G w b a q) (hno : ∀ q, ¬ c.Meets G w b a q) :
    (new.map Prod.fst).count (b, a) = 0 := by
  rw [List.count_eq_zero, List.mem_map]
  rintro ⟨⟨⟨b', a'⟩, q⟩, hy, heq⟩
  cases heq
  exact hno q (hnew b a q hy)

/-- More entries and more questions, which are about entries that are there. -/
lemma extend {new : List ((Nat × Nat) × (ReturnContext × Bool))} (h : Asked G w next s)
    (hkeep : ∀ id < s.chart.entries.size, s'.chart.place? id = s.chart.place? id)
    (hsize : next' ≤ s.chart.entries.size) (hquestions : s'.questions = s.questions ++ new)
    (hnew : ∀ b a q, ((b, a), q) ∈ new → s.chart.Meets G w b a q)
    (hleast : ∀ b a q, s.chart.Meets G w b a q → b < next' → a < next' →
      1 ≤ s.asked b a + (new.map Prod.fst).count (b, a))
    (hmost : ∀ b a q, s.chart.Meets G w b a q → s.asked b a + (new.map Prod.fst).count (b, a) ≤
      (if a < next' then 1 else 0) + if b < next' ∧ q.1.calleeOrigin = q.1.position then 1 else 0) :
    Asked G w next' s' := by
  have hasked : ∀ b a, s'.asked b a = s.asked b a + (new.map Prod.fst).count (b, a) := by
    intro b a
    rw [Progress.asked, hquestions, List.map_append, List.count_append, Progress.asked]
  have hold : ∀ {b a q}, s'.chart.Meets G w b a q → b < s.chart.entries.size →
      a < s.chart.entries.size → s.chart.Meets G w b a q := fun hm hb ha =>
    hm.congr (hkeep _ hb).symm (hkeep _ ha).symm
  refine ⟨fun b a q hq => ?_, fun b a q hm hb ha => ?_, fun b a q hm => ?_⟩
  · rw [hquestions, List.mem_append] at hq
    have hm : s.chart.Meets G w b a q := hq.elim (h.meets b a q) (hnew b a q)
    exact hm.congr (hkeep _ hm.lt_size.1) (hkeep _ hm.lt_size.2)
  · rw [hasked]
    exact hleast b a q (hold hm (by omega) (by omega)) hb ha
  · rw [hasked]
    by_cases hlt : b < s.chart.entries.size ∧ a < s.chart.entries.size
    · exact hmost b a q (hold hm hlt.1 hlt.2)
    · have hno : ∀ q, ¬ s.chart.Meets G w b a q := fun q hq => hlt hq.lt_size
      rw [Progress.asked, count_eq_zero h.meets hno, count_eq_zero hnew hno]
      exact Nat.zero_le _

/-- What happens without a question leaves the invariant as it is. -/
lemma mono (h : Asked G w next s)
    (hkeep : ∀ id < s.chart.entries.size, s'.chart.place? id = s.chart.place? id)
    (hsize : next ≤ s.chart.entries.size) (hquestions : s'.questions = s.questions) :
    Asked G w next s' := by
  refine h.extend hkeep hsize (by rw [hquestions, List.append_nil]) (by simp) ?_ ?_
  · intro b a q hm hb ha
    exact Nat.le_trans (h.least b a q hm hb ha) (Nat.le_add_right _ _)
  · intro b a q hm
    simpa using h.most b a q hm

/-- Processing the next entry keeps the invariant: the entry asks about the entries it meets. -/
lemma process (h : Filling G w column start next s.chart) (hnext : next < s.chart.entries.size)
    (hasked : Asked G w next s) :
    Asked G w (next + 1) ((G.steps w s.chart column next).foldl Progress.perform s) := by
  obtain ⟨⟨v, o, i⟩, hid⟩ := Chart.exists_place? hnext
  obtain rfl : i = column := h.current _ _ hid h.start_le
  have hcol := h.column_lt
  have hg := Chart.performAll_grows h.indexed h.deduped (G.steps w s.chart i next)
    fun s hs => Chart.column_of_mem_steps hs ▸ hcol
  refine hasked.extend (fun id hlt => ?_) hnext (Progress.questions_foldl_perform _ _)
    (fun b a q hq => ((mem_questions_steps_iff h.indexed h.itemsOf hid).1 hq).1)
    (fun b a q hm hb ha => ?_) (fun b a q hm => ?_)
  · rw [Progress.chart_foldl_perform, hg.place?_eq id hlt]
  · rw [count_pairs_steps h.indexed h.itemsOf hid hm]
    by_cases hold : b < next ∧ a < next
    · exact Nat.le_trans (hasked.least b a q hm hold.1 hold.2) (Nat.le_add_right _ _)
    · rw [if_pos]
      · exact Nat.le_add_left _ _
      · by_cases hlast : a = next
        · exact Or.inl hlast
        · obtain rfl : b = next := by omega
          exact Or.inr ⟨rfl, h.empty_of_meets hid hm⟩
  · have hmost := hasked.most b a q hm
    rw [count_pairs_steps h.indexed h.itemsOf hid hm]
    split_ifs at hmost ⊢ <;> omega

/-- When a column is saturated, all its entries have asked. -/
lemma fill (hG : G.Closed) (h : Filling G w column start start s.chart)
    (hasked : Asked G w start s) :
    Asked G w (G.fill w column start s).chart.entries.size (G.fill w column start s) := by
  have hfull := saturate_induction (I := Asked G w) hG process h hasked
    (Nat.le_of_eq (Nat.add_comm _ _))
  rw [Grammar.fill]
  refine hfull.mono (fun _ _ => rfl) (Nat.le_refl _) ?_
  simp [Progress.questions, Progress.note]

/-- Reading a token asks nothing. -/
lemma read {t : Token} {e : Option ParseError}
    (h : Filling G w column start s.chart.entries.size s.chart) (ht : w[column]? = some t)
    (hasked : Asked G w s.chart.entries.size s) (hread : G.read column t s = (s', e)) :
    Asked G w s.chart.entries.size s' := by
  rw [Grammar.read] at hread
  split at hread
  · cases hread
    refine hasked.mono (fun _ _ => rfl) (Nat.le_refl _) ?_
    simp [Progress.questions, Progress.note]
  · cases hread
    have hmem : ∀ step ∈ (s.chart.awaiting G (.terminal t.kind) column).filterMap
        (fun id => s.chart.scanStep? column id), step.column = column + 1 ∧
          step.question? = none := by
      intro step hstep
      obtain ⟨id, p, dot, j, -, -, rfl⟩ := (Chart.mem_scanSteps_iff h.indexed).1 hstep
      exact ⟨rfl, rfl⟩
    have hcol := h.succ_lt ht
    have hg := Chart.performAll_grows h.indexed h.deduped _
      fun step hstep => (hmem step hstep).1 ▸ hcol
    refine hasked.mono (fun id hlt => ?_) (Nat.le_refl _) ?_
    · rw [Progress.chart_foldl_perform, hg.place?_eq id hlt]
    · rw [Progress.questions_foldl_perform,
        List.filterMap_eq_nil_iff.2 fun step hstep => (hmem step hstep).2, List.append_nil]

lemma initial : Asked G w 0 ⟨G.initialChart w, #[]⟩ where
  meets := by simp [Progress.questions]
  least := fun b a q _ hb => absurd hb (Nat.not_lt_zero b)
  most := by simp [Progress.asked, Progress.questions]

end Asked

/-! ### Whole runs -/

lemma asked_lastProgress (hG : G.Closed) (w : List Token) :
    ∃ i, Filled G w i (G.lastProgress w).chart ∧
      Asked G w (G.lastProgress w).chart.entries.size (G.lastProgress w) :=
  advance_induction hG (Asked.fill hG) Asked.read filling_initialChart List.drop_zero.symm
    Asked.initial

/-- What recognition concludes asks nothing. -/
lemma questions_conclude (s : Progress) : (G.conclude w s).1.questions = s.questions := by
  rw [Grammar.conclude]
  split
  · rfl
  · split <;> simp [Progress.questions, Progress.note]

lemma filterMap_consultation? (s : Progress) :
    s.events.toList.filterMap Recognition.Event.consultation? = s.questions.map Prod.snd := by
  rw [Progress.questions, List.map_filterMap]
  refine List.filterMap_congr fun e _ => ?_
  cases e with
  | step s =>
    simp [Recognition.Event.consultation?, Step.question?, Option.map_bind, Function.comp_def]
  | _ => rfl

lemma consultations_eq : (G.recognize w).consultations =
    (G.lastProgress w).questions.map Prod.snd := by
  rw [Recognition.consultations, Grammar.recognize, Grammar.lastProgress]
  split
  · next s e hs =>
    rw [hs]
    exact filterMap_consultation? s
  · next s hs =>
    rw [hs, ← questions_conclude s]
    exact filterMap_consultation? _

/-- The questions in a list about entries that meet are those about one pair of entries. -/
lemma Asked.timesAsked_eq {next b a : Nat} {s : Progress} {q : ReturnContext × Bool}
    (h : Asked G w next s) (hc : s.chart.Indexed) (hm : s.chart.Meets G w b a q) :
    (s.questions.map Prod.snd).countP (fun q' => q'.1 = q.1) = s.asked b a := by
  rw [Progress.asked, List.countP_map, List.count, List.countP_map]
  refine List.countP_congr ?_
  rintro ⟨⟨b', a'⟩, q'⟩ hmem
  have hm' := h.meets b' a' q' hmem
  simp only [Function.comp_apply, decide_eq_true_eq, beq_iff_eq, Prod.mk.injEq]
  constructor
  · exact fun hq => hm'.inj hc hm hq
  · rintro ⟨rfl, rfl⟩
    rw [hm'.unique hm]

/-- Constraints are asked truthfully, about each entry that awaits a nonterminal and each entry that
completes the nonterminal where it is awaited, at least once and at most twice, and once if the
phrase of the nonterminal is not empty. This holds of the chart at which recognition stops, which is
that of the parse if there is one. -/
theorem consultations_exact {start : NonTerminal} {rules : List RuleDecl}
    (hG : Grammar.build start rules = .ok G) (w : List Token) :
    (∀ x answer, (x, answer) ∈ (G.recognize w).consultations → x.Truthful G w ∧
      x.calleeTokens.length = x.position - x.calleeOrigin ∧
      ∃ prod permits, G.prods[x.prod]? = some prod ∧ prod.constraint = some permits ∧
        answer = permits x) ∧
    (∀ p dot j m k n prod, (G.lastProgress w).chart.Holds ⟨.item p dot, j, m⟩ →
      (G.lastProgress w).chart.Holds ⟨.finish n, m, k⟩ → G.prods[p]? = some prod →
      prod.body[dot]? = some (.nonterminal n) → prod.constraint.isSome = true →
      1 ≤ (G.recognize w).timesAsked (prod.context p dot n j m k w) ∧
        (G.recognize w).timesAsked (prod.context p dot n j m k w) ≤ 2 ∧
        (m < k → (G.recognize w).timesAsked (prod.context p dot n j m k w) = 1)) ∧
    ∀ P, (G.recognize w).result = .ok P → P.chart = (G.lastProgress w).chart := by
  obtain ⟨i, hfilled, hasked⟩ := asked_lastProgress (Grammar.closed_of_build hG) w
  refine ⟨fun x answer hq => ?_, ?_, fun P hP => chart_eq_of_recognize hP⟩
  · rw [consultations_eq, List.mem_map] at hq
    obtain ⟨⟨⟨b, a⟩, q⟩, hmem, rfl⟩ := hq
    have hm := hasked.meets b a _ hmem
    have htrue := hm.truthful fun id x hx => hfilled.valid ⟨id, hx⟩
    exact ⟨htrue, htrue.length_calleeTokens, hm.answer_eq⟩
  · rintro p dot j m k n prod ⟨b, hb⟩ ⟨a, ha⟩ hp hs hc
    obtain ⟨permits, hc⟩ := Option.isSome_iff_exists.1 hc
    have hm := Chart.Meets.intro hb ha hp hs hc (w := w)
    have htimes : (G.recognize w).timesAsked (prod.context p dot n j m k w) =
        (G.lastProgress w).asked b a := by
      rw [Recognition.timesAsked, consultations_eq]
      exact hasked.timesAsked_eq hfilled.indexed hm
    have hleast := hasked.least b a _ hm hm.lt_size.1 hm.lt_size.2
    have hmost := hasked.most b a _ hm
    rw [if_pos hm.lt_size.2] at hmost
    rw [htimes]
    refine ⟨hleast, ?_, fun hmk => ?_⟩
    · split_ifs at hmost <;> omega
    · rw [if_neg] at hmost
      · omega
      · rintro ⟨-, hempty⟩
        exact Nat.ne_of_lt hmk hempty

/-- `S => A c | T; T => A b; A => ε`, where the second caller of the empty phrase comes up between
its item and its finish. -/
def Samples.lateCaller : Grammar :=
  .ofRules ⟨"S"⟩
    [rule "S" [[nt "A", tm "c"], [nt "T"]],
      ⟨⟨"T"⟩, [([nt "A", tm "b"], some fun c => c.position == 0)]⟩,
      rule "A" [[]]]

/-- The late caller finds the empty phrase, which then finds the late caller. -/
theorem consultations_exact_lateCaller :
    Grammar.build ⟨"S"⟩
        [Samples.rule "S" [[Samples.nt "A", Samples.tm "c"], [Samples.nt "T"]],
          ⟨⟨"T"⟩, [([Samples.nt "A", Samples.tm "b"], some fun c => c.position == 0)]⟩,
          Samples.rule "A" [[]]] = .ok Samples.lateCaller ∧
      ∃ x, (Samples.lateCaller.recognize [.plain "b"]).consultations = [(x, true), (x, true)] ∧
        x.Truthful Samples.lateCaller [.plain "b"] ∧
        (Samples.lateCaller.recognize [.plain "b"]).timesAsked x ≤ 2 := by
  have hbuild : Grammar.build ⟨"S"⟩
      [Samples.rule "S" [[Samples.nt "A", Samples.tm "c"], [Samples.nt "T"]],
        ⟨⟨"T"⟩, [([Samples.nt "A", Samples.tm "b"], some fun c => c.position == 0)]⟩,
        Samples.rule "A" [[]]] = .ok Samples.lateCaller := rfl
  obtain ⟨htruthful, htimes, -⟩ := consultations_exact hbuild [.plain "b"]
  obtain ⟨prod, hp⟩ : ∃ prod, Samples.lateCaller.prods[2]? = some prod := ⟨_, rfl⟩
  have hasked : (Samples.lateCaller.recognize [.plain "b"]).consultations =
      [(prod.context 2 0 ⟨"A"⟩ 0 0 0 [.plain "b"], true),
        (prod.context 2 0 ⟨"A"⟩ 0 0 0 [.plain "b"], true)] := by
    cases hp
    decide +kernel
  refine ⟨hbuild, _, hasked, (htruthful _ true (by rw [hasked]; exact List.mem_cons_self)).1, ?_⟩
  refine (htimes 2 0 0 0 0 ⟨"A"⟩ prod ⟨6, ?_⟩ ⟨7, ?_⟩ hp ?_ ?_).2.1
  · decide +kernel
  · decide +kernel
  · cases hp
    rfl
  · cases hp
    rfl

end ParseForest
