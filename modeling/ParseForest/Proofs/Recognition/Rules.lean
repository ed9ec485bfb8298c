import ParseForest.Proofs.Chart.Places
import ParseForest.Recognition.Basic

/-!
# The rules of recognition as a relation

`Leads` says what the five rules put into a chart: which antecedent an entry of which place is
pushed for. The relation reads the chart as a table of places, so that it can be asked of a part of
the chart as well. The main statements are that a step from an entry is an instance of a rule,
`leads_of_mem_steps`, and that the steps from an entry together with what the entries before it lead
to are all that the entries up to it lead to, `leads_below_succ`.
-/

namespace ParseForest

/-- The part of a table with the numbers below a bound. -/
def below (bound : Nat) (K : Nat → Option Place) : Nat → Option Place :=
  fun id => if id < bound then K id else none

lemma below_eq_some {bound id : Nat} {K : Nat → Option Place} {x : Place} :
    below bound K id = some x ↔ id < bound ∧ K id = some x := by
  simp [below]

/-- An entry of the place `x` is pushed for the entry `a`, if the table has the places of the
entries and the tokens before `read` have been read. -/
inductive Leads (G : Grammar) (w : List Token) (K : Nat → Option Place) (read : Nat) :
    Nat → Place → Prop where
  /-- A start leads to the first item of each production. -/
  | start {a p i o : Nat} {n : NonTerminal} (ha : K a = some ⟨.start n, o, i⟩)
      (hp : p ∈ G.prodsOf n) : Leads G w K read a ⟨.item p 0, i, i⟩
  /-- An item before a nonterminal leads to its start. -/
  | call {a p dot j i : Nat} {n : NonTerminal} (ha : K a = some ⟨.item p dot, j, i⟩)
      (hs : G.symbolAt? p dot = some (.nonterminal n)) : Leads G w K read a ⟨.start n, i, i⟩
  /-- A complete item leads to the finish of its head. -/
  | exit {a p j i : Nat} {prod : Production} (hp : G.prods[p]? = some prod)
      (ha : K a = some ⟨.item p prod.body.length, j, i⟩) :
      Leads G w K read a ⟨.finish prod.head, j, i⟩
  /-- A finish leads on an item that called it, if the production of the item permits it. -/
  | resume {a b p dot j m i : Nat} {prod : Production} {n : NonTerminal}
      (ha : K a = some ⟨.finish n, m, i⟩) (hb : K b = some ⟨.item p dot, j, m⟩)
      (hp : G.prods[p]? = some prod) (hs : prod.body[dot]? = some (.nonterminal n))
      (hc : prod.permits (prod.context p dot n j m i w) = true) :
      Leads G w K read a ⟨.item p (dot + 1), j, i⟩
  /-- An item before a terminal leads over a token of its kind. -/
  | scan {a p dot j i : Nat} {t : Token} (ha : K a = some ⟨.item p dot, j, i⟩)
      (hs : G.symbolAt? p dot = some (.terminal t.kind)) (ht : w[i]? = some t) (hi : i < read) :
      Leads G w K read a ⟨.item p (dot + 1), j, i + 1⟩

lemma Grammar.symbolAt?_eq {G : Grammar} {p dot : Nat} {prod : Production}
    (hp : G.prods[p]? = some prod) : G.symbolAt? p dot = prod.body[dot]? := by
  simp [Grammar.symbolAt?, hp]

variable {G : Grammar} {w : List Token}

lemma Leads.mono {K K' : Nat → Option Place} {read read' a : Nat} {x : Place}
    (h : Leads G w K read a x) (hK : ∀ id y, K id = some y → K' id = some y)
    (hread : read ≤ read') : Leads G w K' read' a x := by
  cases h with
  | start ha hp => exact .start (hK _ _ ha) hp
  | call ha hs => exact .call (hK _ _ ha) hs
  | exit hp ha => exact .exit hp (hK _ _ ha)
  | resume ha hb hp hs hc => exact .resume (hK _ _ ha) (hK _ _ hb) hp hs hc
  | scan ha hs ht hi => exact .scan (hK _ _ ha) hs ht (Nat.lt_of_lt_of_le hi hread)

/-- With one more token read, only the scans of that token are new. -/
lemma Leads.of_read_succ {K : Nat → Option Place} {a read : Nat} {x : Place}
    (h : Leads G w K (read + 1) a x) :
    Leads G w K read a x ∨ ∃ p dot j t, K a = some ⟨.item p dot, j, read⟩ ∧
      G.symbolAt? p dot = some (.terminal t.kind) ∧ w[read]? = some t ∧
      x = ⟨.item p (dot + 1), j, read + 1⟩ := by
  cases h with
  | start ha hp => exact Or.inl (.start ha hp)
  | call ha hs => exact Or.inl (.call ha hs)
  | exit hp ha => exact Or.inl (.exit hp ha)
  | resume ha hb hp hs hc => exact Or.inl (.resume ha hb hp hs hc)
  | scan ha hs ht hi =>
    rcases Nat.lt_succ_iff_lt_or_eq.1 hi with hi | rfl
    · exact Or.inl (.scan ha hs ht hi)
    · exact Or.inr ⟨_, _, _, _, ha, hs, ht, rfl⟩

/-! ### Steps from an entry -/

namespace Chart

variable {c : Chart} {column id : Nat}

lemma returnStep?_eq {caller completed p dot j m m' i : Nat} {prod : Production} {n : NonTerminal}
    (hb : c.place? caller = some ⟨.item p dot, j, m⟩)
    (ha : c.place? completed = some ⟨.finish n, m', i⟩) (hp : G.prods[p]? = some prod) :
    G.returnStep? w c column caller completed =
      some ⟨.resume ⟨caller, prod.context p dot n j m' column w,
        prod.verdict (prod.context p dot n j m' column w)⟩, completed, .item p (dot + 1), j,
        column⟩ := by
  obtain ⟨e, he, hpe⟩ := place?_eq_some.1 hb
  obtain ⟨f, hf, hpf⟩ := place?_eq_some.1 ha
  simp only [Entry.place, Place.mk.injEq] at hpe hpf
  obtain ⟨hv, rfl, rfl⟩ := hpe
  obtain ⟨hv', rfl, rfl⟩ := hpf
  simp [Grammar.returnStep?, he, hf, hv, hv', hp]

lemma steps_start {n : NonTerminal} {o i : Nat} (h : c.place? id = some ⟨.start n, o, i⟩) :
    G.steps w c column id =
      (G.prodsOf n).map fun p => ⟨.start, id, .item p 0, column, column⟩ := by
  obtain ⟨e, he, hp⟩ := place?_eq_some.1 h
  simp only [Entry.place, Place.mk.injEq] at hp
  simp [Grammar.steps, he, hp.1]

lemma steps_finish {n : NonTerminal} {o i : Nat} (h : c.place? id = some ⟨.finish n, o, i⟩) :
    G.steps w c column id =
      (c.awaiting G (.nonterminal n) o).filterMap fun caller =>
        G.returnStep? w c column caller id := by
  obtain ⟨e, he, hp⟩ := place?_eq_some.1 h
  simp only [Entry.place, Place.mk.injEq] at hp
  simp [Grammar.steps, he, hp.1, hp.2.1]

lemma steps_item {p dot o i : Nat} {prod : Production}
    (h : c.place? id = some ⟨.item p dot, o, i⟩) (hprod : G.prods[p]? = some prod) :
    G.steps w c column id =
      match prod.body[dot]? with
      | none => [⟨.exit (.item p dot), id, .finish prod.head, o, column⟩]
      | some (.terminal _) => []
      | some (.nonterminal callee) =>
        ⟨.call callee, id, .start callee, column, column⟩
          :: ((c.find? (.finish callee) column column).bind
            fun done => G.returnStep? w c column id done).toList := by
  obtain ⟨e, he, hp⟩ := place?_eq_some.1 h
  simp only [Entry.place, Place.mk.injEq] at hp
  cases hs : prod.body[dot]? with
  | none => simp only [Grammar.steps, he, hp.1, hp.2.1, hprod, hs]
  | some s => cases s <;> simp only [Grammar.steps, he, hp.1, hprod, hs]

/-- An item is one of a production, with a dot inside of it. -/
def ItemsOf (G : Grammar) (c : Chart) : Prop :=
  ∀ id p dot o i, c.place? id = some ⟨.item p dot, o, i⟩ →
    ∃ prod, G.prods[p]? = some prod ∧ dot ≤ prod.body.length

/-- A return that is not vetoed follows the rule. -/
lemma leads_of_returnStep? {caller completed p dot j m i read : Nat} {prod : Production}
    {n : NonTerminal} {s : Step} (hb : c.place? caller = some ⟨.item p dot, j, m⟩)
    (ha : c.place? completed = some ⟨.finish n, m, i⟩) (hp : G.prods[p]? = some prod)
    (hn : prod.body[dot]? = some (.nonterminal n))
    (hs : G.returnStep? w c i caller completed = some s) (hv : s.isVetoed = false) :
    Leads G w c.place? read s.source s.place := by
  rw [returnStep?_eq hb ha hp] at hs
  obtain rfl := Option.some.inj hs
  refine Leads.resume ha hb hp hn ?_
  simpa [Step.isVetoed, Step.return?, Production.permits] using hv

/-- Every step from an entry that is not vetoed is an instance of a rule. -/
lemma leads_of_mem_steps (hc : c.Indexed) (hitems : c.ItemsOf G) {v : Vertex} {o read : Nat}
    {s : Step} (hid : c.place? id = some ⟨v, o, column⟩) (hs : s ∈ G.steps w c column id)
    (hv : s.isVetoed = false) : Leads G w c.place? read s.source s.place := by
  cases v with
  | start n =>
    rw [steps_start hid] at hs
    obtain ⟨p, hp, rfl⟩ := List.mem_map.1 hs
    exact .start hid hp
  | finish n =>
    rw [steps_finish hid] at hs
    obtain ⟨caller, hcaller, hret⟩ := List.mem_filterMap.1 hs
    obtain ⟨p, dot, j, hb, hn⟩ := hc.mem_awaiting_iff.1 hcaller
    obtain ⟨prod, hp, -⟩ := hitems _ _ _ _ _ hb
    rw [Grammar.symbolAt?_eq hp] at hn
    exact leads_of_returnStep? hb hid hp hn hret hv
  | item p dot =>
    obtain ⟨prod, hp, hdot⟩ := hitems _ _ _ _ _ hid
    rw [steps_item hid hp] at hs
    split at hs
    · next hn =>
      obtain rfl := List.mem_singleton.1 hs
      obtain rfl : dot = prod.body.length :=
        Nat.le_antisymm hdot (List.getElem?_eq_none_iff.1 hn)
      exact .exit hp hid
    · cases hs
    · next callee hn =>
      rcases List.mem_cons.1 hs with rfl | hs
      · exact .call hid (by rw [Grammar.symbolAt?_eq hp, hn])
      · rw [Option.mem_toList, Option.bind_eq_some_iff] at hs
        obtain ⟨done, hdone, hret⟩ := hs
        exact leads_of_returnStep? hid (hc.find?_eq_some_iff.1 hdone) hp hn hret hv

/-- All steps from an entry of a column stay in the column. -/
lemma column_of_mem_steps {s : Step} (hs : s ∈ G.steps w c column id) : s.column = column := by
  have hret : ∀ caller completed, G.returnStep? w c column caller completed = some s →
      s.column = column := by
    intro caller completed h
    unfold Grammar.returnStep? at h
    split at h
    · split at h
      · obtain ⟨prod, -, rfl⟩ := Option.map_eq_some_iff.1 h
        rfl
      · cases h
    · cases h
  unfold Grammar.steps at hs
  split at hs
  · cases hs
  · split at hs
    · obtain ⟨p, -, rfl⟩ := List.mem_map.1 hs
      rfl
    · obtain ⟨caller, -, h⟩ := List.mem_filterMap.1 hs
      exact hret _ _ h
    · split at hs
      · cases hs
      · split at hs
        · obtain rfl := List.mem_singleton.1 hs
          rfl
        · cases hs
        · rcases List.mem_cons.1 hs with rfl | hs
          · rfl
          · rw [Option.mem_toList, Option.bind_eq_some_iff] at hs
            obtain ⟨done, -, h⟩ := hs
            exact hret _ _ h

/-- What the entries up to `id` lead to is what those before it lead to and what the steps from it
record. -/
lemma leads_below_succ (hc : c.Indexed) {v : Vertex} {o a : Nat} {x : Place}
    (hlast : ∀ id y, c.place? id = some y → y.origin ≤ y.column ∧ y.column ≤ column)
    (hid : c.place? id = some ⟨v, o, column⟩)
    (h : Leads G w (below (id + 1) c.place?) column a x) :
    Leads G w (below id c.place?) column a x ∨
      ∃ s ∈ G.steps w c column id, s.isVetoed = false ∧ s.source = a ∧ s.place = x := by
  have split : ∀ {b : Nat} {y : Place}, below (id + 1) c.place? b = some y →
      below id c.place? b = some y ∨ (b = id ∧ c.place? id = some y) := by
    intro b y hb
    obtain ⟨hlt, hy⟩ := below_eq_some.1 hb
    rcases Nat.lt_succ_iff_lt_or_eq.1 hlt with hlt | rfl
    · exact Or.inl (below_eq_some.2 ⟨hlt, hy⟩)
    · exact Or.inr ⟨rfl, hy⟩
  cases h with
  | start ha hp =>
    rcases split ha with ha | ⟨rfl, ha⟩
    · exact Or.inl (.start ha hp)
    · rw [hid, Option.some.injEq, Place.mk.injEq] at ha
      obtain ⟨rfl, rfl, rfl⟩ := ha
      rw [steps_start hid]
      exact Or.inr ⟨_, List.mem_map.2 ⟨_, hp, rfl⟩, rfl, rfl, rfl⟩
  | call ha hs =>
    rcases split ha with ha | ⟨rfl, ha⟩
    · exact Or.inl (.call ha hs)
    · rw [hid, Option.some.injEq, Place.mk.injEq] at ha
      obtain ⟨rfl, rfl, rfl⟩ := ha
      obtain ⟨prod, hp, hn⟩ := Option.bind_eq_some_iff.1 hs
      rw [steps_item hid hp, hn]
      exact Or.inr ⟨_, List.mem_cons_self, rfl, rfl, rfl⟩
  | exit hp ha =>
    rcases split ha with ha | ⟨rfl, ha⟩
    · exact Or.inl (.exit hp ha)
    · rw [hid, Option.some.injEq, Place.mk.injEq] at ha
      obtain ⟨rfl, rfl, rfl⟩ := ha
      rw [steps_item hid hp, List.getElem?_eq_none (Nat.le_refl _)]
      exact Or.inr ⟨_, List.mem_singleton.2 rfl, rfl, rfl, rfl⟩
  | scan ha hs ht hi =>
    rcases split ha with ha | ⟨rfl, ha⟩
    · exact Or.inl (.scan ha hs ht hi)
    · rw [hid, Option.some.injEq, Place.mk.injEq] at ha
      obtain ⟨-, -, rfl⟩ := ha
      exact absurd hi (Nat.lt_irrefl _)
  | @resume b p dot j m i prod n ha hb hp hn hperm =>
    have hveto : ∀ caller, Step.isVetoed ⟨.resume ⟨caller, prod.context p dot n j m i w,
        prod.verdict (prod.context p dot n j m i w)⟩, a, .item p (dot + 1), j, i⟩ = false := by
      intro caller
      simpa [Step.isVetoed, Step.return?, Production.permits] using hperm
    have hb' := (below_eq_some.1 hb).2
    have ha' := (below_eq_some.1 ha).2
    rcases split ha with ha | ⟨rfl, ha⟩
    · rcases split hb with hb | ⟨rfl, hb⟩
      · exact Or.inl (.resume ha hb hp hn hperm)
      · -- The caller comes last: its nonterminal was completed in this very column.
        rw [hid, Option.some.injEq, Place.mk.injEq] at hb
        obtain ⟨rfl, rfl, rfl⟩ := hb
        obtain rfl : i = column := Nat.le_antisymm (hlast _ _ ha').2 (hlast _ _ ha').1
        rw [steps_item hid hp, hn]
        refine Or.inr ⟨_, List.mem_cons_of_mem _ ?_, hveto b, rfl, rfl⟩
        rw [Option.mem_toList, hc.find?_eq_some_iff.2 ha']
        exact returnStep?_eq hid ha' hp
    · rw [hid, Option.some.injEq, Place.mk.injEq] at ha
      obtain ⟨rfl, rfl, rfl⟩ := ha
      rw [steps_finish hid]
      refine Or.inr ⟨_, List.mem_filterMap.2 ⟨b, ?_, returnStep?_eq hb' hid hp⟩, hveto b, rfl, rfl⟩
      exact hc.mem_awaiting_iff.2 ⟨p, dot, j, hb', by rw [Grammar.symbolAt?_eq hp, hn]⟩

/-! ### Scanning -/

lemma scanStep?_eq {p dot j i : Nat} (h : c.place? id = some ⟨.item p dot, j, i⟩) :
    c.scanStep? column id = some ⟨.scan, id, .item p (dot + 1), j, column + 1⟩ := by
  obtain ⟨e, he, hp⟩ := place?_eq_some.1 h
  simp only [Entry.place, Place.mk.injEq] at hp
  simp [scanStep?, he, hp.1, hp.2.1]

/-- The steps over a token are the scans of the items before its kind. -/
lemma mem_scanSteps_iff (hc : c.Indexed) {t : Token} {s : Step} :
    s ∈ (c.awaiting G (.terminal t.kind) column).filterMap (fun id => c.scanStep? column id) ↔
      ∃ id p dot j, c.place? id = some ⟨.item p dot, j, column⟩ ∧
        G.symbolAt? p dot = some (.terminal t.kind) ∧
        s = ⟨.scan, id, .item p (dot + 1), j, column + 1⟩ := by
  rw [List.mem_filterMap]
  constructor
  · rintro ⟨id, hid, hs⟩
    obtain ⟨p, dot, j, hx, ht⟩ := hc.mem_awaiting_iff.1 hid
    rw [scanStep?_eq hx] at hs
    exact ⟨id, p, dot, j, hx, ht, (Option.some.inj hs).symm⟩
  · rintro ⟨id, p, dot, j, hx, ht, rfl⟩
    exact ⟨id, hc.mem_awaiting_iff.2 ⟨p, dot, j, hx, ht⟩, scanStep?_eq hx⟩

end Chart

end ParseForest
