import ParseForest.Grammar.Build
import Mathlib.Tactic.Lemma

/-!
# Faults of declarations

A declaration has a fault if its start symbol or a nonterminal that is used heads no rule, and the
fault that is reported is the first one, `fault?_ofRules_eq_some_iff`. A grammar that is built has
none, so all its nonterminals head rules, `Grammar.closed_of_build`.
-/

namespace ParseForest

variable {start n : NonTerminal} {rules : List RuleDecl} {G : Grammar} {e : GrammarError}
  {prod : Production}

/-- The nonterminal heads one of the declarations. -/
def Declares (rules : List RuleDecl) (n : NonTerminal) : Prop :=
  ∃ r ∈ rules, r.head = n

/-- The first use of a nonterminal that heads no declaration, in the order of the productions and
their bodies, and the head of the production that it is in. -/
def FirstUndefined (rules : List RuleDecl) (n user : NonTerminal) : Prop :=
  ∃ before prod after front back,
    rules.flatMap RuleDecl.productions = before ++ prod :: after ∧
    prod.body = front ++ .nonterminal n :: back ∧ prod.head = user ∧ ¬ Declares rules n ∧
    (∀ q ∈ before, ∀ m, .nonterminal m ∈ q.body → Declares rules m) ∧
    ∀ m, .nonterminal m ∈ front → Declares rules m

namespace Grammar

lemma mem_heads_ofRules : n ∈ (ofRules start rules).heads ↔ Declares rules n := by
  simp [ofRules, Declares]

lemma undefinedIn?_eq_none_iff :
    G.undefinedIn? prod = none ↔ ∀ m, .nonterminal m ∈ prod.body → m ∈ G.heads := by
  simp only [undefinedIn?, Option.map_eq_none_iff, List.find?_eq_none, List.mem_filterMap,
    decide_eq_true_eq, Decidable.not_not]
  constructor
  · exact fun h m hm => h m ⟨_, hm, rfl⟩
  · rintro h m ⟨s, hs, hm⟩
    cases s with
    | terminal => cases hm
    | nonterminal => exact h m (Option.some.inj hm ▸ hs)

/-- The first nonterminal of a body with a property. -/
lemma find?_nonterminal_eq_some_iff {body : List Symbol} {q : NonTerminal → Bool} :
    (body.filterMap Symbol.nonterminal?).find? q = some n ↔
      ∃ front back, body = front ++ .nonterminal n :: back ∧ q n = true ∧
        ∀ m, .nonterminal m ∈ front → q m = false := by
  rw [List.find?_eq_some_iff_append]
  constructor
  · rintro ⟨hn, as, bs, hbody, has⟩
    obtain ⟨front, rest, rfl, rfl, hrest⟩ := List.filterMap_eq_append_iff.1 hbody
    obtain ⟨terminals, s, back, rfl, hterminals, hs, -⟩ := List.filterMap_eq_cons_iff.1 hrest
    refine ⟨front ++ terminals, back, ?_, hn, fun m hm => ?_⟩
    · cases s with
      | terminal => cases hs
      | nonterminal m =>
        cases hs
        rw [List.append_assoc]
    · rcases List.mem_append.1 hm with hm | hm
      · simpa using has m (List.mem_filterMap.2 ⟨_, hm, rfl⟩)
      · cases hterminals _ hm
  · rintro ⟨front, back, rfl, hn, hfront⟩
    refine ⟨hn, front.filterMap Symbol.nonterminal?, back.filterMap Symbol.nonterminal?,
      by simp [Symbol.nonterminal?], fun m hm => ?_⟩
    obtain ⟨s, hs, hm⟩ := List.mem_filterMap.1 hm
    cases s with
    | terminal => cases hm
    | nonterminal m' =>
      cases hm
      simpa using hfront m hs

lemma undefinedIn?_eq_some_iff :
    G.undefinedIn? prod = some e ↔ ∃ n front back, prod.body = front ++ .nonterminal n :: back ∧
      n ∉ G.heads ∧ (∀ m, .nonterminal m ∈ front → m ∈ G.heads) ∧
      e = .undefinedNonTerminal n prod.head := by
  simp only [undefinedIn?, Option.map_eq_some_iff, find?_nonterminal_eq_some_iff,
    decide_eq_true_eq, decide_eq_false_iff_not, Decidable.not_not]
  constructor
  · rintro ⟨n, ⟨front, back, hbody, hn, hfront⟩, rfl⟩
    exact ⟨n, front, back, hbody, hn, hfront, rfl⟩
  · rintro ⟨n, front, back, hbody, hn, hfront, rfl⟩
    exact ⟨n, ⟨front, back, hbody, hn, hfront⟩, rfl⟩

lemma fault?_eq_none_iff :
    G.fault? = none ↔ G.start ∈ G.heads ∧
      ∀ prod ∈ G.prods, ∀ m, .nonterminal m ∈ prod.body → m ∈ G.heads := by
  simp only [fault?]
  split
  · next hstart => simp [hstart, List.findSome?_eq_none_iff, undefinedIn?_eq_none_iff]
  · next hstart => simp [hstart]

lemma fault?_ofRules_eq_some_iff :
    (ofRules start rules).fault? = some e ↔
      ¬ Declares rules start ∧ e = .missingStartRule start ∨
      Declares rules start ∧ ∃ n user, FirstUndefined rules n user ∧
        e = .undefinedNonTerminal n user := by
  have hstart : (ofRules start rules).start ∈ (ofRules start rules).heads ↔ Declares rules start :=
    mem_heads_ofRules
  unfold fault?
  split
  · next h =>
    rw [List.findSome?_eq_some_iff]
    simp only [undefinedIn?_eq_some_iff, undefinedIn?_eq_none_iff, mem_heads_ofRules]
    constructor
    · rintro ⟨before, prod, after, hprods, ⟨n, front, back, hbody, hn, hfront, rfl⟩, hbefore⟩
      exact Or.inr ⟨hstart.1 h, n, prod.head,
        ⟨before, prod, after, front, back, hprods, hbody, rfl, hn, hbefore, hfront⟩, rfl⟩
    · rintro (⟨hno, -⟩ | ⟨-, n, user,
        ⟨before, prod, after, front, back, hprods, hbody, rfl, hn, hbefore, hfront⟩, rfl⟩)
      · exact absurd (hstart.1 h) hno
      · exact ⟨before, prod, after, hprods, ⟨n, front, back, hbody, hn, hfront, rfl⟩, hbefore⟩
  · next h =>
    have hno : ¬ Declares rules start := fun hd => h (hstart.2 hd)
    simp [hno, ofRules, eq_comm]

lemma build_eq_error_iff :
    build start rules = .error e ↔ (ofRules start rules).fault? = some e := by
  unfold build
  split
  · next hfault => simp [hfault]
  · next hfault => simp [hfault]

lemma build_eq_ok_iff :
    build start rules = .ok G ↔ (ofRules start rules).fault? = none ∧ ofRules start rules = G := by
  unfold build
  split
  · next hfault => simp [hfault]
  · next hfault => simp [hfault]

/-- All nonterminals of the grammar head rules. -/
structure Closed (G : Grammar) : Prop where
  start_mem : G.start ∈ G.heads
  head_mem : ∀ prod ∈ G.prods, prod.head ∈ G.heads
  body_mem : ∀ prod ∈ G.prods, ∀ n, Symbol.nonterminal n ∈ prod.body → n ∈ G.heads

lemma head_mem_heads_ofRules (hp : prod ∈ (ofRules start rules).prods) :
    prod.head ∈ (ofRules start rules).heads := by
  obtain ⟨r, hr, hb⟩ := List.mem_flatMap.1 hp
  obtain ⟨b, -, rfl⟩ := List.mem_map.1 hb
  exact mem_heads_ofRules.2 ⟨r, hr, rfl⟩

/-- A grammar that is built has rules for all its nonterminals. -/
lemma closed_of_build (h : build start rules = .ok G) : G.Closed := by
  obtain ⟨hfault, rfl⟩ := build_eq_ok_iff.1 h
  obtain ⟨hstart, hbody⟩ := fault?_eq_none_iff.1 hfault
  exact ⟨hstart, fun prod => head_mem_heads_ofRules, hbody⟩

end Grammar

end ParseForest
