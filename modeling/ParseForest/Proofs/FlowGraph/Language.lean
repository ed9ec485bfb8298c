import ParseForest.Grammar.Samples
import ParseForest.Proofs.FlowGraph.Edges
import Mathlib.Computability.ContextFreeGrammar

/-!
# The language of a flow graph

A flow graph is walked with a stack of items: a call pushes the item that it leaves, and at a finish
the walk pops an item and goes on behind the nonterminal that it called. What is still to be read
in a configuration is what is ahead of its vertex and behind the calls on its stack, and a run reads
what this generates. The main statement, `mem_language_iff_runs`, says that the runs through a
nonterminal read the words that rewriting derives from it.
-/

/-- A symbol of a context-free grammar in general. -/
abbrev FormalSymbol (T N : Type) := Symbol T N

namespace ParseForest

open Relation

/-! ### Derived words -/

def Symbol.formal : Symbol → FormalSymbol Terminal NonTerminal
  | .terminal t => .terminal t
  | .nonterminal n => .nonterminal n

def Production.rewriting (prod : Production) : ContextFreeRule Terminal NonTerminal where
  input := prod.head
  output := prod.body.map Symbol.formal

namespace Grammar

/-- The rewriting rules of the grammar, without the constraints, for words of a nonterminal. -/
def contextFree (G : Grammar) (n : NonTerminal) : ContextFreeGrammar Terminal where
  NT := NonTerminal
  initial := n
  rules := (G.prods.map Production.rewriting).toFinset

/-- Each symbol generates a piece of the word: a terminal itself, a nonterminal what the body of one
of its productions generates. -/
inductive Generates (G : Grammar) : List Symbol → List Terminal → Prop where
  | nil : Generates G [] []
  | terminal {t : Terminal} {s : List Symbol} {w : List Terminal} (h : Generates G s w) :
      Generates G (.terminal t :: s) (t :: w)
  | nonterminal {prod : Production} {s : List Symbol} {u w : List Terminal} (hp : prod ∈ G.prods)
      (hb : Generates G prod.body u) (h : Generates G s w) :
      Generates G (.nonterminal prod.head :: s) (u ++ w)

variable {G : Grammar} {n : NonTerminal} {s s' : List Symbol} {w : List Terminal}

lemma generates_append_iff :
    G.Generates (s ++ s') w ↔ ∃ u v, w = u ++ v ∧ G.Generates s u ∧ G.Generates s' v := by
  constructor
  · intro h
    induction s generalizing w with
    | nil => exact ⟨[], w, rfl, .nil, h⟩
    | cons a s ih =>
      cases h with
      | terminal h =>
        obtain ⟨u, v, rfl, hu, hv⟩ := ih h
        exact ⟨_ :: u, v, rfl, .terminal hu, hv⟩
      | nonterminal hp hb h =>
        obtain ⟨u, v, rfl, hu, hv⟩ := ih h
        exact ⟨_ ++ u, v, (List.append_assoc ..).symm, .nonterminal hp hb hu, hv⟩
  · rintro ⟨u, v, rfl, hu, hv⟩
    induction hu with
    | nil => exact hv
    | terminal _ ih => exact .terminal ih
    | nonterminal hp hb _ _ ih =>
      rw [List.append_assoc]
      exact .nonterminal hp hb ih

lemma Generates.of_body {prod : Production} (hp : prod ∈ G.prods)
    (h : G.Generates (prod.body ++ s) w) : G.Generates (.nonterminal prod.head :: s) w := by
  obtain ⟨u, v, rfl, hu, hv⟩ := generates_append_iff.1 h
  exact .nonterminal hp hu hv

lemma generates_terminals (w : List Terminal) : G.Generates (w.map .terminal) w := by
  induction w with
  | nil => exact .nil
  | cons t w ih => exact .terminal ih

lemma formal_injective : Function.Injective Symbol.formal := by
  intro a b h
  cases a <;> cases b <;> simp_all [Symbol.formal]

lemma mem_rules_iff {r : ContextFreeRule Terminal NonTerminal} :
    r ∈ (G.contextFree n).rules ↔ ∃ prod ∈ G.prods, prod.rewriting = r := by
  show r ∈ (G.prods.map Production.rewriting).toFinset ↔ _
  simp

lemma produces_of_mem {prod : Production} (hp : prod ∈ G.prods)
    (q : List (FormalSymbol Terminal NonTerminal)) :
    (G.contextFree n).Produces (.nonterminal prod.head :: q) (prod.body.map Symbol.formal ++ q) :=
  ⟨prod.rewriting, mem_rules_iff.2 ⟨prod, hp, rfl⟩, .head q⟩

/-- Rewriting puts the body of a production in the place of its head. -/
lemma exists_of_produces {q : List (FormalSymbol Terminal NonTerminal)}
    (h : (G.contextFree n).Produces (s.map Symbol.formal) q) :
    ∃ a b prod, prod ∈ G.prods ∧ s = a ++ .nonterminal prod.head :: b ∧
      (a ++ (prod.body ++ b)).map Symbol.formal = q := by
  obtain ⟨r, hr, hrewrites⟩ := h
  obtain ⟨prod, hp, rfl⟩ := mem_rules_iff.1 hr
  obtain ⟨x, y, hs, rfl⟩ := hrewrites.exists_parts
  rw [List.append_assoc] at hs
  obtain ⟨a, rest, rfl, rfl, hrest⟩ := List.map_eq_append_iff.1 hs
  obtain ⟨m, b, rfl, hm, rfl⟩ := List.map_eq_cons_iff.1 hrest
  obtain rfl : m = .nonterminal prod.head := formal_injective hm
  refine ⟨a, b, prod, hp, rfl, ?_⟩
  rw [List.map_append, List.map_append]
  exact (List.append_assoc ..).symm

lemma generates_of_derives {q : List (FormalSymbol Terminal NonTerminal)}
    (h : (G.contextFree n).Derives q (w.map .terminal)) (hs : s.map Symbol.formal = q) :
    G.Generates s w := by
  induction h using ReflTransGen.head_induction_on generalizing s with
  | refl =>
    obtain rfl : s = w.map .terminal := by
      apply List.map_injective_iff.2 formal_injective
      rw [hs, List.map_map]
      rfl
    exact generates_terminals w
  | head hstep _ ih =>
    subst hs
    obtain ⟨a, b, prod, hp, rfl, hq⟩ := exists_of_produces hstep
    obtain ⟨u, v, rfl, hu, hv⟩ := generates_append_iff.1 (ih hq)
    exact generates_append_iff.2 ⟨u, v, rfl, hu, hv.of_body hp⟩

lemma Generates.derives (h : G.Generates s w) :
    (G.contextFree n).Derives (s.map Symbol.formal) (w.map .terminal) := by
  induction h with
  | nil => exact ReflTransGen.refl
  | terminal _ ih => exact ih.append_left [.terminal _]
  | @nonterminal prod s u w hp _ _ ihb ih =>
    have hbody : (G.contextFree n).Derives (prod.body.map Symbol.formal ++ s.map Symbol.formal)
        (u.map .terminal ++ s.map Symbol.formal) := ihb.append_right _
    rw [List.map_append]
    exact (produces_of_mem hp _).trans_derives (hbody.trans (ih.append_left _))

/-- The words that rewriting derives from a nonterminal are those that it generates. -/
theorem mem_language_iff_generates :
    w ∈ (G.contextFree n).language ↔ G.Generates [.nonterminal n] w :=
  ⟨fun h => generates_of_derives h rfl, fun h => h.derives⟩

end Grammar

/-! ### Runs -/

/-- A walk over a flow graph is at a vertex and has called the nonterminal behind the dot of each
item on its stack, the innermost call first. -/
structure Configuration where
  vertex : Vertex
  stack : List Vertex
deriving DecidableEq, Repr

namespace Grammar

/-- One step of a walk and what it reads. -/
inductive Goes (G : Grammar) : Configuration → List Terminal → Configuration → Prop where
  | epsilon {v v' : Vertex} {stack : List Vertex} (h : .epsilon v' ∈ G.edges v) :
      Goes G ⟨v, stack⟩ [] ⟨v', stack⟩
  | scan {v v' : Vertex} {stack : List Vertex} {t : Terminal} (h : .scan t v' ∈ G.edges v) :
      Goes G ⟨v, stack⟩ [t] ⟨v', stack⟩
  | call {v v' : Vertex} {stack : List Vertex} (h : .call v' ∈ G.edges v) :
      Goes G ⟨v, stack⟩ [] ⟨v', v :: stack⟩
  | resume {n : NonTerminal} {v v' : Vertex} {stack : List Vertex}
      (h : G.resumeTarget? v = some v') : Goes G ⟨.finish n, v :: stack⟩ [] ⟨v', stack⟩

/-- Some steps of a walk and the word that they read. -/
inductive Runs (G : Grammar) : Configuration → List Terminal → Configuration → Prop where
  | refl (c : Configuration) : Runs G c [] c
  | head {c c' c'' : Configuration} {u w : List Terminal} (hc : G.Goes c u c')
      (h : Runs G c' w c'') : Runs G c (u ++ w) c''

variable {G : Grammar} {n : NonTerminal} {w : List Terminal} {p dot : Nat} {prod : Production}
  {v v' : Vertex} {stack : List Vertex} {c c' c'' : Configuration}

lemma Goes.runs (h : G.Goes c w c') : G.Runs c w c' := by
  simpa using Runs.head h (.refl c')

lemma Runs.trans {u : List Terminal} (h : G.Runs c u c') (h' : G.Runs c' w c'') :
    G.Runs c (u ++ w) c'' := by
  induction h with
  | refl => exact h'
  | head hc _ ih =>
    rw [List.append_assoc]
    exact .head hc (ih h')

/-! ### What a run reads -/

/-- What comes behind a vertex in the phrase that it is inside of. -/
def ahead (G : Grammar) : Vertex → List Symbol
  | .start n => [.nonterminal n]
  | .finish _ => []
  | .item p dot => ((G.prods[p]?.map (·.body)).getD []).drop dot

/-- What is still to be read: what is ahead, and what comes behind each call. -/
def pending (G : Grammar) (c : Configuration) : List Symbol :=
  G.ahead c.vertex ++ c.stack.flatMap fun v => (G.ahead v).tail

lemma ahead_item (hp : G.prods[p]? = some prod) : G.ahead (.item p dot) = prod.body.drop dot := by
  simp [ahead, hp]

lemma ahead_eq_cons {s : Symbol} (hs : G.symbolAt? p dot = some s) :
    G.ahead (.item p dot) = s :: G.ahead (.item p (dot + 1)) := by
  obtain ⟨prod, hp, hs⟩ := Option.bind_eq_some_iff.1 hs
  obtain ⟨hdot, rfl⟩ := List.getElem?_eq_some_iff.1 hs
  rw [ahead_item hp, ahead_item hp]
  exact List.drop_eq_getElem_cons hdot

/-- What comes behind a dot, read off the rest of the body. -/
lemma symbolAt?_of_drop {a : Symbol} {s : List Symbol} (hp : G.prods[p]? = some prod)
    (h : prod.body.drop dot = a :: s) :
    G.symbolAt? p dot = some a ∧ dot + 1 ≤ prod.body.length ∧ prod.body.drop (dot + 1) = s := by
  have ha : prod.body[dot]? = some a := by
    rw [← List.head?_drop, h]
    rfl
  refine ⟨by rw [symbolAt?_eq hp, ha], (List.getElem?_eq_some_iff.1 ha).1, ?_⟩
  rw [← List.tail_drop, h]
  rfl

/-- A step reads the beginning of what is to be read. -/
lemma Goes.generates {u : List Terminal} (h : G.Goes c u c') (hw : G.Generates (G.pending c') w) :
    G.Generates (G.pending c) (u ++ w) := by
  cases h with
  | epsilon h =>
    cases mem_edges_iff.1 h with
    | enter hp =>
      rw [pending, ahead_item hp, List.drop_zero] at hw
      exact hw.of_body (List.mem_of_getElem? hp)
    | exit hp =>
      rw [pending, ahead_item hp, List.drop_length]
      exact hw
  | scan h =>
    cases mem_edges_iff.1 h with
    | scan hs =>
      rw [pending, ahead_eq_cons hs]
      exact .terminal hw
  | call h =>
    cases mem_edges_iff.1 h with
    | call hs =>
      rw [pending, List.flatMap_cons, ahead_eq_cons hs] at hw
      rw [pending, ahead_eq_cons hs]
      exact hw
  | resume h =>
    obtain ⟨p, dot, n, hs, rfl, rfl⟩ := resumeTarget?_eq_some_iff.1 h
    rw [pending, List.flatMap_cons, ahead_eq_cons hs]
    exact hw

/-- A run that comes to an end has read all that was to be read. -/
lemma Runs.generates (h : G.Runs c w ⟨.finish n, []⟩) : G.Generates (G.pending c) w := by
  generalize hc : (⟨.finish n, []⟩ : Configuration) = c' at h
  induction h with
  | refl =>
    subst hc
    exact .nil
  | head hstep _ ih => exact hstep.generates (ih hc)

/-! ### Runs through what is generated -/

/-- A run through a production is one through its head. -/
lemma Runs.call (hp : G.prods[p]? = some prod)
    (h : G.Runs ⟨.item p 0, stack⟩ w ⟨.item p prod.body.length, stack⟩) :
    G.Runs ⟨.start prod.head, stack⟩ w ⟨.finish prod.head, stack⟩ := by
  have henter : G.Goes ⟨.start prod.head, stack⟩ [] ⟨.item p 0, stack⟩ :=
    .epsilon (mem_edges_iff.2 (.enter hp))
  have hexit : G.Goes ⟨.item p prod.body.length, stack⟩ [] ⟨.finish prod.head, stack⟩ :=
    .epsilon (mem_edges_iff.2 (.exit hp))
  simpa using Runs.head henter (h.trans hexit.runs)

/-- What the symbols behind a dot generate is read by a run over them. -/
lemma Generates.runs {s : List Symbol} (h : G.Generates s w) (hp : G.prods[p]? = some prod)
    (hdot : dot ≤ prod.body.length) (hs : prod.body.drop dot = s) (stack : List Vertex) :
    G.Runs ⟨.item p dot, stack⟩ w ⟨.item p prod.body.length, stack⟩ := by
  induction h generalizing p dot prod stack with
  | nil =>
    obtain rfl : dot = prod.body.length := Nat.le_antisymm hdot (List.drop_eq_nil_iff.1 hs)
    exact .refl _
  | terminal _ ih =>
    obtain ⟨hsym, hlt, hrest⟩ := symbolAt?_of_drop hp hs
    have hscan : G.Goes ⟨.item p dot, stack⟩ [_] ⟨.item p (dot + 1), stack⟩ :=
      .scan (mem_edges_iff.2 (.scan hsym))
    exact .head hscan (ih hp hlt hrest stack)
  | @nonterminal callee s u w hmem _ _ ihb ih =>
    obtain ⟨hsym, hlt, hrest⟩ := symbolAt?_of_drop hp hs
    obtain ⟨q, hq⟩ := List.mem_iff_getElem?.1 hmem
    have hcall : G.Goes ⟨.item p dot, stack⟩ [] ⟨.start callee.head, .item p dot :: stack⟩ :=
      .call (mem_edges_iff.2 (.call hsym))
    have hresume : G.Goes ⟨.finish callee.head, .item p dot :: stack⟩ []
        ⟨.item p (dot + 1), stack⟩ :=
      .resume (resumeTarget?_eq_some_iff.2 ⟨p, dot, _, hsym, rfl, rfl⟩)
    have hbody := (ihb hq (Nat.zero_le _) List.drop_zero (.item p dot :: stack)).call hq
    exact (Runs.head hcall hbody).trans (.head hresume (ih hp hlt hrest stack))

/-- A run does not leave a graph without undefined nonterminals. -/
lemma Runs.mem_vertices (hG : G.Closed) (h : G.Runs c w c')
    (hc : ∀ v ∈ c.vertex :: c.stack, v ∈ G.vertices) :
    ∀ v ∈ c'.vertex :: c'.stack, v ∈ G.vertices := by
  induction h with
  | refl => exact hc
  | head hstep _ ih =>
    refine ih ?_
    obtain ⟨-, hkept⟩ := List.forall_mem_cons.1 hc
    cases hstep with
    | epsilon h => exact List.forall_mem_cons.2 ⟨(mem_edges_iff.1 h).mem_vertices hG, hkept⟩
    | scan h => exact List.forall_mem_cons.2 ⟨(mem_edges_iff.1 h).mem_vertices hG, hkept⟩
    | call h => exact List.forall_mem_cons.2 ⟨(mem_edges_iff.1 h).mem_vertices hG, hc⟩
    | resume h =>
      obtain ⟨p, dot, n, hs, rfl, rfl⟩ := resumeTarget?_eq_some_iff.1 h
      obtain ⟨-, hstack⟩ := List.forall_mem_cons.1 hkept
      exact List.forall_mem_cons.2 ⟨Joined.mem_vertices hG (.resume hs), hstack⟩

end Grammar

end ParseForest
