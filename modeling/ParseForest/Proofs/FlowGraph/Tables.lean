import ParseForest.Grammar.Samples
import ParseForest.Proofs.FlowGraph.Entering

/-!
# The tables of a flow graph are exact

The tables of a grammar that was built number its vertices, each exactly once. What they tell of a
number is what the grammar tells of the vertex: the symbols and the item around the dot, the arcs
that leave it, and where following them leads.
-/

namespace ParseForest.FlowGraph

variable {G : Grammar} {g : FlowGraph} {v : Vertex} {id p dot : Nat} {prod : Production}

/-! ### What the tables tell of a vertex -/

namespace HasVertices

variable (h : g.HasVertices G)

include h

lemma exists_node (hid : g.number? v = some id) :
    ∃ x ∈ G.nodes, x.vertex = v ∧ g.nodes[id]? = some x := by
  rw [h.number?_iff, ← Grammar.map_vertex_nodes, List.getElem?_map, Option.map_eq_some_iff] at hid
  obtain ⟨x, hx, hv⟩ := hid
  refine ⟨x, List.mem_of_getElem? hx, hv, ?_⟩
  rw [← Array.getElem?_toList, h.nodes_eq, hx]

lemma number?_of_node {x : Node} (hx : g.nodes[id]? = some x) :
    g.number? x.vertex = some id := by
  rw [← Array.getElem?_toList, h.nodes_eq] at hx
  rw [h.number?_iff, ← Grammar.map_vertex_nodes, List.getElem?_map, hx, Option.map_some]

/-- An item is entered with the length of its production. -/
lemma exists_item (hid : g.item? p dot = some id) : ∃ prod, G.prods[p]? = some prod ∧
    dot ≤ prod.body.length ∧ g.nodes[id]? = some (.item ⟨p, dot, prod.body.length⟩) := by
  have hnumber : g.number? (.item p dot) = some id := hid
  obtain ⟨x, hx, hv, hget⟩ := h.exists_node hnumber
  obtain ⟨len, rfl⟩ := Node.vertex_eq_item.1 hv
  obtain ⟨prod, hp, rfl, hdot⟩ := Grammar.item_mem_nodes hx
  exact ⟨prod, hp, hdot, hget⟩

lemma prod_eq (hp : G.prods[p]? = some prod) : g.grammar.prod p = .ok prod := by
  rw [h.grammar_eq, Grammar.prod, hp]

theorem next?_eq (hid : g.number? v = some id) : g.next? id = .ok (G.next? v) := by
  obtain ⟨x, hx, rfl, hget⟩ := h.exists_node hid
  rw [next?, node, hget]
  cases x with
  | start n => rfl
  | finish n => rfl
  | item i =>
    obtain ⟨prod, hp, -⟩ := Grammar.item_mem_nodes hx
    have hprod := h.prod_eq hp
    simp [Node.item?, Node.vertex, Grammar.next?, Grammar.symbolAt?_eq hp, hprod, bind,
      Except.bind, pure, Except.pure]

theorem prev?_eq (hid : g.number? v = some id) : g.prev? id = .ok (G.prev? v) := by
  obtain ⟨x, hx, rfl, hget⟩ := h.exists_node hid
  rw [prev?, node, hget]
  match x, hx with
  | .start n, _ => rfl
  | .finish n, _ => rfl
  | .item ⟨p, 0, len⟩, _ => rfl
  | .item ⟨p, dot + 1, len⟩, hx =>
    obtain ⟨prod, hp, -⟩ := Grammar.item_mem_nodes hx
    have hprod := h.prod_eq hp
    simp [Node.item?, Node.vertex, Grammar.prev?, Grammar.symbolAt?_eq hp, hprod, bind,
      Except.bind, pure, Except.pure]

theorem prevItem?_eq (hid : g.number? v = some id) :
    g.prevItem? id = .ok (v.prevItem?.bind g.number?) := by
  obtain ⟨x, hx, rfl, hget⟩ := h.exists_node hid
  rw [prevItem?, node, hget]
  match x with
  | .start n => rfl
  | .finish n => rfl
  | .item ⟨p, 0, len⟩ => rfl
  | .item ⟨p, dot + 1, len⟩ => rfl

theorem prod?_eq (hid : g.number? v = some id) : g.prod? id = .ok (v.prod?.bind (G.prods[·]?)) := by
  obtain ⟨x, hx, rfl, hget⟩ := h.exists_node hid
  rw [prod?, node, hget]
  cases x with
  | start n => rfl
  | finish n => rfl
  | item i =>
    obtain ⟨prod, hp, -⟩ := Grammar.item_mem_nodes hx
    have hprod := h.prod_eq hp
    simp [Node.item?, Node.vertex, Vertex.prod?, hp, hprod, bind, Except.bind, pure, Except.pure]

theorem headOf_eq (hid : g.number? v = some id) :
    ∃ n, G.headOf? v = some n ∧ g.headOf id = .ok n := by
  obtain ⟨x, hx, rfl, hget⟩ := h.exists_node hid
  rw [headOf, node, hget]
  cases x with
  | start n => exact ⟨n, rfl, rfl⟩
  | finish n => exact ⟨n, rfl, rfl⟩
  | item i =>
    obtain ⟨prod, hp, -⟩ := Grammar.item_mem_nodes hx
    have hprod := h.prod_eq hp
    refine ⟨prod.head, by simp [Node.vertex, Grammar.headOf?, hp], ?_⟩
    simp [hprod, bind, Except.bind, pure, Except.pure]

end HasVertices

namespace Tabulates

variable (h : g.Tabulates G)

include h

lemma arcsFrom_eq (hid : g.number? v = some id) :
    g.arcsFrom id = .ok ((G.edges v).map (Edge.arc G.vertices.idxOf)) := by
  rw [arcsFrom, h.arcs_eq v id ((h.number?_iff v id).1 hid)]

/-- Following arcs leads to the numbers of what edges lead to. -/
theorem targets_eq (hid : g.number? v = some id) :
    g.callTarget? id = .ok ((G.callTarget? v).map G.vertices.idxOf) ∧
      g.resumeTarget? id = .ok ((G.resumeTarget? v).map G.vertices.idxOf) ∧
      (∀ t, g.scanTarget? id t = .ok ((G.scanTarget? v t).map G.vertices.idxOf)) ∧
      g.epsilonTargets id = .ok ((G.epsilonTargets v).map G.vertices.idxOf) := by
  have hfind {f : Arc → Option Nat} {f' : Edge → Option Vertex}
      (hf : ∀ e, f (e.arc G.vertices.idxOf) = (f' e).map G.vertices.idxOf) :
      ((G.edges v).map (Edge.arc G.vertices.idxOf)).findSome? f =
        ((G.edges v).findSome? f').map G.vertices.idxOf := by
    rw [List.findSome?_map, List.map_findSome?]
    exact congrArg (List.findSome? · _) (funext hf)
  refine ⟨?_, ?_, fun t => ?_, ?_⟩
  · rw [callTarget?, h.arcsFrom_eq hid]
    exact congrArg Except.ok (hfind fun e => by cases e <;> rfl)
  · rw [resumeTarget?, h.arcsFrom_eq hid]
    exact congrArg Except.ok (hfind fun e => by cases e <;> rfl)
  · rw [scanTarget?, h.arcsFrom_eq hid]
    refine congrArg Except.ok (hfind fun e => ?_)
    cases e with
    | scan t' v => by_cases ht : t' = t <;> simp [Edge.arc, ht]
    | _ => rfl
  · rw [epsilonTargets, h.arcsFrom_eq hid]
    refine congrArg Except.ok ?_
    rw [List.filterMap_map, Grammar.epsilonTargets, List.map_filterMap]
    refine congrArg (List.filterMap · _) (funext fun e => ?_)
    cases e <;> rfl

end Tabulates

/-! ### Exactness -/

/-- The look-ups number the vertices: each finds the vertex that it is asked for, and finds none
that the grammar does not have; no two vertices have the same number, and every number is that of a
vertex. -/
structure Numbers (g : FlowGraph) (G : Grammar) : Prop where
  start_iff : ∀ n id, g.start? n = some id ↔ g.nodes[id]? = some (.start n)
  finish_iff : ∀ n id, g.finish? n = some id ↔ g.nodes[id]? = some (.finish n)
  item_iff : ∀ p dot id, g.item? p dot = some id ↔
    ∃ prod, G.prods[p]? = some prod ∧ g.nodes[id]? = some (.item ⟨p, dot, prod.body.length⟩)
  start_eq_none : ∀ n, g.start? n = none ↔ n ∉ G.heads
  finish_eq_none : ∀ n, g.finish? n = none ↔ n ∉ G.heads
  item_eq_none : ∀ p dot, g.item? p dot = none ↔
    ∀ prod, G.prods[p]? = some prod → prod.body.length < dot
  injective : ∀ v v' id, g.number? v = some id → g.number? v' = some id → v = v'
  onto : ∀ id, id < g.nodes.size ↔ ∃ v, g.number? v = some id

/-- Around the dot of an item stand the symbols of its production; around a start and a finish
stands nothing. -/
structure Surrounds (g : FlowGraph) (G : Grammar) : Prop where
  start : ∀ n id, g.start? n = some id →
    g.next? id = .ok none ∧ g.prev? id = .ok none ∧ g.prevItem? id = .ok none
  finish : ∀ n id, g.finish? n = some id →
    g.next? id = .ok none ∧ g.prev? id = .ok none ∧ g.prevItem? id = .ok none
  next : ∀ p dot id, g.item? p dot = some id → g.next? id = .ok (G.symbolAt? p dot)
  first : ∀ p id, g.item? p 0 = some id → g.prev? id = .ok none ∧ g.prevItem? id = .ok none
  prev : ∀ p dot id, g.item? p (dot + 1) = some id → ∃ s before,
    G.symbolAt? p dot = some s ∧ g.prev? id = .ok (some s) ∧
      g.item? p dot = some before ∧ g.prevItem? id = .ok (some before)

/-- The arcs that leave a vertex: from a start to the first item of each production of the
nonterminal, in the order of the productions; from an item with the dot before a symbol over or into
the symbol; from a complete item to the finish of its head. -/
inductive Leaves (g : FlowGraph) (G : Grammar) : Vertex → List Arc → Prop where
  | start {n : NonTerminal} {arcs : List Arc}
      (h : List.Forall₂ (fun p a => ∃ first, g.item? p 0 = some first ∧ a = .epsilon first)
        (G.prodsOf n) arcs) : Leaves g G (.start n) arcs
  | finish {n : NonTerminal} : Leaves g G (.finish n) []
  | scan {p dot next : Nat} {t : Terminal} (hs : G.symbolAt? p dot = some (.terminal t))
      (hnext : g.item? p (dot + 1) = some next) : Leaves g G (.item p dot) [.scan t next]
  | call {p dot start next : Nat} {n : NonTerminal}
      (hs : G.symbolAt? p dot = some (.nonterminal n)) (hstart : g.start? n = some start)
      (hnext : g.item? p (dot + 1) = some next) :
      Leaves g G (.item p dot) [.call start, .resume next]
  | exit {p finish : Nat} {prod : Production} (hp : G.prods[p]? = some prod)
      (hfinish : g.finish? prod.head = some finish) :
      Leaves g G (.item p prod.body.length) [.epsilon finish]

namespace HasVertices

variable (h : g.HasVertices G)

include h

lemma number?_eq_none_iff : g.number? v = none ↔ v ∉ G.vertices := by
  rw [Option.eq_none_iff_forall_ne_some, List.mem_iff_getElem?, not_exists]
  exact forall_congr' fun id => not_congr (h.number?_iff v id)

lemma numbers : g.Numbers G where
  start_iff n id := by
    refine ⟨fun hid => ?_, fun hx => h.number?_of_node hx⟩
    obtain ⟨x, -, hv, hget⟩ := h.exists_node (v := .start n) hid
    rw [hget, Node.vertex_eq_start.1 hv]
  finish_iff n id := by
    refine ⟨fun hid => ?_, fun hx => h.number?_of_node hx⟩
    obtain ⟨x, -, hv, hget⟩ := h.exists_node (v := .finish n) hid
    rw [hget, Node.vertex_eq_finish.1 hv]
  item_iff p dot id := by
    constructor
    · intro hid
      obtain ⟨prod, hp, -, hget⟩ := h.exists_item hid
      exact ⟨prod, hp, hget⟩
    · rintro ⟨prod, -, hget⟩
      exact h.number?_of_node hget
  start_eq_none n := h.number?_eq_none_iff.trans (not_congr Grammar.start_mem_vertices)
  finish_eq_none n := h.number?_eq_none_iff.trans (not_congr Grammar.finish_mem_vertices)
  item_eq_none p dot := by
    refine (h.number?_eq_none_iff (v := .item p dot)).trans ?_
    simp [Grammar.item_mem_vertices]
  injective v v' id hv hv' := by
    rw [h.number?_iff] at hv hv'
    exact Option.some.inj (hv.symm.trans hv')
  onto id := by
    constructor
    · intro hid
      exact ⟨_, h.number?_of_node (Array.getElem?_eq_getElem hid)⟩
    · rintro ⟨v, hid⟩
      obtain ⟨x, -, -, hget⟩ := h.exists_node hid
      exact (Array.getElem?_eq_some_iff.1 hget).1

lemma surrounds : g.Surrounds G where
  start n id hid := ⟨h.next?_eq (v := .start n) hid, h.prev?_eq (v := .start n) hid,
    h.prevItem?_eq (v := .start n) hid⟩
  finish n id hid := ⟨h.next?_eq (v := .finish n) hid, h.prev?_eq (v := .finish n) hid,
    h.prevItem?_eq (v := .finish n) hid⟩
  next p dot id hid := h.next?_eq (v := .item p dot) hid
  first p id hid := ⟨h.prev?_eq (v := .item p 0) hid, h.prevItem?_eq (v := .item p 0) hid⟩
  prev p dot id hid := by
    obtain ⟨prod, hp, hdot, -⟩ := h.exists_item hid
    have hs : G.symbolAt? p dot = some prod.body[dot] :=
      (Grammar.symbolAt?_eq hp).trans (List.getElem?_eq_getElem hdot)
    have hbefore := h.number?_of_mem (Grammar.item_mem_vertices.2 ⟨prod, hp, Nat.le_of_lt hdot⟩)
    refine ⟨_, _, hs, (h.prev?_eq (v := .item p (dot + 1)) hid).trans (congrArg Except.ok hs),
      hbefore, (h.prevItem?_eq (v := .item p (dot + 1)) hid).trans (congrArg Except.ok hbefore)⟩

lemma leaves_arcs (hG : G.Closed) (hv : v ∈ G.vertices) :
    g.Leaves G v ((G.edges v).map (Edge.arc G.vertices.idxOf)) := by
  have htarget {e : Edge} (he : e ∈ G.edges v) : e.target ∈ G.vertices :=
    (Grammar.mem_edges_iff.1 he).mem_vertices hG
  cases v with
  | start n =>
    refine .start ?_
    rw [Grammar.edges, List.map_map, List.forall₂_map_right_iff, List.forall₂_same]
    intro p hp
    exact ⟨_, h.number?_of_mem (htarget (List.mem_map_of_mem hp)), rfl⟩
  | finish n => exact .finish
  | item p dot =>
    cases hs : G.symbolAt? p dot with
    | none =>
      obtain ⟨prod, hp, hle⟩ := Grammar.item_mem_vertices.1 hv
      rw [Grammar.symbolAt?_eq hp, List.getElem?_eq_none_iff] at hs
      obtain rfl := Nat.le_antisymm hle hs
      rw [Grammar.edges_complete hp] at htarget ⊢
      exact .exit hp (h.number?_of_mem (htarget (List.mem_singleton_self _)))
    | some s =>
      cases s with
      | terminal t =>
        rw [Grammar.edges_terminal hs] at htarget ⊢
        exact .scan hs (h.number?_of_mem (htarget (List.mem_singleton_self _)))
      | nonterminal n =>
        rw [Grammar.edges_nonterminal hs] at htarget ⊢
        exact .call hs (h.number?_of_mem (htarget List.mem_cons_self))
          (h.number?_of_mem (htarget (List.mem_cons_of_mem _ List.mem_cons_self)))

end HasVertices

/-- A grammar that was built has tables: they have two vertices for each nonterminal and one for
each dot in a production, numbered by the look-ups; around the dot of an item stand the symbols of
its production; and exactly the arcs of the productions leave a vertex, each once and in order. -/
theorem flowGraph_exact {start : NonTerminal} {rules : List RuleDecl}
    (hG : Grammar.build start rules = .ok G) :
    ∃ g, build G = .ok g ∧
      g.nodes.size = 2 * G.heads.length + (G.prods.map fun prod => prod.body.length + 1).sum ∧
      g.Numbers G ∧ g.Surrounds G ∧
      ∀ v id, g.number? v = some id → ∃ arcs, g.arcsFrom id = .ok arcs ∧ g.Leaves G v arcs := by
  have hclosed := Grammar.closed_of_build hG
  have hheads : G.heads.Nodup := by
    obtain ⟨-, rfl⟩ := Grammar.build_eq_ok_iff.1 hG
    exact (Ordered.increasing_ofList (rules.map (·.head))).nodup
  obtain ⟨g, hg, h⟩ := (entered hheads).exists_tabulates hclosed
  refine ⟨g, hg, ?_, h.numbers, h.surrounds, fun v id hid => ⟨_, h.arcsFrom_eq hid, ?_⟩⟩
  · rw [← Array.length_toList, h.nodes_eq, Grammar.length_nodes]
  · exact h.leaves_arcs hclosed (List.mem_of_getElem? ((h.number?_iff v id).1 hid))

/-- The tables of `S => a | ε | S S S`: the start enters three productions, the second of them has
one item, and in the third the same call leaves each of the first three items. -/
theorem flowGraph_exact_tripleConcat :
    Grammar.build ⟨"S"⟩
        [Samples.rule "S" [[Samples.tm "a"], [], [Samples.nt "S", Samples.nt "S", Samples.nt "S"]]]
          = .ok Samples.tripleConcat ∧
      ∃ g, build Samples.tripleConcat = .ok g ∧ g.nodes.size = 9 ∧
        g.number? (.start ⟨"S"⟩) = some 0 ∧
        g.Leaves Samples.tripleConcat (.start ⟨"S"⟩) [.epsilon 2, .epsilon 4, .epsilon 5] ∧
        g.Leaves Samples.tripleConcat (.item 1 0) [.epsilon 1] ∧
        g.Leaves Samples.tripleConcat (.item 2 1) [.call 0, .resume 7] := by
  have hbuild : Grammar.build ⟨"S"⟩
      [Samples.rule "S" [[Samples.tm "a"], [], [Samples.nt "S", Samples.nt "S", Samples.nt "S"]]]
        = .ok Samples.tripleConcat := rfl
  have hrun : (build Samples.tripleConcat).toOption.any fun g =>
      g.number? (.start ⟨"S"⟩) = some 0 ∧ g.number? (.item 1 0) = some 4 ∧
        g.number? (.item 2 1) = some 6 ∧ g.arcs[0]? = some [.epsilon 2, .epsilon 4, .epsilon 5] ∧
        g.arcs[4]? = some [.epsilon 1] ∧ g.arcs[6]? = some [.call 0, .resume 7] := by
    decide +kernel
  obtain ⟨g, hg, hsize, -, -, hleaves⟩ := flowGraph_exact hbuild
  have harcs {v : Vertex} {id : Nat} {arcs : List Arc} (hid : g.number? v = some id)
      (h : g.arcs[id]? = some arcs) : g.Leaves Samples.tripleConcat v arcs := by
    obtain ⟨arcs', harcs', hv⟩ := hleaves v id hid
    rw [arcsFrom, h] at harcs'
    cases harcs'
    exact hv
  rw [hg] at hrun
  obtain ⟨hS, h4, h6, hS', h4', h6'⟩ := of_decide_eq_true hrun
  exact ⟨hbuild, g, hg, hsize, hS, harcs hS hS', harcs h4 h4', harcs h6 h6'⟩

end ParseForest.FlowGraph
