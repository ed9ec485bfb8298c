import ParseForest.FlowGraph.Tables
import ParseForest.Proofs.FlowGraph.Listing
import Mathlib.Algebra.GroupWithZero.Nat
import Mathlib.Data.List.Sigma

/-!
# Entering vertices and arcs

Entering the vertices of a grammar is one fold, `addVertices_eq`, and a vertex that was not there
before leaves the indices exact, `Indexed.enter`. So every end of an arc is found, and what is
collected from the productions are their edges, `Entered.newArcs_eq`. Handing an arc out puts it
behind those of its source, so each vertex gets what is listed for it, `Entered.exists_tabulates`.
-/

namespace ParseForest

variable {G : Grammar} {g : FlowGraph} {v : Vertex} {p dot : Nat} {prod : Production} {s : Symbol}

/-! ### Vertices in the order of their numbers -/

section

variable {x : Node} {n : NonTerminal}

lemma Node.vertex_eq_start : x.vertex = .start n ↔ x = .start n := by
  cases x <;> simp [vertex]

lemma Node.vertex_eq_finish : x.vertex = .finish n ↔ x = .finish n := by
  cases x <;> simp [vertex]

lemma Node.vertex_eq_item : x.vertex = .item p dot ↔ ∃ len, x = .item ⟨p, dot, len⟩ := by
  cases x with
  | item i =>
    cases i
    simp [vertex]
  | _ => simp [vertex]

end

/-- The vertices as they are entered into the tables. -/
def Grammar.nodes (G : Grammar) : List Node :=
  (G.heads.flatMap fun n => [.start n, .finish n]) ++ G.prods.zipIdx.flatMap fun q =>
    (List.range (q.1.body.length + 1)).map fun dot => .item ⟨q.2, dot, q.1.body.length⟩

lemma Grammar.map_vertex_nodes (G : Grammar) : G.nodes.map Node.vertex = G.vertices := by
  simp [nodes, vertices, itemsOf, List.map_flatMap, Node.vertex, Function.comp_def]

lemma Grammar.item_mem_nodes {i : DottedItem} (h : .item i ∈ G.nodes) :
    ∃ prod, G.prods[i.prod]? = some prod ∧ i.len = prod.body.length ∧ i.dot ≤ i.len := by
  rcases List.mem_append.1 h with h | h
  · obtain ⟨n, -, h⟩ := List.mem_flatMap.1 h
    simp at h
  · obtain ⟨q, hq, h⟩ := List.mem_flatMap.1 h
    obtain ⟨dot, hdot, h⟩ := List.mem_map.1 h
    cases h
    exact ⟨q.1, List.mem_zipIdx_iff_getElem?.1 hq, rfl,
      Nat.le_of_lt_succ (List.mem_range.1 hdot)⟩

lemma Grammar.length_nodes (G : Grammar) : G.nodes.length =
    2 * G.heads.length + (G.prods.map fun prod => prod.body.length + 1).sum := by
  have hprods : (G.prods.zipIdx.map fun q => q.1.body.length + 1) =
      G.prods.map fun prod => prod.body.length + 1 := by
    calc G.prods.zipIdx.map (fun q => q.1.body.length + 1)
        = (G.prods.zipIdx.map Prod.fst).map fun prod => prod.body.length + 1 := by
          rw [List.map_map]
          rfl
      _ = G.prods.map fun prod => prod.body.length + 1 := by rw [List.zipIdx_map_fst]
  simp [nodes, List.length_flatMap, hprods, Nat.mul_comm]

/-- No vertex has two numbers. -/
lemma Grammar.vertices_nodup (h : G.heads.Nodup) : G.vertices.Nodup := by
  rw [vertices, List.nodup_append]
  refine ⟨?_, ?_, ?_⟩
  · -- The heads are different.
    rw [List.nodup_flatMap]
    refine ⟨fun n _ => by simp, h.imp fun hne => ?_⟩
    simp [Function.onFun, hne.symm]
  · -- Two productions have different numbers, however alike they are.
    rw [List.nodup_flatMap]
    refine ⟨fun q _ => ?_, ?_⟩
    · exact List.nodup_range.map fun _ _ => by simp
    · refine (List.pairwise_map.1 (List.nodup_zipIdx_map_snd G.prods)).imp fun hne => ?_
      simp [Function.onFun, itemsOf, List.disjoint_left, hne.symm]
  · rintro v hv v' hv' rfl
    obtain ⟨n, -, hv⟩ := List.mem_flatMap.1 hv
    obtain ⟨q, -, hv'⟩ := List.mem_flatMap.1 hv'
    obtain ⟨dot, -, rfl⟩ := List.mem_map.1 hv'
    simp at hv

/-! ### Entering vertices -/

namespace FlowGraph

/-- Enters a vertex and its number. -/
def enter (g : FlowGraph) (x : Node) : FlowGraph where
  grammar := g.grammar
  nodes := g.nodes.push x
  arcs := g.arcs.push []
  starts :=
    match x with
    | .start n => (n, g.nodes.size) :: g.starts
    | _ => g.starts
  finishes :=
    match x with
    | .finish n => (n, g.nodes.size) :: g.finishes
    | _ => g.finishes
  items :=
    match x with
    | .item i => ((i.prod, i.dot), g.nodes.size) :: g.items
    | _ => g.items

lemma addItems_eq : g.addItems p prod =
    ((List.range (prod.body.length + 1)).map fun dot =>
      Node.item ⟨p, dot, prod.body.length⟩).foldl enter g := by
  rw [List.foldl_map]
  rfl

lemma foldl_addHead (ns : List NonTerminal) : ns.foldl addHead g =
    (ns.flatMap fun n => [Node.start n, Node.finish n]).foldl enter g := by
  rw [List.foldl_flatMap]
  rfl

lemma grammar_foldl_enter (xs : List Node) : (xs.foldl enter g).grammar = g.grammar := by
  induction xs generalizing g with
  | nil => rfl
  | cons x xs ih => exact ih

lemma nodes_foldl_enter (xs : List Node) :
    (xs.foldl enter g).nodes.toList = g.nodes.toList ++ xs := by
  induction xs generalizing g with
  | nil => simp
  | cons x xs ih => simp [ih, enter]

/-- Entering the vertices of a grammar is entering them one by one. -/
lemma addVertices_eq : (empty G).addVertices = G.nodes.foldl enter (empty G) := by
  rw [addVertices, Grammar.nodes, List.foldl_append, List.foldl_flatMap]
  simp only [foldl_addHead, addItems_eq, grammar_foldl_enter]
  rfl

lemma lookup_cons_eq_ite {κ α : Type} [BEq κ] [LawfulBEq κ] [DecidableEq κ] (k k' : κ) (a : α)
    (l : List (κ × α)) : ((k', a) :: l).lookup k = if k = k' then some a else l.lookup k := by
  rw [List.lookup_cons]
  split
  · next h => rw [if_pos (eq_of_beq h)]
  · next h => rw [if_neg (ne_of_beq_false h)]

lemma number?_enter (x : Node) (v : Vertex) :
    (g.enter x).number? v = if v = x.vertex then some g.nodes.size else g.number? v := by
  cases x <;> cases v <;>
    simp [enter, number?, start?, finish?, item?, Node.vertex, lookup_cons_eq_ite]

/-- The indices have the number of each vertex that was entered, and no arc was entered yet. -/
structure Indexed (g : FlowGraph) : Prop where
  number?_iff : ∀ v id, g.number? v = some id ↔ g.nodes[id]?.map Node.vertex = some v
  arcs_eq : g.arcs = Array.replicate g.nodes.size []

namespace Indexed

/-- A new vertex gets the next number. -/
lemma enter (h : g.Indexed) {x : Node} (hx : g.number? x.vertex = none) : (g.enter x).Indexed := by
  refine ⟨fun v id => ?_, ?_⟩
  · rw [number?_enter]
    have hget : (g.enter x).nodes[id]? = if id = g.nodes.size then some x else g.nodes[id]? :=
      Array.getElem?_push
    have hold := h.number?_iff v id
    rw [hget]
    by_cases hid : id = g.nodes.size
    · have hnone : g.nodes[id]? = none := by simp [hid]
      by_cases hv : v = x.vertex
      · simp [hid, hv]
      · rw [if_neg hv, hold, if_pos hid, hnone]
        simp [Ne.symm hv]
    · by_cases hv : v = x.vertex
      · rw [if_neg hid, ← hold, if_pos hv, hv, hx]
        simp [Ne.symm hid]
      · rw [if_neg hid, if_neg hv, hold]
  · simp [FlowGraph.enter, h.arcs_eq, Array.replicate_succ]

/-- New vertices that are different get the numbers after those that there are. -/
lemma foldl_enter (h : g.Indexed) {xs : List Node} (hxs : (xs.map Node.vertex).Nodup)
    (hnew : ∀ x ∈ xs, g.number? x.vertex = none) : (xs.foldl FlowGraph.enter g).Indexed := by
  induction xs generalizing g with
  | nil => exact h
  | cons x xs ih =>
    obtain ⟨hx, hxs⟩ := List.nodup_cons.1 hxs
    obtain ⟨hxnew, hnew⟩ := List.forall_mem_cons.1 hnew
    refine ih (h.enter hxnew) hxs fun y hy => ?_
    have hne : y.vertex ≠ x.vertex := fun heq => hx (heq ▸ List.mem_map_of_mem hy)
    rw [number?_enter, if_neg hne, hnew y hy]

lemma empty : (FlowGraph.empty G).Indexed := by
  refine ⟨fun v id => ?_, rfl⟩
  cases v <;> simp [FlowGraph.empty, number?, start?, finish?, item?]

end Indexed

/-- The tables have the vertices of the grammar under their numbers. -/
structure HasVertices (g : FlowGraph) (G : Grammar) : Prop where
  grammar_eq : g.grammar = G
  nodes_eq : g.nodes.toList = G.nodes
  number?_iff : ∀ v id, g.number? v = some id ↔ G.vertices[id]? = some v

lemma HasVertices.number?_of_mem (h : g.HasVertices G) (hv : v ∈ G.vertices) :
    g.number? v = some (G.vertices.idxOf v) :=
  (h.number?_iff _ _).2 (List.getElem?_idxOf hv)

/-- What the tables of a grammar are before arcs are entered. -/
structure Entered (g : FlowGraph) (G : Grammar) : Prop extends g.HasVertices G where
  arcs_eq : g.arcs = Array.replicate g.nodes.size []

lemma entered (h : G.heads.Nodup) : ((empty G).addVertices).Entered G := by
  rw [addVertices_eq]
  have hindexed : (G.nodes.foldl enter (empty G)).Indexed := by
    refine Indexed.empty.foldl_enter ?_ fun x _ => ?_
    · rw [Grammar.map_vertex_nodes]
      exact Grammar.vertices_nodup h
    · cases x <;> rfl
  have hnodes : (G.nodes.foldl enter (empty G)).nodes.toList = G.nodes := nodes_foldl_enter G.nodes
  refine ⟨⟨grammar_foldl_enter G.nodes, hnodes, fun v id => ?_⟩, hindexed.arcs_eq⟩
  rw [hindexed.number?_iff, ← Array.getElem?_toList, hnodes, ← List.getElem?_map,
    Grammar.map_vertex_nodes]

end FlowGraph

/-! ### Entering arcs -/

/-- The arc of an edge, if vertices have the given numbers. -/
def Edge.arc (number : Vertex → Nat) : Edge → Arc
  | epsilon v => .epsilon (number v)
  | call v => .call (number v)
  | resume v => .resume (number v)
  | scan t v => .scan t (number v)

namespace FlowGraph

/-- The edges as they are collected, if vertices have the given numbers. -/
def arcsOf (number : Vertex → Nat) (l : List (Vertex × Edge)) : List (Nat × Arc) :=
  l.map fun q => (number q.1, q.2.arc number)

lemma flatten_map_arcsOf {α : Type} (number : Vertex → Nat) (f : α → List (Vertex × Edge))
    (l : List α) : (l.map fun a => arcsOf number (f a)).flatten = arcsOf number (l.flatMap f) := by
  rw [arcsOf, List.map_flatMap, List.flatMap_def]
  rfl

lemma mapM_eq_ok {α β : Type} {f : α → Except Fault β} {f' : α → β} {l : List α}
    (h : ∀ a ∈ l, f a = .ok (f' a)) : l.mapM f = .ok (l.map f') := by
  induction l with
  | nil => rfl
  | cons a l ih =>
    obtain ⟨ha, hl⟩ := List.forall_mem_cons.1 h
    rw [List.mapM_cons, ha, ih hl]
    rfl

namespace Entered

lemma number_of_mem (h : g.Entered G) (hv : v ∈ G.vertices) :
    g.number v = .ok (G.vertices.idxOf v) := by
  rw [number, h.number?_of_mem hv]

lemma symbolArcs_eq (h : g.Entered G) (hG : G.Closed) (hp : G.prods[p]? = some prod)
    (hs : prod.body[dot]? = some s) :
    g.symbolArcs p dot s = .ok (arcsOf G.vertices.idxOf (Grammar.symbolEdges p dot s)) := by
  have hdot := (List.getElem?_eq_some_iff.1 hs).1
  have hsource := h.number_of_mem (Grammar.item_mem_vertices.2 ⟨prod, hp, Nat.le_of_lt hdot⟩)
  have hnext := h.number_of_mem (Grammar.item_mem_vertices.2 ⟨prod, hp, hdot⟩)
  rw [symbolArcs, hsource, hnext]
  cases s with
  | terminal t => rfl
  | nonterminal n =>
    have hn := hG.body_mem _ (List.mem_of_getElem? hp) n (List.mem_of_getElem? hs)
    have hstart := h.number_of_mem (Grammar.start_mem_vertices.2 hn)
    simp only [bind, Except.bind, hstart]
    rfl

lemma prodArcs_eq (h : g.Entered G) (hG : G.Closed) (hp : G.prods[p]? = some prod) :
    g.prodArcs p prod = .ok (arcsOf G.vertices.idxOf (Grammar.prodEdges p prod)) := by
  have hhead := hG.head_mem _ (List.mem_of_getElem? hp)
  have hstart := h.number_of_mem (Grammar.start_mem_vertices.2 hhead)
  have hfinish := h.number_of_mem (Grammar.finish_mem_vertices.2 hhead)
  have hfirst := h.number_of_mem (Grammar.item_mem_vertices.2 ⟨prod, hp, Nat.zero_le _⟩)
  have hlast := h.number_of_mem (Grammar.item_mem_vertices.2 ⟨prod, hp, Nat.le_refl _⟩)
  have hinner := mapM_eq_ok fun s (hs : s ∈ prod.body.zipIdx) =>
    h.symbolArcs_eq hG hp (List.mem_zipIdx_iff_getElem?.1 hs)
  rw [prodArcs, hstart, hfirst, hinner, hlast, hfinish]
  simp only [bind, Except.bind, flatten_map_arcsOf, Grammar.prodEdges]
  simp [arcsOf, Edge.arc, pure, Except.pure]

lemma newArcs_eq (h : g.Entered G) (hG : G.Closed) :
    g.newArcs = .ok (arcsOf G.vertices.idxOf G.listed) := by
  have hprods := mapM_eq_ok fun q (hq : q ∈ G.prods.zipIdx) =>
    h.prodArcs_eq hG (List.mem_zipIdx_iff_getElem?.1 hq)
  rw [newArcs, h.grammar_eq, hprods]
  simp only [bind, Except.bind, flatten_map_arcsOf]
  rfl

end Entered

/-- The lists of arcs after an arc has been put behind those of its source. -/
def putArc (arcs : Array (List Arc)) (q : Nat × Arc) : Array (List Arc) :=
  arcs.modify q.1 (· ++ [q.2])

lemma foldlM_addArc {l : List (Nat × Arc)} (h : ∀ q ∈ l, q.1 < g.arcs.size) :
    l.foldlM addArc g = .ok { g with arcs := l.foldl putArc g.arcs } := by
  induction l generalizing g with
  | nil => rfl
  | cons q l ih =>
    obtain ⟨hq, hl⟩ := List.forall_mem_cons.1 h
    rw [List.foldlM_cons, addArc, if_pos hq]
    exact ih (by simpa using hl)

/-- Each vertex gets the arcs that are listed for it, in their order. -/
lemma getElem?_foldl_putArc (arcs : Array (List Arc)) (l : List (Nat × Arc)) (id : Nat) :
    (l.foldl putArc arcs)[id]? = arcs[id]?.map (· ++ leaving id l) := by
  induction l generalizing arcs with
  | nil => simp
  | cons q l ih =>
    rw [List.foldl_cons, ih, leaving_cons, putArc, Array.getElem?_modify]
    split
    · next hid => simp [Function.comp_def]
    · next hid => simp

/-! ### The tables of a grammar -/

/-- The tables have the vertices of the grammar and their edges. -/
structure Tabulates (g : FlowGraph) (G : Grammar) : Prop extends g.HasVertices G where
  arcs_eq : ∀ (v : Vertex) (id : Nat), G.vertices[id]? = some v →
    g.arcs[id]? = some ((G.edges v).map (Edge.arc G.vertices.idxOf))

/-- Every arc is handed out to its source. -/
lemma Entered.exists_tabulates (h : g.Entered G) (hG : G.Closed) :
    ∃ g', g.addArcs = .ok g' ∧ g'.Tabulates G := by
  have hsize : g.arcs.size = G.vertices.length := by
    rw [h.arcs_eq, Array.size_replicate, ← Array.length_toList, h.nodes_eq,
      ← Grammar.map_vertex_nodes, List.length_map]
  have hsource : ∀ q ∈ G.listed, q.1 ∈ G.vertices := by
    intro q hq
    have hedge : q.2 ∈ G.edges q.1 := Grammar.leaving_listed G q.1 ▸ mem_leaving.2 hq
    exact (Grammar.mem_edges_iff.1 hedge).source_mem_vertices hG
  have hlt : ∀ q ∈ arcsOf G.vertices.idxOf G.listed, q.1 < g.arcs.size := by
    intro q hq
    obtain ⟨e, he, rfl⟩ := List.mem_map.1 hq
    exact hsize ▸ List.idxOf_lt_length_of_mem (hsource e he)
  have hadd : g.addArcs =
      .ok { g with arcs := (arcsOf G.vertices.idxOf G.listed).foldl putArc g.arcs } := by
    rw [addArcs, h.newArcs_eq hG]
    exact foldlM_addArc hlt
  refine ⟨_, hadd, ⟨h.grammar_eq, h.nodes_eq, h.number?_iff⟩, fun v id hv => ?_⟩
  have hmem : v ∈ G.vertices := List.mem_of_getElem? hv
  have hid : G.vertices.idxOf v = id :=
    Option.some.inj ((h.number?_of_mem hmem).symm.trans ((h.number?_iff _ _).2 hv))
  have hempty : g.arcs[id]? = some [] := by
    have hid : id < g.nodes.size := by
      have hlt := (List.getElem?_eq_some_iff.1 hv).1
      rwa [← hsize, h.arcs_eq, Array.size_replicate] at hlt
    rw [h.arcs_eq, Array.getElem?_replicate, if_pos hid]
  have hleaving : leaving id (arcsOf G.vertices.idxOf G.listed) =
      (G.edges v).map (Edge.arc G.vertices.idxOf) := by
    rw [← Grammar.leaving_listed, ← hid]
    exact leaving_map (f := G.vertices.idxOf) fun q hq => (List.idxOf_inj (hsource q hq)).1
  rw [getElem?_foldl_putArc, hempty, Option.map_some, List.nil_append, hleaving]

end FlowGraph

end ParseForest
