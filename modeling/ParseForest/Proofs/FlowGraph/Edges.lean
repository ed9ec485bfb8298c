import ParseForest.Proofs.Recognition.Valid

/-!
# The edges of a flow graph

`Joined` reads the edges of a flow graph off the productions of its grammar, one constructor for
each kind of edge, and `mem_edges_iff` says that these are the edges that leave a vertex. The edge
for the symbol behind the dot of an item is the only one of its kind, so looking for a target finds
it. In a grammar whose nonterminals all have rules, edges do not lead out of the graph.
-/

namespace ParseForest.Grammar

/-- The edge leaves the vertex. -/
inductive Joined (G : Grammar) : Vertex → Edge → Prop where
  | enter {p : Nat} {prod : Production} (hp : G.prods[p]? = some prod) :
      Joined G (.start prod.head) (.epsilon (.item p 0))
  | exit {p : Nat} {prod : Production} (hp : G.prods[p]? = some prod) :
      Joined G (.item p prod.body.length) (.epsilon (.finish prod.head))
  | scan {p dot : Nat} {t : Terminal} (hs : G.symbolAt? p dot = some (.terminal t)) :
      Joined G (.item p dot) (.scan t (.item p (dot + 1)))
  | call {p dot : Nat} {n : NonTerminal} (hs : G.symbolAt? p dot = some (.nonterminal n)) :
      Joined G (.item p dot) (.call (.start n))
  | resume {p dot : Nat} {n : NonTerminal} (hs : G.symbolAt? p dot = some (.nonterminal n)) :
      Joined G (.item p dot) (.resume (.item p (dot + 1)))

variable {G : Grammar} {p dot : Nat} {prod : Production} {n : NonTerminal} {t : Terminal}
  {v v' : Vertex} {e : Edge}

/-! ### The edges of an item -/

lemma edges_terminal (hs : G.symbolAt? p dot = some (.terminal t)) :
    G.edges (.item p dot) = [.scan t (.item p (dot + 1))] := by
  obtain ⟨prod, hp, hs⟩ := Option.bind_eq_some_iff.1 hs
  simp only [edges, hp, hs]

lemma edges_nonterminal (hs : G.symbolAt? p dot = some (.nonterminal n)) :
    G.edges (.item p dot) = [.call (.start n), .resume (.item p (dot + 1))] := by
  obtain ⟨prod, hp, hs⟩ := Option.bind_eq_some_iff.1 hs
  simp only [edges, hp, hs]

lemma edges_complete (hp : G.prods[p]? = some prod) :
    G.edges (.item p prod.body.length) = [.epsilon (.finish prod.head)] := by
  have hs : prod.body[prod.body.length]? = none := List.getElem?_eq_none (Nat.le_refl _)
  simp only [edges, hp, hs, if_true]

/-- The edges that leave a vertex. -/
theorem mem_edges_iff : e ∈ G.edges v ↔ G.Joined v e := by
  constructor
  · intro h
    cases v with
    | start n =>
      obtain ⟨p, hmem, rfl⟩ := List.mem_map.1 h
      obtain ⟨prod, hp, rfl⟩ := G.mem_prodsOf.1 hmem
      exact .enter hp
    | finish n => cases h
    | item p dot =>
      cases hs : G.symbolAt? p dot with
      | none =>
        cases hp : G.prods[p]? with
        | none => simp [edges, hp] at h
        | some prod =>
          rw [symbolAt?_eq hp] at hs
          simp only [edges, hp, hs] at h
          split at h
          · next hdot =>
            subst hdot
            obtain rfl := List.mem_singleton.1 h
            exact .exit hp
          · cases h
      | some s =>
        cases s with
        | terminal t =>
          rw [edges_terminal hs, List.mem_singleton] at h
          subst h
          exact .scan hs
        | nonterminal n =>
          rw [edges_nonterminal hs, List.mem_cons, List.mem_singleton] at h
          rcases h with rfl | rfl
          · exact .call hs
          · exact .resume hs
  · intro h
    cases h with
    | enter hp => exact List.mem_map_of_mem (G.mem_prodsOf.2 ⟨_, hp, rfl⟩)
    | exit hp => simp [edges_complete hp]
    | scan hs => simp [edges_terminal hs]
    | call hs => simp [edges_nonterminal hs]
    | resume hs => simp [edges_nonterminal hs]

/-! ### Targets -/

@[simp] lemma epsilonTargets_start :
    G.epsilonTargets (.start n) = (G.prodsOf n).map (.item · 0) := by
  rw [epsilonTargets, edges, List.filterMap_map, ← List.filterMap_eq_map]
  rfl

lemma scanTarget?_eq (hs : G.symbolAt? p dot = some (.terminal t)) :
    G.scanTarget? (.item p dot) t = some (.item p (dot + 1)) := by
  simp [scanTarget?, edges_terminal hs]

lemma resumeTarget?_eq_some_iff :
    G.resumeTarget? v = some v' ↔
      ∃ p dot n, G.symbolAt? p dot = some (.nonterminal n) ∧ v = .item p dot ∧
        v' = .item p (dot + 1) := by
  constructor
  · intro h
    obtain ⟨e, he, htarget⟩ := List.exists_of_findSome?_eq_some h
    cases mem_edges_iff.1 he with
    | resume hs =>
      cases htarget
      exact ⟨_, _, _, hs, rfl, rfl⟩
    | _ => cases htarget
  · rintro ⟨p, dot, n, hs, rfl, rfl⟩
    simp [resumeTarget?, edges_nonterminal hs]

/-! ### Vertices -/

lemma start_mem_vertices : .start n ∈ G.vertices ↔ n ∈ G.heads := by
  simp [vertices, itemsOf]

lemma finish_mem_vertices : .finish n ∈ G.vertices ↔ n ∈ G.heads := by
  simp [vertices, itemsOf]

lemma item_mem_vertices :
    .item p dot ∈ G.vertices ↔ ∃ prod, G.prods[p]? = some prod ∧ dot ≤ prod.body.length := by
  simp [vertices, itemsOf, List.mem_zipIdx_iff_getElem?, Nat.lt_succ_iff]

/-- An edge leaves a vertex of the graph. -/
lemma Joined.source_mem_vertices (hG : G.Closed) (h : G.Joined v e) : v ∈ G.vertices := by
  have before {p dot : Nat} {s : Symbol} (hs : G.symbolAt? p dot = some s) :
      .item p dot ∈ G.vertices := by
    obtain ⟨prod, hp, hs⟩ := Option.bind_eq_some_iff.1 hs
    exact item_mem_vertices.2 ⟨prod, hp, Nat.le_of_lt (List.getElem?_eq_some_iff.1 hs).1⟩
  cases h with
  | enter hp => exact start_mem_vertices.2 (hG.head_mem _ (List.mem_of_getElem? hp))
  | exit hp => exact item_mem_vertices.2 ⟨_, hp, Nat.le_refl _⟩
  | scan hs => exact before hs
  | call hs => exact before hs
  | resume hs => exact before hs

/-- An edge of a graph without undefined nonterminals leads to a vertex of the graph. -/
lemma Joined.mem_vertices (hG : G.Closed) (h : G.Joined v e) : e.target ∈ G.vertices := by
  have next {p dot : Nat} {s : Symbol} (hs : G.symbolAt? p dot = some s) :
      .item p (dot + 1) ∈ G.vertices := by
    obtain ⟨prod, hp, hs⟩ := Option.bind_eq_some_iff.1 hs
    exact item_mem_vertices.2 ⟨prod, hp, (List.getElem?_eq_some_iff.1 hs).1⟩
  cases h with
  | enter hp => exact item_mem_vertices.2 ⟨_, hp, Nat.zero_le _⟩
  | exit hp => exact finish_mem_vertices.2 (hG.head_mem _ (List.mem_of_getElem? hp))
  | scan hs => exact next hs
  | call hs =>
    obtain ⟨prod, hp, hs⟩ := Option.bind_eq_some_iff.1 hs
    exact start_mem_vertices.2
      (hG.body_mem _ (List.mem_of_getElem? hp) _ (List.mem_of_getElem? hs))
  | resume hs => exact next hs

end ParseForest.Grammar
