import ParseForest.Proofs.FlowGraph.Edges

/-!
# The edges of all productions

The edges of a flow graph can be listed production by production, each with the vertex that it
leaves. What is listed for a vertex are its edges in their order, `leaving_listed`: to a start each
production of its nonterminal contributes one, and to an item only its own production does, and of
that only the symbol behind the dot.
-/

namespace ParseForest

/-! ### What is listed for a key -/

/-- The values of a key in a list of keys with values, in their order. -/
def leaving {κ α : Type} [DecidableEq κ] (k : κ) (l : List (κ × α)) : List α :=
  l.filterMap fun q => if q.1 = k then some q.2 else none

section

variable {κ κ' α β : Type} [DecidableEq κ] [DecidableEq κ'] {k : κ}

@[simp] lemma leaving_nil : leaving k ([] : List (κ × α)) = [] := rfl

lemma leaving_cons (q : κ × α) (l : List (κ × α)) :
    leaving k (q :: l) = if q.1 = k then q.2 :: leaving k l else leaving k l := by
  by_cases h : q.1 = k
  · simp [leaving, h]
  · simp [leaving, h]

lemma leaving_append (l l' : List (κ × α)) : leaving k (l ++ l') = leaving k l ++ leaving k l' :=
  List.filterMap_append

lemma leaving_flatMap (l : List β) (f : β → List (κ × α)) :
    leaving k (l.flatMap f) = l.flatMap fun b => leaving k (f b) :=
  List.filterMap_flatMap

lemma mem_leaving {a : α} {l : List (κ × α)} : a ∈ leaving k l ↔ (k, a) ∈ l := by
  induction l with
  | nil => simp
  | cons q l ih =>
    rw [leaving_cons, List.mem_cons, Prod.ext_iff, ← ih]
    split
    · next hk => simp [hk]
    · next hk => simp [Ne.symm hk]

/-- Renaming keys one to one does not change what is listed for them. -/
lemma leaving_map {f : κ → κ'} {h : α → β} {l : List (κ × α)}
    (hf : ∀ q ∈ l, f q.1 = f k → q.1 = k) :
    leaving (f k) (l.map fun q => (f q.1, h q.2)) = (leaving k l).map h := by
  induction l with
  | nil => rfl
  | cons q l ih =>
    obtain ⟨hq, hl⟩ := List.forall_mem_cons.1 hf
    rw [List.map_cons, leaving_cons, leaving_cons, ih hl]
    by_cases hk : q.1 = k
    · simp [hk]
    · have hfk : f q.1 ≠ f k := fun heq => hk (hq heq)
      simp [hk, hfk]

/-- Only the element of one number contributes. -/
lemma flatMap_zipIdx {l : List α} {f : α × Nat → List β} (i : Nat)
    (h : ∀ a j, j ≠ i → f (a, j) = []) :
    l.zipIdx.flatMap f = (l[i]?.map fun a => f (a, i)).getD [] := by
  induction l generalizing f i with
  | nil => rfl
  | cons a l ih =>
    rw [List.zipIdx_cons, List.flatMap_cons, List.zipIdx_succ, List.flatMap_map]
    cases i with
    | zero =>
      have hrest : l.zipIdx.flatMap (fun q => f (q.1, q.2 + 1)) = [] :=
        List.flatMap_eq_nil_iff.2 fun q _ => h q.1 (q.2 + 1) (Nat.succ_ne_zero _)
      simpa using hrest
    | succ i =>
      rw [h a 0 (Nat.succ_ne_zero i).symm, List.nil_append,
        ih i fun b j hj => h b (j + 1) (fun heq => hj (Nat.succ.inj heq))]
      simp

end

/-! ### The edges of all productions -/

namespace Grammar

variable {v : Vertex} {p dot : Nat} {prod : Production} {n : NonTerminal} {s : Symbol}

/-- The edges from the item before a symbol, with their sources. -/
def symbolEdges (p dot : Nat) : Symbol → List (Vertex × Edge)
  | .terminal t => [(.item p dot, .scan t (.item p (dot + 1)))]
  | .nonterminal n =>
    [(.item p dot, .call (.start n)), (.item p dot, .resume (.item p (dot + 1)))]

/-- The edges into, through and out of a production, with their sources. -/
def prodEdges (p : Nat) (prod : Production) : List (Vertex × Edge) :=
  (.start prod.head, .epsilon (.item p 0))
    :: (prod.body.zipIdx.flatMap fun s => symbolEdges p s.2 s.1)
    ++ [(.item p prod.body.length, .epsilon (.finish prod.head))]

/-- The edges of all productions, with their sources. -/
def listed (G : Grammar) : List (Vertex × Edge) :=
  G.prods.zipIdx.flatMap fun q => prodEdges q.2 q.1

lemma leaving_symbolEdges_of_ne (h : v ≠ .item p dot) : leaving v (symbolEdges p dot s) = [] := by
  cases s <;> simp [symbolEdges, leaving_cons, h.symm]

lemma leaving_symbolEdges_self : leaving (.item p dot) (symbolEdges p dot s) =
    (symbolEdges p dot s).map Prod.snd := by
  cases s <;> simp [symbolEdges, leaving_cons]

/-- The symbols of a body contribute to the items of the production only. -/
lemma leaving_body_eq_nil (prod : Production) (hv : ∀ dot, v ≠ .item p dot) :
    (prod.body.zipIdx.flatMap fun s => leaving v (symbolEdges p s.2 s.1)) = [] :=
  List.flatMap_eq_nil_iff.2 fun _ _ => leaving_symbolEdges_of_ne (hv _)

/-- A start is left by one edge for each production of its nonterminal. -/
lemma leaving_start_prodEdges : leaving (.start n) (prodEdges p prod) =
    if prod.head = n then [.epsilon (.item p 0)] else [] := by
  have hinner := leaving_body_eq_nil (v := .start n) (p := p) prod nofun
  simp [prodEdges, leaving_cons, leaving_append, leaving_flatMap, hinner]

lemma leaving_finish_prodEdges : leaving (.finish n) (prodEdges p prod) = [] := by
  have hinner := leaving_body_eq_nil (v := .finish n) (p := p) prod nofun
  simp [prodEdges, leaving_cons, leaving_append, leaving_flatMap, hinner]

lemma leaving_item_prodEdges_of_ne {p' : Nat} (h : p' ≠ p) :
    leaving (.item p' dot) (prodEdges p prod) = [] := by
  have hinner := leaving_body_eq_nil (v := .item p' dot) (p := p) prod (by simp [h])
  simp [prodEdges, leaving_cons, leaving_append, leaving_flatMap, hinner, h.symm]

/-- An item is left by the edges of the symbol behind its dot, and by an edge out of the production
if it is complete. -/
lemma leaving_item_prodEdges : leaving (.item p dot) (prodEdges p prod) =
    (prod.body[dot]?.map fun s => (symbolEdges p dot s).map Prod.snd).getD [] ++
      if prod.body.length = dot then [.epsilon (.finish prod.head)] else [] := by
  have hinner : (prod.body.zipIdx.flatMap fun s =>
      leaving (.item p dot) (symbolEdges p s.2 s.1)) =
        (prod.body[dot]?.map fun s => (symbolEdges p dot s).map Prod.snd).getD [] := by
    rw [flatMap_zipIdx dot fun s i hi => leaving_symbolEdges_of_ne (by simp [hi.symm])]
    simp only [leaving_symbolEdges_self]
  simp [prodEdges, leaving_cons, leaving_append, leaving_flatMap, hinner]

lemma prodsOf_eq_flatMap (G : Grammar) (n : NonTerminal) :
    G.prodsOf n = G.prods.zipIdx.flatMap fun q => if q.1.head = n then [q.2] else [] := by
  have hrange : List.range G.prods.length = G.prods.zipIdx.map Prod.snd := by
    rw [List.zipIdx_map_snd, List.range_eq_range']
  have hif (l : List (Production × Nat)) : (l.filter fun q => q.1.head == n).map Prod.snd =
      l.flatMap fun q => if q.1.head = n then [q.2] else [] := by
    induction l with
    | nil => rfl
    | cons q l ih =>
      rw [List.filter_cons, List.flatMap_cons, ← ih]
      by_cases hq : q.1.head = n
      · simp [hq]
      · simp [hq]
  rw [prodsOf, hrange, List.filter_map, ← hif]
  refine congrArg (List.map Prod.snd) (List.filter_congr fun q hq => ?_)
  simp [List.mem_zipIdx_iff_getElem?.1 hq]

/-- What is listed for a vertex are the edges that leave it. -/
theorem leaving_listed (G : Grammar) (v : Vertex) : leaving v G.listed = G.edges v := by
  rw [listed, leaving_flatMap]
  cases v with
  | start n =>
    simp only [leaving_start_prodEdges, edges, prodsOf_eq_flatMap, List.map_flatMap]
    congr! 2 with q
    split <;> rfl
  | finish n => simp [leaving_finish_prodEdges, edges]
  | item p dot =>
    rw [flatMap_zipIdx p fun prod i hi => leaving_item_prodEdges_of_ne hi.symm]
    cases hp : G.prods[p]? with
    | none => simp [edges, hp]
    | some prod =>
      simp only [Option.map_some, Option.getD_some, leaving_item_prodEdges, edges, hp]
      cases hs : prod.body[dot]? with
      | none => simp
      | some s =>
        have hdot : prod.body.length ≠ dot := 
          Nat.ne_of_gt (List.getElem?_eq_some_iff.1 hs).1
        cases s <;> simp [symbolEdges, hdot]

end Grammar

end ParseForest
