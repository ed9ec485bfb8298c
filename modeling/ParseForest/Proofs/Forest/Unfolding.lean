import ParseForest.Proofs.Forest.Packed
import ParseForest.Grammar.Samples

/-!
# Unfolding forests

Unfolding a node of a forest means to unfold its children, and to choose one of its alternatives
first if it is ambiguous, each time anew wherever the node occurs. If the input has finitely many
permitted derivations, the graph of its forest has no cycles, and the ways to unfold the root and
the derivations belong to each other one to one, `forest_unfolds`.
-/

namespace ParseForest

/-- A way to unfold a node of a forest: the number of the node, that of the alternative that is
chosen if the node is ambiguous, and a way to unfold each of the children. -/
inductive Unfolding where
  | node (id : Nat) (alternative : Option Nat) (children : List Unfolding)

def Unfolding.id : Unfolding → Nat
  | node id _ _ => id

namespace Forest

/-- The ways to unfold a node. -/
inductive Unfolds (F : Forest) : Nat → Unfolding → Prop where
  | token {i index : Nat} {t : Token} (hm : F.nodes[i]? = some (.token index t)) :
      Unfolds F i (.node i none [])
  | epsilon {i position : Nat} (hm : F.nodes[i]? = some (.epsilon position)) :
      Unfolds F i (.node i none [])
  /-- A node that is not ambiguous has the children of its only derivation. -/
  | plain {i lo hi : Nat} {n : NonTerminal} {children : List Nat} {us : List Unfolding}
      (hm : F.nodes[i]? = some (.nonterminal n lo hi false children))
      (h : List.Forall₂ (Unfolds F) children us) : Unfolds F i (.node i none us)
  /-- One of the alternatives of an ambiguous node is chosen. -/
  | ambiguous {i j lo hi lo' hi' p : Nat} {n n' : NonTerminal} {alternatives children : List Nat}
      {us : List Unfolding} (hm : F.nodes[i]? = some (.nonterminal n lo hi true alternatives))
      (hj : j ∈ alternatives) (ha : F.nodes[j]? = some (.alternative n' p lo' hi' children))
      (h : List.Forall₂ (Unfolds F) children us) : Unfolds F i (.node i (some j) us)

/-- The tree is what the unfolding looks like. A node that is not ambiguous does not tell by which
production it is derived. -/
inductive Shows (F : Forest) : Unfolding → Tree → Prop where
  | token {i index : Nat} {t : Token} (hm : F.nodes[i]? = some (.token index t)) :
      Shows F (.node i none []) (.token index t)
  | epsilon {i position : Nat} (hm : F.nodes[i]? = some (.epsilon position)) :
      Shows F (.node i none []) (.epsilon position)
  | plain {i lo hi p : Nat} {n : NonTerminal} {children : List Nat} {us : List Unfolding}
      {ts : List Tree} (hm : F.nodes[i]? = some (.nonterminal n lo hi false children))
      (h : List.Forall₂ (Shows F) us ts) : Shows F (.node i none us) (.node n p lo hi ts)
  | ambiguous {i j lo hi p : Nat} {n : NonTerminal} {alternatives children : List Nat}
      {us : List Unfolding} {ts : List Tree}
      (hm : F.nodes[i]? = some (.nonterminal n lo hi true alternatives))
      (ha : F.nodes[j]? = some (.alternative n p lo hi children))
      (h : List.Forall₂ (Shows F) us ts) : Shows F (.node i (some j) us) (.node n p lo hi ts)

end Forest

variable {P : Parsing} {G : Grammar} {w : List Token} {F : Forest} {i y : Nat} {x : Phrase}
  {s : Piece} {t : Tree} {u : Unfolding}

/-! ### Lists of trees -/

/-- What is unique for each element of a list is unique for the list. -/
lemma existsUnique_forall₂ {α β γ δ : Type} {Q : α → β → Prop} {D : β → γ → Prop}
    {R : α → δ → Prop} {S : δ → γ → Prop} {as : List α} {bs : List β} {cs : List γ}
    (hQ : List.Forall₂ Q as bs) (hD : List.Forall₂ D bs cs)
    (h : ∀ a b c, Q a b → D b c → c ∈ cs → ∃! d, R a d ∧ S d c) :
    ∃! ds, List.Forall₂ R as ds ∧ List.Forall₂ S ds cs := by
  induction hQ generalizing cs with
  | nil =>
    cases hD
    refine ⟨[], ⟨.nil, .nil⟩, ?_⟩
    rintro ds ⟨hds, -⟩
    cases hds
    rfl
  | cons hab _ ih =>
    cases hD with
    | cons hbc hD =>
      obtain ⟨d, ⟨hd, hdc⟩, hd_unique⟩ := h _ _ _ hab hbc List.mem_cons_self
      obtain ⟨ds, ⟨hds, hdscs⟩, hds_unique⟩ :=
        ih hD fun a b c ha hb hc => h a b c ha hb (List.mem_cons_of_mem _ hc)
      refine ⟨d :: ds, ⟨.cons hd hds, .cons hdc hdscs⟩, ?_⟩
      rintro ds' ⟨hR, hS⟩
      cases hR with
      | cons hd' hds' =>
        cases hS with
        | cons hdc' hdscs' =>
          rw [hd_unique _ ⟨hd', hdc'⟩, hds_unique _ ⟨hds', hdscs'⟩]

lemma piecesOf_eq_iff {nodes : Array ForestNode} {ids : List Nat} {ss : List Piece} :
    piecesOf nodes ids = ss.map some ↔
      List.Forall₂ (fun i s => (kindAt nodes i).bind Kind.piece? = some s) ids ss := by
  rw [piecesOf_eq, ← List.forall₂_eq_eq_eq, List.forall₂_map_left_iff, List.forall₂_map_right_iff]

namespace Forest

lemma Unfolds.id_eq (h : F.Unfolds i u) : u.id = i := by
  cases h <;> rfl

/-- There is one way to unfold a leaf. -/
lemma Unfolds.eq_of_leaf (h : F.Unfolds i u) (hk : kindAt F.nodes i = some (.leaf s)) :
    u = .node i none [] := by
  cases h with
  | token => rfl
  | epsilon => rfl
  | plain hm => cases hk.symm.trans (kindAt_of_nonterminal hm).1
  | ambiguous hm => cases hk.symm.trans (kindAt_of_ambiguous hm).1

/-- A derivation that an unfolding looks like is one of the piece that the node stands for. -/
lemma Shows.piece (h : F.Shows u t) (ht : s.Derives G w t) :
    (kindAt F.nodes u.id).bind Kind.piece? = some s := by
  have phrase : ∀ {n p lo hi ts}, s.Derives G w (.node n p lo hi ts) → s = .phrase ⟨n, lo, hi⟩ := by
    intro n p lo hi ts ht
    cases ht with
    | @phrase x _ ht =>
      obtain ⟨r, children, heq, -⟩ := derives_iff.1 ht
      cases heq
      rfl
  cases h with
  | token hm =>
    cases ht with
    | token =>
      rw [Unfolding.id, kindAt_eq hm]
      rfl
    | phrase ht =>
      obtain ⟨r, children, heq, -⟩ := derives_iff.1 ht
      cases heq
  | epsilon hm =>
    cases ht with
    | epsilon =>
      rw [Unfolding.id, kindAt_eq hm]
      rfl
    | phrase ht =>
      obtain ⟨r, children, heq, -⟩ := derives_iff.1 ht
      cases heq
  | plain hm =>
    rw [phrase ht, Unfolding.id, kindAt_eq hm]
    rfl
  | ambiguous hm =>
    rw [phrase ht, Unfolding.id, kindAt_eq hm]
    rfl

lemma forall₂_piece {ids : List Nat} {us : List Unfolding} {ss : List Piece} {ts : List Tree}
    (hu : List.Forall₂ F.Unfolds ids us) (hs : List.Forall₂ F.Shows us ts)
    (ht : List.Forall₂ (Piece.Derives G w) ss ts) : piecesOf F.nodes ids = ss.map some := by
  rw [piecesOf_eq_iff]
  induction hu generalizing ss ts with
  | nil =>
    cases hs
    cases ht
    exact .nil
  | cons hu _ ih =>
    cases hs with
    | cons hs hss =>
      cases ht with
      | cons ht hts => exact .cons (hu.id_eq ▸ hs.piece ht) (ih hss hts)

end Forest

/-! ### Nodes of packed forests -/

/-- The choice of a container at the node of a phrase. -/
def choice (y i : Nat) : Option Nat :=
  if i = y then none else some i

namespace Forest.Packed

/-- A container of a phrase is the node of the phrase, if that is not ambiguous, and otherwise one
of the alternatives of the node. -/
lemma choice_cases (h : F.Packed P) (hy : (kindAt F.nodes y).bind Kind.phrase? = some x)
    (hi : (kindAt F.nodes i).bind Kind.container? = some x) :
    (i = y ∧ choice y i = none ∧ kindAt F.nodes y = some (.plain x)) ∨
      (i ∈ childrenAt F.nodes y ∧ choice y i = some i ∧ kindAt F.nodes y = some (.ambiguous x) ∧
        ∃ p, kindAt F.nodes i = some (.alternative x p)) := by
  obtain ⟨th, vis, hset⟩ := h.settled
  obtain ⟨kind, hk, hx⟩ := Option.bind_eq_some_iff.1 hy
  cases kind with
  | leaf => cases hx
  | alternative => cases hx
  | plain x' =>
    cases hx
    obtain rfl := (hset.container_of_plain hk).1 hi
    exact .inl ⟨rfl, if_pos rfl, hk⟩
  | ambiguous x' =>
    cases hx
    have hmem := (hset.container_of_ambiguous hk).1 hi
    obtain ⟨p, hp⟩ := (hset.alternatives y x hk).2 i hmem
    refine .inr ⟨hmem, if_neg ?_, hk, p, hp⟩
    rintro rfl
    cases hk.symm.trans hp

/-- The ways to unfold the node of a phrase are those to unfold the children of its containers. -/
lemma unfolds_iff (h : F.Packed P) (hy : (kindAt F.nodes y).bind Kind.phrase? = some x) :
    F.Unfolds y u ↔ ∃ i us, (kindAt F.nodes i).bind Kind.container? = some x ∧
      u = .node y (choice y i) us ∧ List.Forall₂ F.Unfolds (childrenAt F.nodes i) us := by
  obtain ⟨th, vis, hset⟩ := h.settled
  constructor
  · intro hu
    cases hu with
    | token hm =>
      rw [kindAt_eq hm] at hy
      cases hy
    | epsilon hm =>
      rw [kindAt_eq hm] at hy
      cases hy
    | plain hm hus =>
      obtain ⟨hk, hc⟩ := kindAt_of_nonterminal hm
      rw [hk] at hy
      cases hy
      exact ⟨y, _, (hset.container_of_plain hk).2 rfl, by simp [choice], hc ▸ hus⟩
    | @ambiguous _ j _ _ _ _ _ _ _ _ _ _ hm hj ha hus =>
      obtain ⟨hk, hc⟩ := kindAt_of_ambiguous hm
      have hx := hy
      rw [hk] at hx
      cases hx
      have hi := (hset.container_of_ambiguous hk).2 (hc ▸ hj)
      obtain ⟨-, -, hk'⟩ | ⟨-, hchoice, -, p, hp⟩ := h.choice_cases hy hi
      · cases hk.symm.trans hk'
      · refine ⟨j, _, hi, by rw [hchoice], ?_⟩
        rw [kindAt_eq_alternative_iff, ha] at hp
        cases hp
        exact hus
  · rintro ⟨i, us, hi, rfl, hus⟩
    obtain ⟨rfl, hchoice, hk⟩ | ⟨hmem, hchoice, hk, p, hp⟩ := h.choice_cases hy hi
    · rw [hchoice]
      exact .plain (kindAt_eq_plain_iff.1 hk) hus
    · rw [hchoice]
      exact .ambiguous (kindAt_eq_ambiguous_iff.1 hk) hmem (kindAt_eq_alternative_iff.1 hp) hus

/-- What an unfolding of the node of a phrase looks like. -/
lemma shows_iff (h : F.Packed P) (hy : (kindAt F.nodes y).bind Kind.phrase? = some x)
    (hi : (kindAt F.nodes i).bind Kind.container? = some x) {us : List Unfolding} :
    F.Shows (.node y (choice y i) us) t ↔ ∃ p ts, t = .node x.symbol p x.lo x.hi ts ∧
      (∀ x' q, kindAt F.nodes i = some (.alternative x' q) → q = p) ∧
      List.Forall₂ F.Shows us ts := by
  obtain ⟨rfl, hchoice, hk⟩ | ⟨-, hchoice, hk, p, hp⟩ := h.choice_cases hy hi
  · have hm := kindAt_eq_plain_iff.1 hk
    rw [hchoice]
    constructor
    · intro hs
      cases hs with
      | plain hm' hs =>
        cases hm.symm.trans hm'
        refine ⟨_, _, rfl, fun x' q hq => ?_, hs⟩
        cases hk.symm.trans hq
      | token hm' => cases hm.symm.trans hm'
      | epsilon hm' => cases hm.symm.trans hm'
    · rintro ⟨p, ts, rfl, -, hs⟩
      exact .plain hm hs
  · have hm := kindAt_eq_ambiguous_iff.1 hk
    have ha := kindAt_eq_alternative_iff.1 hp
    rw [hchoice]
    constructor
    · intro hs
      cases hs with
      | ambiguous hm' ha' hs =>
        cases hm.symm.trans hm'
        cases ha.symm.trans ha'
        refine ⟨p, _, rfl, fun x' q hq => ?_, hs⟩
        cases hp.symm.trans hq
        rfl
    · rintro ⟨q, ts, rfl, hq, hs⟩
      obtain rfl := hq x p hp
      exact .ambiguous hm ha hs

/-! ### One to one -/

/-- Each derivation of the piece of a node is obtained by one choice of alternatives. -/
theorem existsUnique_unfolding (h : F.Packed P)
    (hi : (kindAt F.nodes i).bind Kind.piece? = some s) (ht : s.Derives P.grammar P.tokens t) :
    ∃! u, F.Unfolds i u ∧ F.Shows u t := by
  induction hd : t.depth using Nat.strongRecOn generalizing i s t with
  | _ d ih =>
    subst hd
    cases ht with
    | @token index v hv =>
      obtain ⟨hk, v', hm⟩ := node_of_token hi
      obtain rfl := Option.some.inj (hv.symm.trans (h.leaves _ _ _ hm))
      exact ⟨.node i none [], ⟨.token hm, .token hm⟩, fun u hu => hu.1.eq_of_leaf hk⟩
    | @epsilon position =>
      obtain ⟨hk, hm⟩ := node_of_epsilon hi
      exact ⟨.node i none [], ⟨.epsilon hm, .epsilon hm⟩, fun u hu => hu.1.eq_of_leaf hk⟩
    | @phrase x _ ht =>
      have hy := phrase_of_piece hi
      obtain ⟨r, ts, rfl, hr, hts⟩ := derives_iff.1 ht
      obtain ⟨j, ⟨hj, hids, hprod⟩, hunique⟩ := h.container x r ⟨i, hy⟩ hr
      obtain ⟨us, ⟨hus, hshows⟩, hus_unique⟩ :=
        existsUnique_forall₂ (piecesOf_eq_iff.1 hids) hts fun a b c hab hbc hc =>
          ih _ (Tree.depth_lt_of_mem hc) hab hbc rfl
      refine ⟨.node i (choice i j) us, ⟨(h.unfolds_iff hy).2 ⟨j, us, hj, rfl, hus⟩,
        (h.shows_iff hy hj).2 ⟨r.prod, ts, rfl, hprod, hshows⟩⟩, ?_⟩
      rintro u ⟨hu, hs⟩
      obtain ⟨j', us', hj', rfl, hus'⟩ := (h.unfolds_iff hy).1 hu
      obtain ⟨p, ts', heq, hprod', hshows'⟩ := (h.shows_iff hy hj').1 hs
      cases heq
      obtain rfl := hunique j' ⟨hj', forall₂_piece hus' hshows' hts, hprod'⟩
      rw [hus_unique us' ⟨hus', hshows'⟩]

/-- Each choice of alternatives gives one derivation of the piece of the node. -/
theorem existsUnique_derivation (h : F.Packed P)
    (hi : (kindAt F.nodes i).bind Kind.piece? = some s) (hu : F.Unfolds i u) :
    ∃! t, s.Derives P.grammar P.tokens t ∧ F.Shows u t := by
  induction hd : sizeOf u using Nat.strongRecOn generalizing i s u with
  | _ d ih =>
    subst hd
    cases s with
    | token index =>
      obtain ⟨hk, v, hm⟩ := node_of_token hi
      obtain rfl := hu.eq_of_leaf hk
      refine ⟨.token index v, ⟨.token (h.leaves _ _ _ hm), .token hm⟩, ?_⟩
      rintro t ⟨ht, -⟩
      cases ht with
      | token hv => rw [Option.some.inj (hv.symm.trans (h.leaves _ _ _ hm))]
    | epsilon position =>
      obtain ⟨hk, hm⟩ := node_of_epsilon hi
      obtain rfl := hu.eq_of_leaf hk
      refine ⟨.epsilon position, ⟨.epsilon, .epsilon hm⟩, ?_⟩
      rintro t ⟨ht, -⟩
      cases ht
      rfl
    | phrase x =>
      have hy := phrase_of_piece hi
      obtain ⟨j, us, hj, rfl, hus⟩ := (h.unfolds_iff hy).1 hu
      obtain ⟨r, ⟨hr, hids, hprod⟩, hunique⟩ := h.existsUnique_reading hj
      obtain ⟨ts, ⟨hts, hshows⟩, hts_unique⟩ :=
        existsUnique_forall₂ (S := fun t u => F.Shows u t) (piecesOf_eq_iff.1 hids).flip hus
          fun a b c hab hbc hc => ih _ (by
            have := List.sizeOf_lt_of_mem hc
            simp only [Unfolding.node.sizeOf_spec]
            omega) hab hbc rfl
      refine ⟨.node x.symbol r.prod x.lo x.hi ts, ⟨.phrase (derives_iff.2 ⟨r, ts, rfl, hr, hts⟩),
        (h.shows_iff hy hj).2 ⟨r.prod, ts, rfl, hprod, hshows.flip⟩⟩, ?_⟩
      rintro t ⟨ht, hs⟩
      cases ht with
      | phrase ht =>
        obtain ⟨r', ts', rfl, hr', hts'⟩ := derives_iff.1 ht
        obtain ⟨p, ts'', heq, hprod', hshows'⟩ := (h.shows_iff hy hj).1 hs
        cases heq
        obtain rfl := hunique r' ⟨hr', forall₂_piece hus hshows' hts', hprod'⟩
        rw [hts_unique ts' ⟨hts', hshows'.flip⟩]

end Forest.Packed

/-- The forest of an input that has finitely many permitted derivations unfolds to these, one for
one. Its graph has no cycles, each derivation of the input is obtained by one choice of alternatives
at the occurrences of ambiguous nodes below the root, and each choice gives one derivation. -/
theorem forest_unfolds {G : Grammar} {tokens : List Token} {start : NonTerminal}
    {rules : List RuleDecl} (hG : Grammar.build start rules = .ok G) {P : Parsing}
    (hP : (G.recognize tokens).result = .ok P)
    (hfinite : {t | G.Derives tokens G.start 0 tokens.length t}.Finite) :
    ∃ F, P.forest = .ok F ∧ F.Acyclic ∧
      (∀ t, G.Derives tokens G.start 0 tokens.length t →
        ∃! u, F.Unfolds F.root u ∧ F.Shows u t) ∧
      ∀ u, F.Unfolds F.root u →
        ∃! t, G.Derives tokens G.start 0 tokens.length t ∧ F.Shows u t := by
  obtain ⟨rfl, rfl, hc⟩ := complete_of_recognize (Grammar.closed_of_build hG) hP
  have hac : P.grammar.Acyclic P.tokens P.whole := acyclic_of_finite hfinite
  obtain ⟨F, w, b, th, hF⟩ := hc.exists_builds
  have hpacked : F.Packed P := hF.packed hc (hc.neverOverwrites_of_acyclic hac)
  refine ⟨F, hF.forest, hpacked.acyclic hac, fun t ht => ?_, fun u hu => ?_⟩
  · exact hpacked.existsUnique_unfolding hpacked.root (.phrase ht)
  · obtain ⟨t, ⟨ht, hs⟩, hunique⟩ := hpacked.existsUnique_derivation hpacked.root hu
    cases ht with
    | phrase ht => exact ⟨t, ⟨ht, hs⟩, fun t' ht' => hunique t' ⟨.phrase ht'.1, ht'.2⟩⟩

/-- In the grammar that can split three tokens at two places, no phrase is a constituent of
itself. -/
lemma acyclic_splitAmbiguity (w : List Token) (x : Phrase) : Samples.splitAmbiguity.Acyclic w x := by
  have symbols : ∀ {y z}, Samples.splitAmbiguity.Has w y z →
      y.symbol = ⟨"S"⟩ ∧ z.symbol = ⟨"A"⟩ := by
    intro y z h
    obtain ⟨prod, hp, hhead, hbody⟩ := h.exists_prod
    have hprods : Samples.splitAmbiguity.prods = [⟨⟨"S"⟩, [Samples.nt "A", Samples.nt "A"], none⟩,
        ⟨⟨"A"⟩, [Samples.tm "a"], none⟩, ⟨⟨"A"⟩, [Samples.tm "a", Samples.tm "a"], none⟩] := rfl
    simp only [hprods, List.mem_cons, List.not_mem_nil, or_false] at hp
    rcases hp with rfl | rfl | rfl
    · exact ⟨hhead.symm, by simpa [Samples.nt] using hbody⟩
    · simp [Samples.tm] at hbody
    · simp [Samples.tm] at hbody
  intro y _ hyy
  obtain ⟨z, hyz, -⟩ := Relation.TransGen.head'_iff.1 hyy
  obtain ⟨z', -, hzy⟩ := Relation.TransGen.tail'_iff.1 hyy
  have hsymbol : (⟨"S"⟩ : NonTerminal) = ⟨"A"⟩ := (symbols hyz).1.symm.trans (symbols hzy).2
  simp at hsymbol

/-- Three tokens that can be split at two places have two derivations, and there are two ways to
unfold their forest. -/
theorem forest_unfolds_splitAmbiguity :
    Grammar.build ⟨"S"⟩ [Samples.rule "S" [[Samples.nt "A", Samples.nt "A"]],
        Samples.rule "A" [[Samples.tm "a"], [Samples.tm "a", Samples.tm "a"]]] =
        .ok Samples.splitAmbiguity ∧
      {t | Samples.splitAmbiguity.Derives [.plain "a", .plain "a", .plain "a"] ⟨"S"⟩ 0 3 t}.Finite ∧
      ∃ P F, (Samples.splitAmbiguity.recognize [.plain "a", .plain "a", .plain "a"]).result = .ok P ∧
        P.forest = .ok F ∧ F.Acyclic ∧
        ∃ u v, u ≠ v ∧ F.Unfolds F.root u ∧ F.Unfolds F.root v := by
  have hbuild : Grammar.build ⟨"S"⟩ [Samples.rule "S" [[Samples.nt "A", Samples.nt "A"]],
      Samples.rule "A" [[Samples.tm "a"], [Samples.tm "a", Samples.tm "a"]]] =
        .ok Samples.splitAmbiguity := rfl
  let w : List Token := [.plain "a", .plain "a", .plain "a"]
  have hfinite : {t | Samples.splitAmbiguity.Derives w ⟨"S"⟩ 0 3 t}.Finite :=
    finite_of_acyclic (x := ⟨⟨"S"⟩, 0, 3⟩) (acyclic_splitAmbiguity w _)
  have hS : Samples.splitAmbiguity.prods[0]? = some ⟨⟨"S"⟩, [Samples.nt "A", Samples.nt "A"], none⟩ :=
    rfl
  have hshort : Samples.splitAmbiguity.prods[1]? = some ⟨⟨"A"⟩, [Samples.tm "a"], none⟩ := rfl
  have hlong : Samples.splitAmbiguity.prods[2]? =
      some ⟨⟨"A"⟩, [Samples.tm "a", Samples.tm "a"], none⟩ := rfl
  have hs := Spans.exit hS (.resume (.resume (.enter (w := w) hS (Nat.zero_le _)) hS rfl
    (.exit hshort (.scan (.enter hshort (Nat.zero_le _)) rfl rfl)) rfl) hS rfl
    (.exit hlong (.scan (.scan (.enter hlong (by decide)) rfl rfl) rfl rfl)) rfl)
  have hl := Spans.exit hS (.resume (.resume (.enter (w := w) hS (Nat.zero_le _)) hS rfl
    (.exit hlong (.scan (.scan (.enter hlong (Nat.zero_le _)) rfl rfl) rfl rfl)) rfl) hS rfl
    (.exit hshort (.scan (.enter hshort (by decide)) rfl rfl)) rfl)
  obtain ⟨P, hP⟩ := exists_recognize_of_accepts (Grammar.closed_of_build hbuild) ⟨_, hs⟩
  obtain ⟨F, hF, hac, hunfold, hderive⟩ := forest_unfolds hbuild hP hfinite
  obtain ⟨u, ⟨hu, hus⟩, -⟩ := hunfold _ hs
  obtain ⟨v, ⟨hv, hvs⟩, -⟩ := hunfold _ hl
  refine ⟨hbuild, hfinite, P, F, hP, hF, hac, u, v, ?_, hu, hv⟩
  rintro rfl
  have := (hderive u hu).unique ⟨hs, hus⟩ ⟨hl, hvs⟩
  simp [Tree.childrenOf] at this

end ParseForest
