import ParseForest.Proofs.Forest.Exhaustive
import ParseForest.Proofs.Forest.Keeping

/-!
# How the graph of a builder grows

A report never tears nodes apart: where one node was a child of another there is a path from the
other to it afterwards, and whatever a report adds is put below a node that was there before. So if
all nodes are reached from the root they stay so, `Accounts.grows`. And a token is given a leaf only
if it has none.
-/

namespace ParseForest

open Relation

/-- The second node is a child of the first. -/
def ParentOf (nodes : Array ForestNode) (i j : Nat) : Prop :=
  j ∈ childrenAt nodes i

/-- No token has two leaves. -/
def TokensOnce (nodes : Array ForestNode) : Prop :=
  ∀ i j index, kindAt nodes i = some (.leaf (.token index)) →
    kindAt nodes j = some (.leaf (.token index)) → i = j

variable {nodes nodes' : Array ForestNode} {i j : Nat}

lemma ParentOf.lt_size (h : ParentOf nodes i j) : i < nodes.size := by
  by_contra hlt
  simp [ParentOf, childrenAt, hlt] at h

lemma childrenAt_subset_withChildren {f : List Nat → List Nat} (hf : ∀ l, l ⊆ f l) (i j : Nat) :
    childrenAt nodes j ⊆ childrenAt (nodes.modify i (ForestBuilder.withChildren f)) j := by
  unfold childrenAt
  rw [Array.getElem?_modify]
  split
  · cases nodes[j]? with
    | none => exact List.Subset.refl _
    | some m =>
      cases m with
      | nonterminal => exact hf _
      | alternative => exact hf _
      | token => exact List.Subset.refl _
      | epsilon => exact List.Subset.refl _
  · exact List.Subset.refl _

/-- A leaf that is no new node was one before. -/
lemma TokensOnce.of_evolves (h : TokensOnce nodes) (hsize : nodes'.size = nodes.size)
    (hev : Evolves nodes nodes') : TokensOnce nodes' := by
  have hleaf : ∀ {i index}, kindAt nodes' i = some (.leaf (.token index)) →
      kindAt nodes i = some (.leaf (.token index)) := by
    intro i index hi
    have hlt : i < nodes.size := hsize ▸ lt_size_of_kindAt hi
    have hk : kindAt nodes i = some nodes[i].kind := by
      rw [kindAt, Array.getElem?_eq_getElem hlt, Option.map_some]
    obtain ⟨k', hk', hpiece, -⟩ := hev i _ hk
    obtain rfl := Option.some.inj (hi.symm.trans hk')
    rw [hk]
    generalize nodes[i].kind = k at hpiece
    cases k with
    | leaf s => rw [Option.some.inj hpiece]
    | _ => cases hpiece
  exact fun i j index hi hj => h i j index (hleaf hi) (hleaf hj)

/-- A leaf may be pushed for a token that has none. -/
lemma TokensOnce.push (h : TokensOnce nodes) {k : Kind}
    (hk : kindAt nodes' = Function.update (kindAt nodes) nodes.size (some k))
    (hnew : ∀ index, k = .leaf (.token index) → ∀ i, kindAt nodes i ≠ some (.leaf (.token index))) :
    TokensOnce nodes' := by
  intro i j index hi hj
  rw [hk, update_eq_some_iff kindAt_size] at hi hj
  rcases hi with hi | ⟨rfl, rfl⟩
  · rcases hj with hj | ⟨-, rfl⟩
    · exact h i j index hi hj
    · exact absurd hi (hnew index rfl i)
  · rcases hj with hj | ⟨rfl, -⟩
    · exact absurd hj (hnew index rfl j)
    · rfl

namespace ForestBuilder

/-- The builder has more nodes and no fewer paths, and what is new is reached from what is old. -/
structure Grows (b b' : ForestBuilder) : Prop where
  size_le : b.nodes.size ≤ b'.nodes.size
  evolves : Evolves b.nodes b'.nodes
  paths : ∀ i j, ParentOf b.nodes i j → TransGen (ParentOf b'.nodes) i j
  reached : ∀ j, b.nodes.size ≤ j → j < b'.nodes.size →
    ∃ i < b.nodes.size, TransGen (ParentOf b'.nodes) i j
  tokens : TokensOnce b.nodes → TokensOnce b'.nodes

variable {P : Parsing} {b b' b'' : ForestBuilder} {ev : WalkEvent} {x : Phrase} {p y : Nat}
  {ids : List Nat}

/-- A new alternative is a child of its node. -/
lemma Adds.parentOf (h : Adds b b' p ids y x) : ParentOf b'.nodes y b.nodes.size := by
  rw [ParentOf, h.children, Function.update_self]
  simp

namespace Grows

lemma transGen (h : Grows b b') (hp : TransGen (ParentOf b.nodes) i j) :
    TransGen (ParentOf b'.nodes) i j := by
  induction hp with
  | single hc => exact h.paths _ _ hc
  | tail _ hc ih => exact ih.trans (h.paths _ _ hc)

lemma reflTransGen (h : Grows b b') (hp : ReflTransGen (ParentOf b.nodes) i j) :
    ReflTransGen (ParentOf b'.nodes) i j := by
  rcases reflTransGen_iff_eq_or_transGen.1 hp with rfl | hp
  · exact .refl
  · exact (h.transGen hp).to_reflTransGen

lemma trans (h : Grows b b') (h' : Grows b' b'') : Grows b b'' where
  size_le := Nat.le_trans h.size_le h'.size_le
  paths i j hc := h'.transGen (h.paths i j hc)
  tokens ht := h'.tokens (h.tokens ht)
  evolves := h.evolves.trans h'.evolves
  reached j hj hlt := by
    -- What is new for the second builder hangs below something that is old or new for the first.
    by_cases hj' : j < b'.nodes.size
    · obtain ⟨i, hi, hp⟩ := h.reached j hj hj'
      exact ⟨i, hi, h'.transGen hp⟩
    · obtain ⟨l, hl, hp⟩ := h'.reached j (Nat.le_of_not_lt hj') hlt
      by_cases hold : l < b.nodes.size
      · exact ⟨l, hold, hp⟩
      · obtain ⟨i, hi, hp'⟩ := h.reached l (Nat.le_of_not_lt hold) hl
        exact ⟨i, hi, (h'.transGen hp').trans hp⟩

/-- No node is added and no child taken away. -/
lemma of_subset (hsize : b'.nodes.size = b.nodes.size) (hev : Evolves b.nodes b'.nodes)
    (hc : ∀ i, childrenAt b.nodes i ⊆ childrenAt b'.nodes i) : Grows b b' where
  size_le := Nat.le_of_eq hsize.symm
  evolves := hev
  paths i j h := .single (hc i h)
  reached j hj hlt := by omega
  tokens h := h.of_evolves hsize hev

lemma of_eq (hn : b'.nodes = b.nodes) : Grows b b' := by
  refine of_subset (by rw [hn]) (.of_kindAt_eq (by rw [hn])) fun i => ?_
  rw [hn]
  exact List.Subset.refl _

lemma refl (b : ForestBuilder) : Grows b b :=
  of_eq rfl

lemma withChildren (id : Nat) {f : List Nat → List Nat} (hf : ∀ l, l ⊆ f l) :
    Grows b (b.modify id (ForestBuilder.withChildren f)) :=
  of_subset (by simp [ForestBuilder.modify]) (.of_kindAt_eq (kindAt_withChildren f)) fun i =>
    childrenAt_subset_withChildren hf id i

lemma markAmbiguous (id : Nat) : Grows b (b.modify id ForestBuilder.markAmbiguous) := by
  refine of_subset (by simp [ForestBuilder.modify]) (.markAmbiguous id) fun i => ?_
  rw [ForestBuilder.modify, childrenAt_markAmbiguous]
  exact List.Subset.refl _

/-- A new node is made a child of one that can have children. -/
lemma adopt {m : ForestNode} {parent : Nat} {k : Kind} {g : List Nat → List Nat}
    (hparent : kindAt b.nodes parent = some k) (hk : ∀ s, k ≠ .leaf s) (hg : ∀ l, l ⊆ g l)
    (hmem : ∀ l, b.nodes.size ∈ g l)
    (hnew : ∀ index, m.kind = .leaf (.token index) →
      ∀ i, kindAt b.nodes i ≠ some (.leaf (.token index)))
    (hn : b'.nodes = (b.nodes.push m).modify parent (ForestBuilder.withChildren g)) :
    Grows b b' := by
  have hlt := lt_size_of_kindAt hparent
  have hparent' : kindAt (b.nodes.push m) parent = some k := by
    rw [kindAt_push, Function.update_of_ne (Nat.ne_of_lt hlt), hparent]
  have hchild : ParentOf b'.nodes parent b.nodes.size := by
    rw [ParentOf, hn, childrenAt_withChildren hparent' hk, Function.update_self]
    exact hmem _
  have hkind : kindAt b'.nodes = Function.update (kindAt b.nodes) b.nodes.size (some m.kind) := by
    rw [hn, kindAt_withChildren, kindAt_push]
  have hev : Evolves b.nodes b'.nodes := by
    rw [hn]
    exact .trans (.push m) (.of_kindAt_eq (kindAt_withChildren g))
  refine ⟨by simp [hn], hev, fun i j hc => .single ?_, fun j hj hj' => ?_,
    fun h => h.push hkind hnew⟩
  · rw [ParentOf, hn]
    refine childrenAt_subset_withChildren hg parent i ?_
    rw [childrenAt_push, Function.update_of_ne (Nat.ne_of_lt hc.lt_size)]
    exact hc
  · obtain rfl : j = b.nodes.size := by
      simp only [hn, Array.size_modify, Array.size_push] at hj'
      omega
    exact ⟨parent, hlt, .single hchild⟩

/-! ### Attaching -/

/-- A node that is there is put in front of the others. -/
lemma attach (child : Nat) : Grows b (b.attach child) := by
  unfold ForestBuilder.attach
  split
  · exact of_eq rfl
  · exact withChildren _ fun l => List.subset_cons_self _ l

/-- A new node is put in front of the others. -/
lemma attach_addNode {m : ForestNode} (hin : b.Inner)
    (hnew : ∀ index, m.kind = .leaf (.token index) →
      ∀ i, kindAt b.nodes i ≠ some (.leaf (.token index))) :
    Grows b ((b.addNode m).1.attach (b.addNode m).2) := by
  obtain ⟨i, rest, k, hpath, hi, hk⟩ := hin
  refine adopt hi hk (fun l => List.subset_cons_self b.nodes.size l) (fun l => List.mem_cons_self)
    hnew ?_
  simp only [ForestBuilder.addNode, ForestBuilder.attach, hpath, ForestBuilder.modify]

lemma attaches (hin : b.Inner) (h : Attaches P b b') : Grows b b' := by
  cases h with
  | known child => exact attach child
  | new hm =>
    refine attach_addNode hin fun index hk i hi => ?_
    cases hm with
    | token _ hno =>
      -- The leaf would have been found.
      cases hk
      obtain ⟨m, hm, hkind⟩ := Option.map_eq_some_iff.1 hi
      obtain ⟨u, rfl⟩ := exists_token_of_kind hkind
      have hfound := Array.findIdx?_eq_none_iff.1 hno _ (Array.mem_of_getElem? hm)
      simp [isTokenAt] at hfound
    | _ => cases hk

/-! ### Alternatives -/

lemma adds (h : Adds b b' p ids y x) : Grows b b' := by
  have hlt := h.lt_size
  have hev : Evolves b.nodes b'.nodes := by
    intro i k hk
    refine ⟨k, ?_, rfl, fun _ hx => hx⟩
    rw [h.kinds, Function.update_of_ne (Nat.ne_of_lt (lt_size_of_kindAt hk)), hk]
  refine ⟨by rw [h.size]; omega, hev, fun i j hc => .single ?_,
    fun j hj hj' => ⟨y, hlt, .single ?_⟩, fun ht => ht.push h.kinds nofun⟩
  · rw [ParentOf, h.children]
    by_cases hi : i = y
    · subst hi
      rw [Function.update_self]
      exact List.mem_append_left _ hc
    · rw [Function.update_of_ne hi, Function.update_of_ne (Nat.ne_of_lt hc.lt_size)]
      exact hc
  · rw [h.size] at hj'
    obtain rfl : j = b.nodes.size := by omega
    exact h.parentOf

/-- The children of a node are moved to an alternative, and so below it. -/
lemma split (h : b.split p = .ok b') : Grows b b' := by
  rcases split_cases h with rfl | ⟨y, x, b₁, -, -, hsize, hev, hchildren, hadds⟩
  · exact refl b'
  · have hgrows := adds hadds
    refine ⟨hsize ▸ hgrows.size_le, hev.trans hgrows.evolves, fun i j hc => ?_,
      hsize ▸ hgrows.reached, fun ht => hgrows.tokens (ht.of_evolves hsize hev)⟩
    by_cases hi : i = y
    · subst hi
      refine .tail (.single hadds.parentOf) ?_
      rw [ParentOf, hadds.children, Function.update_of_ne (Nat.ne_of_gt hadds.lt_size),
        Function.update_self]
      exact hc
    · refine hgrows.paths i j ?_
      rw [ParentOf, hchildren, Function.update_of_ne hi]
      exact hc

/-! ### Reports -/

lemma edit (h : Edit P Inner b b') : Grows b b' := by
  cases h with
  | go hn => exact of_eq hn
  | attach hin h => exact attaches hin h
  | mark id => exact markAmbiguous id
  | alternative h =>
    obtain ⟨y, x, hadds⟩ := exists_adds h
    exact adds hadds
  | split h => exact split h

theorem of_edits (h : ReflTransGen (Edit P Inner) b b') : Grows b b' := by
  induction h with
  | refl => exact refl b
  | tail _ he ih => exact ih.trans (edit he)

/-- A builder that stands in a node grows with each report. -/
theorem handle (h : b.handle P ev = .ok b') (hin : ev.kind ≠ .backtrack → b.Inner) : Grows b b' :=
  of_edits (handle_edits inner_of_beginAlternative hin h)

end Grows

end ForestBuilder

/-! ### Whole walks -/

open ForestBuilder

variable {P : Parsing} {w w' : Walk} {ev : WalkEvent} {b b' : ForestBuilder}
  {acc : Phrase → Reading → Nat} {F : Forest} {th : Nat → Thread}

lemma Inside.inner {vis act : List Nat} {p fl o : Nat} {x : Phrase} {tail : List Piece}
    {cs : List CallSite} (h : Inside P b.nodes th vis b.path i x p tail fl o cs act) : b.Inner := by
  obtain ⟨rest, y, hst, -⟩ := h.stands
  obtain ⟨l, hl⟩ := hst.path_eq
  obtain ⟨k, hk, hcont⟩ := Option.bind_eq_some_iff.1 hst.container
  refine ⟨i, l, k, hl, hk, ?_⟩
  rintro s rfl
  cases hcont

/-- While the walk is at an entry the builder stands in a node. -/
lemma Accounts.inner (h : Accounts P w b acc) (hcur : w.cursor ≠ none) : b.Inner := by
  obtain ⟨th, fresh, saved, act, ⟨hphase, -, -, -, -⟩, -⟩ := h
  generalize hpath : b.path = path at hphase
  cases hphase with
  | idle => exact absurd rfl hcur
  | begun hx hp hy => exact ⟨_, _, _, hpath, hy, nofun⟩
  | inside hx hp hth hin => exact (hpath ▸ hin).inner
  | calling hx hfl hs hth hin => exact (hpath ▸ hin).inner
  | leaving hx hth hin => exact (hpath ▸ hin).inner

lemma Walk.Moves.cursor_ne_none {G : Grammar} {c : Chart} (hm : Walk.Moves G c w ev w')
    (hk : ev.kind ≠ .backtrack) : w.cursor ≠ none := by
  cases hm with
  | backtrack => exact absurd rfl hk
  | _ => nofun

/-- A report of the walk lets a builder grow that was told those before. -/
lemma Accounts.grows (h : Accounts P w b acc) (hm : Walk.Moves P.grammar P.chart w ev w')
    (hh : b.handle P ev = .ok b') : b.Grows b' :=
  .handle hh fun hk => h.inner (hm.cursor_ne_none hk)

/-- What each report keeps is kept by all, for a builder that was told the reports before. -/
theorem Accounts.induction {Q : Walk → ForestBuilder → Prop} (hP : P.Complete)
    (hstep : ∀ w w' ev b b' acc acc', Accounts P w b acc → Accounts P w' b' acc' →
      Walk.Fits P.grammar P.chart w → Walk.Moves P.grammar P.chart w ev w' →
      b.handle P ev = .ok b' → Q w b → Q w' b')
    (h : Accounts P w b acc) (hw : Walk.Fits P.grammar P.chart w)
    (hv : Exact P b.nodes acc ∨ Lossy P b.nodes acc)
    (hf : Walk.Feeds P.grammar P.chart (handle P) w b w' b') (hq : Q w b) : Q w' b' := by
  induction hf generalizing acc with
  | refl => exact hq
  | step hm hh _ ih =>
    obtain ⟨b₁, acc₁, hh₁, hacc₁, hv₁⟩ := h.judged hP hw hm hv
    obtain rfl := Except.ok.inj (hh.symm.trans hh₁)
    exact ih hacc₁ (hm.fits hP hw) (hv₁.imp And.left And.left)
      (hstep _ _ _ _ _ _ _ h hacc₁ hw hm hh hq)

/-- A builder that has been told that the walk goes into the phrase of the whole input. -/
structure Parsing.Begins (P : Parsing) (w : Walk) (b : ForestBuilder) : Prop where
  moves : Walk.Moves P.grammar P.chart ⟨some P.accepting, P.tokens.length, [], [], [], 0⟩
    ⟨.visit, P.accepting, P.tokens.length⟩ w
  handles : ForestBuilder.empty.handle P ⟨.visit, P.accepting, P.tokens.length⟩ = .ok b
  exact : ∃ acc, Accounts P w b acc ∧ Exact P b.nodes acc
  root : b.root = some 0
  size : b.nodes.size = 1
  piece : b.nodes[0]?.bind ForestNode.piece? =
    some (.phrase ⟨P.grammar.start, 0, P.tokens.length⟩)

lemma Parsing.Complete.exists_begins (hP : P.Complete) : ∃ w b, P.Begins w b := by
  obtain ⟨a, ha⟩ := hP.exists_antecedent_finish hP.accepting
  obtain ⟨a, untried, ha⟩ := List.exists_cons_of_ne_nil (List.ne_nil_of_mem ha)
  obtain ⟨b, acc, hh, hacc, he⟩ := exact_finish hP hP.accepting ha
  have hnot : ¬ Known ForestBuilder.empty.nodes ⟨P.grammar.start, 0, P.tokens.length⟩ := by
    simp [Known, ForestBuilder.empty, kindAt]
  have heq := hh
  rw [handle_finish hP.accepting hnot rfl] at heq
  refine ⟨_, b, .finish hP.accepting List.not_mem_nil ha, hh, ⟨acc, hacc, he⟩, ?_, ?_, ?_⟩ <;>
    rw [← Except.ok.inj heq] <;> split <;> rfl

/-- A builder that was told all reports was told the first of them first. -/
lemma Parsing.Builds.exists_begins (hP : P.Complete) (h : P.Builds F w b th) :
    ∃ w₁ b₁, P.Begins w₁ b₁ ∧ Walk.Feeds P.grammar P.chart (handle P) w₁ b₁ w b := by
  obtain ⟨w₁, b₁, hb⟩ := hP.exists_begins
  have hfeeds := h.feeds
  cases hfeeds with
  | refl => cases h.root
  | step hm hh hrest =>
    have hnext := (hm.next_eq hP.filled.indexed).symm.trans (hb.moves.next_eq hP.filled.indexed)
    cases hnext
    obtain rfl := Except.ok.inj (hh.symm.trans hb.handles)
    exact ⟨_, _, hb, hrest⟩

/-- What holds after the first report and is kept by each is kept by all. -/
theorem Parsing.Builds.induction {Q : Walk → ForestBuilder → Prop} (hP : P.Complete)
    (h : P.Builds F w b th) (hfirst : ∀ {w₁ b₁}, P.Begins w₁ b₁ → Q w₁ b₁)
    (hstep : ∀ w w' ev b b' acc acc', Accounts P w b acc → Accounts P w' b' acc' →
      Walk.Fits P.grammar P.chart w → Walk.Moves P.grammar P.chart w ev w' →
      b.handle P ev = .ok b' → Q w b → Q w' b') : Q w b := by
  obtain ⟨w₁, b₁, hb, hrest⟩ := h.exists_begins hP
  obtain ⟨acc, hacc, he⟩ := hb.exact
  have hfits := hb.moves.fits hP (Walk.startAt_fits (G := P.grammar) hP.accepting).2
  exact hacc.induction hP hstep hfits (Or.inl he) hrest (hfirst hb)

/-- The root is the first node, which is that of the whole input. -/
lemma Parsing.Builds.root_eq_zero (hP : P.Complete) (h : P.Builds F w b th) :
    F.root = 0 ∧ F.nodes[0]?.bind ForestNode.piece? =
      some (.phrase ⟨P.grammar.start, 0, P.tokens.length⟩) := by
  obtain ⟨w₁, b₁, hb, hrest⟩ := h.exists_begins hP
  have hkeeps : b₁.Keeps P b := .of_feeds hrest
  refine ⟨Option.some.inj (h.root.symm.trans (hkeeps.root 0 hb.root)), ?_⟩
  rw [← h.nodes]
  exact hkeeps.pieces 0 _ hb.piece

/-- All nodes of a finished forest are reached from the root, and no token has two leaves. -/
lemma Parsing.Builds.connected (hP : P.Complete) (h : P.Builds F w b th) :
    (∀ i < F.nodes.size, ReflTransGen (ParentOf F.nodes) F.root i) ∧ TokensOnce F.nodes := by
  let Q (_ : Walk) (b : ForestBuilder) : Prop :=
    (∀ i < b.nodes.size, ReflTransGen (ParentOf b.nodes) 0 i) ∧ TokensOnce b.nodes
  have hQ : Q w b := by
    refine h.induction hP (fun hb => ?_) fun _ _ _ b _ _ _ hacc _ _ hm hh hq => ?_
    · refine ⟨fun i hi => ?_, fun i j index hi hj => ?_⟩
      · rw [hb.size] at hi
        obtain rfl := Nat.lt_one_iff.1 hi
        exact .refl
      · have hi := lt_size_of_kindAt hi
        have hj := lt_size_of_kindAt hj
        rw [hb.size] at hi hj
        omega
    · have hgrows := hacc.grows hm hh
      refine ⟨fun i hi => ?_, hgrows.tokens hq.2⟩
      by_cases hold : i < b.nodes.size
      · exact hgrows.reflTransGen (hq.1 i hold)
      · obtain ⟨j, hj, hp⟩ := hgrows.reached i (Nat.le_of_not_lt hold) hi
        exact (hgrows.reflTransGen (hq.1 j hj)).trans hp.to_reflTransGen
  rw [(h.root_eq_zero hP).1, ← h.nodes]
  exact hQ

end ParseForest
