import ParseForest.Proofs.Forest.Levels
import ParseForest.Proofs.Forest.Packed

/-!
# When alternatives are made

A builder of forests makes alternatives only where the walk has something to come back to: as long
as nothing is postponed its nodes are `Plain`. And it makes one at once where an item is postponed.
So if a finished forest has no alternatives, the walk was never at an item that it was still to come
back to, `Builds.neverOverwrites`.
-/

namespace ParseForest

/-- Whether a node of the kind is a leaf or has one derivation. -/
def Kind.isPlain : Kind → Bool
  | leaf _ => true
  | plain _ => true
  | ambiguous _ => false
  | alternative _ _ => false

/-- No node is ambiguous or an alternative. -/
def Plain (nodes : Array ForestNode) : Prop :=
  ∀ i k, kindAt nodes i = some k → k.isPlain = true

/-- Some node is an alternative. -/
def HasAlternative (nodes : Array ForestNode) : Prop :=
  ∃ i x p, kindAt nodes i = some (.alternative x p)

variable {P : Parsing} {nodes nodes' : Array ForestNode} {w w' : Walk} {ev : WalkEvent}
  {b b' : ForestBuilder} {e : Entry} {p dot : Nat}

lemma Forest.isAmbiguous_iff {F : Forest} : F.isAmbiguous = true ↔ HasAlternative F.nodes := by
  rw [Forest.isAmbiguous, Array.any_eq_true]
  constructor
  · rintro ⟨i, hi, halt⟩
    have hb : ForestBuilder.isAlternative ⟨F.nodes, [], [], none⟩ i = true := by
      simpa [ForestBuilder.isAlternative, hi] using halt
    obtain ⟨x, p, h⟩ := ForestBuilder.isAlternative_iff.1 hb
    exact ⟨i, x, p, h⟩
  · rintro ⟨i, x, p, h⟩
    refine ⟨i, lt_size_of_kindAt h, ?_⟩
    have hb := ForestBuilder.isAlternative_iff (b := ⟨F.nodes, [], [], none⟩).2 ⟨x, p, h⟩
    simpa [ForestBuilder.isAlternative, lt_size_of_kindAt h] using hb

lemma Forest.isAmbiguous_eq_false_iff {F : Forest} :
    F.isAmbiguous = false ↔ ¬ HasAlternative F.nodes := by
  rw [← Bool.not_eq_true, Forest.isAmbiguous_iff]

lemma HasAlternative.evolves (h : HasAlternative nodes) (hev : Evolves nodes nodes') :
    HasAlternative nodes' := by
  obtain ⟨i, x, p, hi⟩ := h
  obtain ⟨x', p', hi'⟩ := hev.alternative hi
  exact ⟨i, x', p', hi'⟩

/-! ### Nothing to come back to -/

/-- If nothing was postponed before, an entry is not postponed exactly if it does not branch. -/
lemma Walk.defer_eq_nil_iff {c : Chart} {id k a : Nat} {cs : List CallSite}
    {site : Option CallSite} {untried : List Nat} (ha : c.antecedents id = a :: untried) :
    Walk.defer ⟨id, k, cs, site, untried⟩ [] = [] ↔ c.branches id = false := by
  rw [Chart.branches_eq_false_iff ha, Walk.defer]
  split <;> simp_all

namespace Plain

lemma not_hasAlternative (h : Plain nodes) : ¬ HasAlternative nodes := by
  rintro ⟨i, x, p, hi⟩
  cases h i _ hi

lemma push (h : Plain nodes) {m : ForestNode} (hm : m.kind.isPlain = true) :
    Plain (nodes.push m) := by
  intro i k hk
  rw [kindAt_push, update_eq_some_iff kindAt_size] at hk
  rcases hk with hk | ⟨-, rfl⟩
  · exact h i k hk
  · exact hm

lemma attach (h : Plain b.nodes) (child : Nat) : Plain (b.attach child).nodes := by
  unfold ForestBuilder.attach
  split
  · exact h
  · intro i k hk
    rw [ForestBuilder.modify, kindAt_withChildren] at hk
    exact h i k hk

lemma attaches (h : Plain b.nodes) (ha : ForestBuilder.Attaches P b b') : Plain b'.nodes := by
  cases ha with
  | known child => exact h.attach child
  | new hm =>
    refine attach (h.push ?_) _
    cases hm <;> rfl

lemma passSymbol (h : Plain b.nodes) (he : e.isBranching = false)
    (hh : b.passSymbol P p dot e ev = .ok b') : Plain b'.nodes := by
  rcases ForestBuilder.passSymbol_cases hh with hattach | ⟨hbr, -⟩ | rfl
  · exact h.attaches hattach
  · rw [he] at hbr
    cases hbr
  · exact h

lemma topIsAmbiguous (h : Plain b.nodes) : b.topIsAmbiguous = false := by
  rw [Bool.eq_false_iff]
  intro htop
  obtain ⟨i, -, hi⟩ := (Option.any_eq_true _ _).1 htop
  obtain ⟨m, hm, hamb⟩ := (Option.any_eq_true _ _).1 hi
  have hplain := h i _ (kindAt_eq hm)
  cases m with
  | nonterminal n lo hi ambiguous ids =>
    obtain rfl : ambiguous = true := hamb
    cases hplain
  | _ => cases hamb

lemma passItem (h : Plain b.nodes) (he : e.isBranching = false)
    (hh : b.passItem P p dot e ev = .ok b') : Plain b'.nodes := by
  rw [ForestBuilder.passItem, h.topIsAmbiguous, Bool.and_false] at hh
  exact h.passSymbol he hh

lemma close (h : Plain b.nodes) (hh : b.close = .ok b') : Plain b'.nodes := by
  unfold ForestBuilder.close at hh
  split at hh
  · cases hh
  · cases hh
    exact h

/-- A report after which the walk has nothing to come back to. -/
theorem handle (hP : P.Complete) (h : Plain b.nodes) (hm : Walk.Moves P.grammar P.chart w ev w')
    (hbs : w.branches = []) (hbs' : w'.branches = []) (hh : b.handle P ev = .ok b') :
    Plain b'.nodes := by
  have item : ∀ {id o k p dot}, P.chart.place? id = some ⟨.item p dot, o, k⟩ →
      P.chart.branches id = false → b.handle P ⟨.visit, id, k⟩ = .ok b' → Plain b'.nodes := by
    intro id o k p dot hx hbr hh
    obtain ⟨e, he, heq⟩ := ForestBuilder.handle_item (b := b) hx
    rw [heq] at hh
    exact h.passItem (he.trans hbr) hh
  cases hm with
  | @finish id k o a fl n vis untried cs bs hx hid ha =>
    obtain ⟨e, he, hp⟩ := Chart.place?_eq_some.1 hx
    simp only [Entry.place, Place.mk.injEq] at hp
    simp only [ForestBuilder.handle, he, hp.1, Except.ok.injEq] at hh
    dsimp only at hbs hbs'
    rw [hbs, Walk.defer_eq_nil_iff ha, Chart.branches_eq_isBranching he] at hbs'
    have hplain := h.attaches (P := P) (b.attaches_nonterminal n e.origin k)
    rw [← hh, ForestBuilder.enter, if_neg (by simp [hbs'])]
    exact hplain
  | finishAgain hx =>
    rw [ForestBuilder.handle_finishAgain hx] at hh
    cases hh
    exact h.attaches (P := P) (b.attaches_nonterminal _ _ _)
  | start hx =>
    rw [ForestBuilder.handle_start (by simp) hx] at hh
    exact h.close hh
  | startAgain hx =>
    rw [ForestBuilder.handle_start (by simp) hx] at hh
    exact h.close hh
  | enter hx => exact item hx (hP.branches_enter hx) hh
  | scan hx hs => exact item hx (hP.branches_scan hx hs) hh
  | resume hx hs ha =>
    dsimp only at hbs hbs'
    rw [hbs] at hbs'
    exact item hx ((Walk.defer_eq_nil_iff ha).1 hbs') hh
  | backtrack => cases hbs'

end Plain

/-! ### An item to come back to -/

namespace ForestBuilder

lemma hasAlternative_of_beginAlternative {ids : List Nat} (h : b.beginAlternative p ids = .ok b') :
    HasAlternative b'.nodes := by
  obtain ⟨y, x, hadds⟩ := exists_adds h
  exact ⟨b.nodes.size, x, p, by rw [hadds.kinds, Function.update_self]⟩

lemma hasAlternative_of_split (h : b.split p = .ok b') : HasAlternative b'.nodes := by
  unfold split at h
  split at h
  · cases h
  next y rest hpath =>
  split at h
  · next n q lo hi ids hnode =>
    cases h
    exact ⟨y, ⟨n, lo, hi⟩, q, kindAt_eq hnode⟩
  · exact hasAlternative_of_beginAlternative h
  · cases h

/-- Where an item behind a nonterminal is postponed the builder is inside of an alternative. -/
lemma hasAlternative_of_passItem {n : NonTerminal}
    (hs : P.grammar.prev? (.item p dot) = some (.nonterminal n)) (he : e.isBranching = true)
    (hh : b.passItem P p dot e ev = .ok b') : HasAlternative b'.nodes := by
  have symbol : ∀ {b : ForestBuilder}, b.passSymbol P p dot e ev = .ok b' →
      HasAlternative b'.nodes := by
    intro b hh
    simp only [passSymbol, hs, he, if_true] at hh
    obtain ⟨b₁, hsplit, rfl⟩ := exists_of_map_eq_ok hh
    have halt : HasAlternative b₁.nodes := hasAlternative_of_split hsplit
    exact halt
  unfold passItem at hh
  split at hh
  · split at hh
    · exact symbol hh
    · cases hh
  · exact symbol hh

end ForestBuilder

/-! ### Whole walks -/

/-- There is an alternative, or the walk comes back to phrases only, and was never at an item that
it was still to come back to. -/
def Splits (P : Parsing) (w : Walk) (b : ForestBuilder) : Prop :=
  HasAlternative b.nodes ∨ (∀ d ∈ w.branches, d.site = none) ∧
    (w.NeverOverwrites P.grammar P.chart → P.NeverOverwrites)

lemma Walk.Fits.not_overwrites {G : Grammar} {c : Chart} (hw : Walk.Fits G c w)
    (h : ∀ d ∈ w.branches, d.site = none) : ¬ w.Overwrites c := by
  rintro ⟨id, p, dot, o, k, -, hx, d, hd, rfl, -⟩
  have hfit := hw.branches d hd
  have hsite := h d hd
  cases hfit with
  | finish hx' => cases hx.symm.trans hx'
  | resume => cases hsite

lemma Splits.move (h : Splits P w b) (hP : P.Complete) (hw : Walk.Fits P.grammar P.chart w)
    (hm : Walk.Moves P.grammar P.chart w ev w') (hh : b.handle P ev = .ok b')
    (hev : Evolves b.nodes b'.nodes) : Splits P w' b' := by
  rcases h with halt | ⟨hsites, hnever⟩
  · exact Or.inl (halt.evolves hev)
  have hnever' : w'.NeverOverwrites P.grammar P.chart → P.NeverOverwrites := fun hn => hnever
    ((Walk.neverOverwrites_iff (hm.next_eq hP.filled.indexed)).2 ⟨hw.not_overwrites hsites, hn⟩)
  cases hm with
  | finish => exact Or.inr ⟨Walk.forall_mem_defer rfl hsites, hnever'⟩
  | finishAgain _ _ hl => exact Or.inr ⟨hl.branches_eq ▸ hsites, hnever'⟩
  | start _ _ hl => exact Or.inr ⟨hl.branches_eq ▸ hsites, hnever'⟩
  | startAgain _ _ hl => exact Or.inr ⟨hl.branches_eq ▸ hsites, hnever'⟩
  | enter => exact Or.inr ⟨hsites, hnever'⟩
  | scan => exact Or.inr ⟨hsites, hnever'⟩
  | @resume id k o a p dot fl n vis untried cs bs hx hs ha =>
    cases hbr : P.chart.branches id with
    | false =>
      obtain rfl := (Chart.branches_eq_false_iff ha).1 hbr
      exact Or.inr ⟨hsites, hnever'⟩
    | true =>
      obtain ⟨e, he, heq⟩ := ForestBuilder.handle_item (b := b) hx
      rw [heq] at hh
      have hs : P.grammar.prev? (.item p (dot + 1)) = some (.nonterminal n) := hs
      exact Or.inl (ForestBuilder.hasAlternative_of_passItem hs (he.trans hbr) hh)
  | backtrack hdead hb => exact Or.inr ⟨forall_mem_followed hsites id, hnever'⟩

/-- If a finished forest has no alternatives, nothing was overwritten. -/
theorem Parsing.Builds.neverOverwrites {F : Forest} {th : Nat → Thread} (hP : P.Complete)
    (h : P.Builds F w b th) (hno : ¬ HasAlternative F.nodes) : P.NeverOverwrites := by
  obtain ⟨hstart, hfits⟩ := Walk.startAt_fits (G := P.grammar) hP.accepting
  have hfirst : Splits P ⟨some P.accepting, P.tokens.length, [], [], [], 0⟩ .empty :=
    Or.inr ⟨by simp, (P.neverOverwrites_iff hstart).2⟩
  have hsplits : Splits P w b := by
    refine h.induction hP (fun hb => ?_) fun _ _ _ _ _ _ _ hacc _ hw hm hh hq => ?_
    · refine hfirst.move hP hfits hb.moves hb.handles fun i k hk => ?_
      simp [kindAt, ForestBuilder.empty] at hk
    · exact hq.move hP hw hm hh (hacc.grows hm hh).evolves
  rcases hsplits with halt | ⟨-, hnever⟩
  · rw [h.nodes] at halt
    exact absurd halt hno
  · have hend : Walk.next P.grammar P.chart w = .ok none := by
      simp only [Walk.next, h.cursor, Walk.backtrack_eq_none h.branches]
    exact hnever (Walk.neverOverwrites_of_end hend h.cursor)

end ParseForest
