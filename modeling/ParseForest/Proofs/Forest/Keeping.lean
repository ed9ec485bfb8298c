import ParseForest.Proofs.Forest.Edits
import ParseForest.Proofs.Forest.Readings
import ParseForest.Proofs.Walk.Potential

/-!
# What builders of forests keep

Whatever a builder is told, its nodes keep standing for the same pieces, the root stays the root,
and no leaf is made of anything but a token of the input.
-/

namespace ParseForest

namespace ForestBuilder

/-- The builder has the same root, and nodes for the same pieces, and tokens of the input
besides. -/
structure Keeps (P : Parsing) (b b' : ForestBuilder) : Prop where
  root : ∀ i, b.root = some i → b'.root = some i
  pieces : ∀ (i : Nat) s, b.nodes[i]?.bind ForestNode.piece? = some s →
    b'.nodes[i]?.bind ForestNode.piece? = some s
  leaves : ∀ (i index : Nat) t, b'.nodes[i]? = some (.token index t) →
    b.nodes[i]? = some (.token index t) ∨ P.tokens[index]? = some t

variable {P : Parsing} {b b' b'' : ForestBuilder} {ev : WalkEvent}

namespace Keeps

lemma of_eq (hn : b'.nodes = b.nodes) (hr : b'.root = b.root) : Keeps P b b' where
  root i hi := by rw [hr, hi]
  pieces i s hs := by rw [hn, hs]
  leaves i index t ht := Or.inl (by rw [← hn, ht])

lemma trans (h : Keeps P b b') (h' : Keeps P b' b'') : Keeps P b b'' where
  root i hi := h'.root i (h.root i hi)
  pieces i s hs := h'.pieces i s (h.pieces i s hs)
  leaves i index t ht := (h'.leaves i index t ht).elim (h.leaves i index t) Or.inr

/-! ### Nodes -/

lemma addNode {m : ForestNode} (hm : ∀ index t, m = .token index t → P.tokens[index]? = some t) :
    Keeps P b (b.addNode m).1 where
  root i hi := hi
  pieces i s hs := by
    have hlt : i < b.nodes.size := by
      obtain ⟨m', hm', -⟩ := Option.bind_eq_some_iff.1 hs
      exact (Array.getElem?_eq_some_iff.1 hm').1
    rw [ForestBuilder.addNode, Array.getElem?_push, if_neg (Nat.ne_of_lt hlt), hs]
  leaves i index t ht := by
    rw [ForestBuilder.addNode, Array.getElem?_push] at ht
    split at ht
    · exact Or.inr (hm index t (Option.some.inj ht))
    · exact Or.inl ht

/-- A change that makes no leaf of a node and keeps what it stands for. -/
lemma modify {id : Nat} {f : ForestNode → ForestNode} (hf : ∀ m, (f m).piece? = m.piece?)
    (hleaf : ∀ m index t, f m = .token index t → m = .token index t) :
    Keeps P b (b.modify id f) where
  root i hi := hi
  pieces i s hs := by
    rw [ForestBuilder.modify, Array.getElem?_modify]
    split
    · obtain ⟨m, hm, hs⟩ := Option.bind_eq_some_iff.1 hs
      rw [hm, Option.map_some, Option.bind_some, hf, hs]
    · exact hs
  leaves i index t ht := by
    rw [ForestBuilder.modify, Array.getElem?_modify] at ht
    split at ht
    · obtain ⟨m, hm, ht⟩ := Option.map_eq_some_iff.1 ht
      exact Or.inl (hleaf m index t ht ▸ hm)
    · exact Or.inl ht

lemma withChildren (id : Nat) (f : List Nat → List Nat) :
    Keeps P b (b.modify id (ForestBuilder.withChildren f)) := by
  refine modify (fun m => ?_) fun m index t ht => ?_
  · cases m <;> rfl
  · cases m with
    | token => exact ht
    | _ => cases ht

lemma markAmbiguous (id : Nat) : Keeps P b (b.modify id ForestBuilder.markAmbiguous) := by
  refine modify (fun m => ?_) fun m index t ht => ?_
  · cases m <;> rfl
  · cases m with
    | nonterminal => cases ht
    | _ => exact ht

lemma attach (child : Nat) : Keeps P b (b.attach child) := by
  unfold ForestBuilder.attach
  split
  · refine ⟨fun i hi => ?_, fun _ _ hs => hs, fun _ _ _ ht => Or.inl ht⟩
    rw [hi]
    rfl
  · exact withChildren _ _

lemma attaches (h : Attaches P b b') : Keeps P b b' := by
  cases h with
  | known child => exact attach child
  | new hm =>
    refine (addNode fun index t heq => ?_).trans (attach _)
    subst heq
    cases hm with
    | token ht => exact ht

/-! ### Alternatives -/

lemma beginAlternative {p : Nat} {children : List Nat}
    (h : b.beginAlternative p children = .ok b') : Keeps P b b' := by
  unfold ForestBuilder.beginAlternative at h
  split at h
  · cases h
  · split at h
    · cases h
      refine (addNode fun index t ht => ?_).trans (trans (withChildren _ _) (of_eq rfl rfl))
      cases ht
    · cases h

lemma split {p : Nat} (h : b.split p = .ok b') : Keeps P b b' := by
  unfold ForestBuilder.split at h
  split at h
  · cases h
  · split at h
    · cases h
      exact of_eq rfl rfl
    · refine trans (modify (fun m => ?_) fun m index t ht => ?_) (beginAlternative h)
      · cases m <;> rfl
      · cases m with
        | token => exact ht
        | _ => cases ht
    · cases h

/-! ### Reports -/

variable {inside : ForestBuilder → Prop}

lemma edit (h : Edit P inside b b') : Keeps P b b' := by
  cases h with
  | go hn hr => exact of_eq hn hr
  | attach _ h => exact attaches h
  | mark id => exact markAmbiguous id
  | alternative h => exact beginAlternative h
  | split h => exact split h

lemma of_edits (h : Relation.ReflTransGen (Edit P inside) b b') : Keeps P b b' := by
  induction h with
  | refl => exact of_eq rfl rfl
  | tail _ he ih => exact ih.trans (edit he)

/-- Whatever a builder is told, it keeps. -/
theorem handle (h : b.handle P ev = .ok b') : Keeps P b b' :=
  of_edits (handle_edits (fun _ => trivial) (fun _ => trivial) h)

theorem of_feeds {w w' : Walk}
    (h : Walk.Feeds P.grammar P.chart (ForestBuilder.handle P) w b w' b') : Keeps P b b' := by
  induction h with
  | refl => exact of_eq rfl rfl
  | step _ hh _ ih => exact (handle hh).trans ih

end Keeps

end ForestBuilder

end ParseForest
