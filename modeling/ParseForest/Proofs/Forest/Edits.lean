import ParseForest.Proofs.Forest.Nodes
import Mathlib.Logic.Relation

/-!
# What builders of forests do

Whatever a builder of forests is told, it edits its graph step by step: it goes elsewhere, attaches
a node that is there or a new one, marks a node as ambiguous, or makes an alternative. What each
edit keeps is kept by each report, `handle_edits`.
-/

namespace ParseForest

open Relation

lemma exists_of_map_eq_ok {ε α β : Type} {x : Except ε α} {f : α → β} {b : β}
    (h : x.map f = .ok b) : ∃ a, x = .ok a ∧ f a = b := by
  cases x with
  | error e => cases h
  | ok a => exact ⟨a, rfl, Except.ok.inj h⟩

namespace ForestBuilder

/-- The innermost node of the path can have children. -/
def Inner (b : ForestBuilder) : Prop :=
  ∃ i rest k, b.path = i :: rest ∧ kindAt b.nodes i = some k ∧ ∀ s, k ≠ .leaf s

variable {P : Parsing} {inside : ForestBuilder → Prop} {b b' : ForestBuilder} {ev : WalkEvent}
  {e : Entry} {p dot y : Nat} {ids : List Nat} {x : Phrase}

/-! ### Adding alternatives -/

/-- A new alternative with the given children has been added to the node `y` of the phrase, which
the path of the builder led to, and the builder has gone into it. -/
structure Adds (b b' : ForestBuilder) (p : Nat) (ids : List Nat) (y : Nat) (x : Phrase) : Prop where
  path : ∃ rest, b.path = y :: rest
  path' : b'.path = b.nodes.size :: b.path
  snapshots : b'.snapshots = b.snapshots
  phrase : (kindAt b.nodes y).bind Kind.phrase? = some x
  size : b'.nodes.size = b.nodes.size + 1
  kinds : kindAt b'.nodes =
    Function.update (kindAt b.nodes) b.nodes.size (some (.alternative x p))
  children : childrenAt b'.nodes =
    Function.update (Function.update (childrenAt b.nodes) b.nodes.size ids) y
      (childrenAt b.nodes y ++ [b.nodes.size])

lemma exists_adds (h : b.beginAlternative p ids = .ok b') : ∃ y x, Adds b b' p ids y x := by
  unfold beginAlternative at h
  split at h
  · cases h
  next y rest hpath =>
  split at h
  · next n lo hi ambiguous ids' hnode =>
    cases h
    have hphrase : (kindAt b.nodes y).bind Kind.phrase? = some ⟨n, lo, hi⟩ := by
      rw [kindAt_eq hnode, Option.bind_some, ForestNode.phrase?_kind]
    obtain ⟨k, hk, hkx⟩ := Option.bind_eq_some_iff.1 hphrase
    have hlt := lt_size_of_kindAt hk
    have hk' : kindAt (b.nodes.push (.alternative n p lo hi ids)) y = some k := by
      rw [kindAt_push, Function.update_of_ne (Nat.ne_of_lt hlt), hk]
    refine ⟨y, ⟨n, lo, hi⟩, ⟨rest, hpath⟩, rfl, rfl, hphrase, by simp [modify, addNode], ?_, ?_⟩
    · simp only [modify, addNode, kindAt_withChildren, kindAt_push, ForestNode.kind]
    · simp only [modify, addNode]
      rw [childrenAt_withChildren hk' (fun s hs => by rw [hs] at hkx; cases hkx), childrenAt_push,
        Function.update_of_ne (Nat.ne_of_lt hlt)]
      rfl
  · cases h

namespace Adds

variable (h : Adds b b' p ids y x)

include h

lemma lt_size : y < b.nodes.size := by
  obtain ⟨k, hk, -⟩ := Option.bind_eq_some_iff.1 h.phrase
  exact lt_size_of_kindAt hk

lemma inner : b'.Inner :=
  ⟨b.nodes.size, b.path, .alternative x p, h.path', by rw [h.kinds, Function.update_self], nofun⟩

end Adds

/-- The builder is inside an alternative after `split`: it was, or the node that it was inside of
has become ambiguous and its children have been moved to an alternative. -/
lemma split_cases (h : b.split p = .ok b') : b' = b ∨ ∃ y x b₁, b₁.path = b.path ∧
    b₁.snapshots = b.snapshots ∧ b₁.nodes.size = b.nodes.size ∧ Evolves b.nodes b₁.nodes ∧
    childrenAt b₁.nodes = Function.update (childrenAt b.nodes) y [] ∧
    Adds b₁ b' p (childrenAt b.nodes y) y x := by
  unfold ForestBuilder.split at h
  split at h
  · cases h
  next y rest hpath =>
  split at h
  · exact Or.inl (Except.ok.inj h).symm
  · next n lo hi ambiguous ids hnode =>
    have hchildren : childrenAt b.nodes y = ids := childrenAt_eq hnode
    have hk := kindAt_eq hnode
    obtain ⟨y', x, hadds⟩ := exists_adds h
    obtain ⟨rest', hpath'⟩ := hadds.path
    obtain rfl : y = y' := (List.cons.inj (hpath.symm.trans hpath')).1
    rw [← hchildren] at hadds
    refine Or.inr ⟨y, x, b.modify y _, rfl, rfl, ?_, ?_, ?_, hadds⟩
    · simp only [ForestBuilder.modify, Array.size_modify]
    · rw [ForestBuilder.modify, ← modify_modify]
      exact .trans (.of_kindAt_eq (kindAt_withChildren _)) (.markAmbiguous y)
    · rw [ForestBuilder.modify, ← modify_modify, childrenAt_markAmbiguous]
      exact childrenAt_withChildren hk (fun s hs => by cases ambiguous <;> cases hs) _
  · cases h

/-- A builder that has begun an alternative is inside of it. -/
lemma inner_of_beginAlternative (h : b.beginAlternative p ids = .ok b') : b'.Inner := by
  obtain ⟨y, x, hadds⟩ := exists_adds h
  exact hadds.inner

/-! ### Attaching -/

/-- A node without children that a builder may add, and a leaf of a token only if there is none. -/
inductive New (P : Parsing) (nodes : Array ForestNode) : ForestNode → Prop where
  | nonterminal (n : NonTerminal) (lo hi : Nat) : New P nodes (.nonterminal n lo hi false [])
  | token {index : Nat} {t : Token} (ht : P.tokens[index]? = some t)
      (hno : nodes.findIdx? (isTokenAt index) = none) : New P nodes (.token index t)
  | epsilon (position : Nat) : New P nodes (.epsilon position)

/-- A node that is there or a new one is put in front of the children of the innermost node. -/
inductive Attaches (P : Parsing) (b : ForestBuilder) : ForestBuilder → Prop where
  | known (child : Nat) : Attaches P b (b.attach child)
  | new {m : ForestNode} (hm : New P b.nodes m) :
      Attaches P b ((b.addNode m).1.attach (b.addNode m).2)

@[simp] lemma attach_path (child : Nat) : (b.attach child).path = b.path := by
  unfold attach
  split <;> rfl

@[simp] lemma attach_snapshots (child : Nat) : (b.attach child).snapshots = b.snapshots := by
  unfold attach
  split <;> rfl

lemma Attaches.path_eq (h : Attaches P b b') : b'.path = b.path := by
  cases h with
  | known child => exact attach_path child
  | new => exact attach_path _

lemma Attaches.snapshots_eq (h : Attaches P b b') : b'.snapshots = b.snapshots := by
  cases h with
  | known child => exact attach_snapshots child
  | new => exact attach_snapshots _

lemma attaches_nonterminal (b : ForestBuilder) (n : NonTerminal) (lo hi : Nat) :
    Attaches P b ((b.nonterminal n lo hi).1.attach (b.nonterminal n lo hi).2) := by
  unfold nonterminal
  split
  · exact .known _
  · exact .new (.nonterminal n lo hi)

lemma attaches_attachToken {column : Nat} (h : b.attachToken P column = .ok b') :
    Attaches P b b' := by
  unfold attachToken at h
  split at h
  · cases h
  · obtain ⟨leaf, hleaf, rfl⟩ := exists_of_map_eq_ok h
    unfold token at hleaf
    split at hleaf
    · cases hleaf
      exact .known _
    · next hno =>
      split at hleaf
      · next t ht =>
        cases hleaf
        exact .new (.token ht hno)
      · cases hleaf

/-- Passing a symbol, the builder attaches a node, or begins an alternative and saves where to go
on, or does nothing. -/
lemma passSymbol_cases (h : b.passSymbol P p dot e ev = .ok b') : Attaches P b b' ∨
    (e.isBranching = true ∧ ∃ b₁, b.split p = .ok b₁ ∧ b₁.save ev.entry b₁.topChildren = b') ∨
    b' = b := by
  unfold passSymbol at h
  split at h
  · exact Or.inl (attaches_attachToken h)
  · split at h
    · next he => exact Or.inr (Or.inl ⟨he, exists_of_map_eq_ok h⟩)
    · exact Or.inr (Or.inr (Except.ok.inj h).symm)
  · split at h
    · cases h
      exact Or.inl (.new (.epsilon _))
    · exact Or.inr (Or.inr (Except.ok.inj h).symm)

/-! ### Edits -/

/-- A step of a builder that attaches nodes only where `inside` holds. -/
inductive Edit (P : Parsing) (inside : ForestBuilder → Prop) :
    ForestBuilder → ForestBuilder → Prop where
  /-- The builder goes elsewhere, or saves where to go on. -/
  | go {b b' : ForestBuilder} (hn : b'.nodes = b.nodes) (hr : b'.root = b.root) :
      Edit P inside b b'
  | attach {b b' : ForestBuilder} (hb : inside b) (h : Attaches P b b') : Edit P inside b b'
  | mark {b : ForestBuilder} (id : Nat) : Edit P inside b (b.modify id markAmbiguous)
  | alternative {b b' : ForestBuilder} {p : Nat} {ids : List Nat}
      (h : b.beginAlternative p ids = .ok b') : Edit P inside b b'
  | split {b b' : ForestBuilder} {p : Nat} (h : b.split p = .ok b') : Edit P inside b b'

lemma edits_enter (hb : inside b) (n : NonTerminal) :
    ReflTransGen (Edit P inside) b (b.enter n e ev) := by
  have hnode := Edit.attach hb (attaches_nonterminal (P := P) b n e.origin ev.column)
  unfold enter
  split
  · exact .head hnode (.head (.go rfl rfl) (.head (.mark _) (.single (.go rfl rfl))))
  · exact .head hnode (.single (.go rfl rfl))

lemma edits_passSymbol (hb : inside b) (h : b.passSymbol P p dot e ev = .ok b') :
    ReflTransGen (Edit P inside) b b' := by
  rcases passSymbol_cases h with hattach | ⟨-, b₁, hsplit, rfl⟩ | rfl
  · exact .single (.attach hb hattach)
  · exact .head (.split hsplit) (.single (.go rfl rfl))
  · exact .refl

lemma edit_close (h : b.close = .ok b') : Edit P inside b b' := by
  unfold close at h
  split at h
  · cases h
  · cases h
    exact .go rfl rfl

lemma edit_restore {id : Nat} (h : b.restore id = .ok (b', ids)) : Edit P inside b b' := by
  unfold restore at h
  split at h
  · cases h
    exact .go rfl rfl
  · cases h

section

variable (hinside : ∀ {b b' : ForestBuilder} {p : Nat} {ids : List Nat},
  b.beginAlternative p ids = .ok b' → inside b')

include hinside

lemma edits_passItem (hb : inside b) (h : b.passItem P p dot e ev = .ok b') :
    ReflTransGen (Edit P inside) b b' := by
  unfold passItem at h
  split at h
  · split at h
    · next b₁ hbegin => exact .head (.alternative hbegin) (edits_passSymbol (hinside hbegin) h)
    · cases h
  · exact edits_passSymbol hb h

/-- A report is taken by edits. -/
theorem handle_edits (hb : ev.kind ≠ .backtrack → inside b) (h : b.handle P ev = .ok b') :
    ReflTransGen (Edit P inside) b b' := by
  unfold handle at h
  split at h
  · cases h
  · split at h
    · next hk hv =>
      cases h
      exact edits_enter (hb (by rw [hk]; decide)) _
    · next hk hv =>
      cases h
      exact .single (.attach (hb (by rw [hk]; decide)) (attaches_nonterminal _ _ _ _))
    · exact .single (edit_close h)
    · obtain ⟨⟨b₁, ids⟩, hrestore, rfl⟩ := exists_of_map_eq_ok h
      exact .single (edit_restore hrestore)
    · split at h
      · next b₁ ids hrestore =>
        exact .head (edit_restore hrestore) (.single (.alternative h))
      · cases h
    · next hk => exact edits_passItem hinside (hb fun heq => hk heq) h

end

end ForestBuilder

end ParseForest
