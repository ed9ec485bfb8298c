import ParseForest.Proofs.Walk.Spines

/-!
# Reading spines off a walk

The reports of a walk can be read as spines, from right to left. The reader keeps the spines that
are open, one for each finish that the walk is inside of, and puts the column of each item in front
of the positions of the innermost one; at the start of its nonterminal a spine has been traced.
Where the walk is going to come back to an entry, the reader saves the open spines once for each
time, and it takes what was saved last when the walk does come back.
-/

namespace ParseForest

/-- A spine that is being read: its phrase, its production once that is known, and its last
positions. -/
structure OpenSpine where
  phrase : Phrase
  prod : Option Nat
  positions : List Nat
deriving DecidableEq

/-- The state of a reader: the open spines, the innermost first, what is saved for each time that
the walk comes back to an entry, the latest first, and the spines that have been traced, with their
phrases, the latest first. -/
structure SpineReader where
  path : List OpenSpine
  saved : List (List OpenSpine)
  traced : List (Phrase × Spine)
deriving DecidableEq

/-- Whether the phrase is one of the nonterminal and begins at the position. -/
def Phrase.isFrom (x : Phrase) (n : NonTerminal) (lo : Nat) : Bool :=
  x.symbol == n && x.lo == lo

/-- Whether the report is one of the start of the nonterminal at the position. -/
def WalkEvent.isStart (c : Chart) (n : NonTerminal) (lo : Nat) (ev : WalkEvent) : Bool :=
  c.place? ev.entry == some ⟨.start n, lo, lo⟩

namespace SpineReader

def empty : SpineReader :=
  ⟨[], [], []⟩

/-- Begins to read a spine of a phrase. -/
def enter (s : SpineReader) (x : Phrase) : SpineReader :=
  { s with path := ⟨x, none, []⟩ :: s.path }

/-- Reads an item of the innermost spine. -/
def passItem (s : SpineReader) (p column : Nat) : SpineReader :=
  match s.path with
  | [] => s
  | f :: path =>
    { s with path := { f with prod := some p, positions := column :: f.positions } :: path }

/-- Saves the open spines, once for each of the times. -/
def save (s : SpineReader) (times : Nat) : SpineReader :=
  { s with saved := List.replicate times s.path ++ s.saved }

/-- Has traced the innermost spine. -/
def close (s : SpineReader) : SpineReader :=
  match s.path with
  | ⟨x, some p, positions⟩ :: path =>
    { s with path := path, traced := (x, ⟨p, positions⟩) :: s.traced }
  | _ => s

/-- Takes the open spines that were saved last. -/
def restore (s : SpineReader) : SpineReader :=
  match s.saved with
  | [] => s
  | path :: saved => { s with path := path, saved := saved }

/-- Reads a report. -/
def read (c : Chart) (s : SpineReader) (ev : WalkEvent) : SpineReader :=
  match c.entries[ev.entry]? with
  | none => s
  | some e =>
    match ev.kind, e.vertex with
    | .backtrack, _ => s.restore
    | .visit, .finish n =>
      (s.enter ⟨n, e.origin, ev.column⟩).save (e.antecedents.length - 1)
    | .revisit, .finish _ => s
    | _, .start _ => s.close
    | _, .item p _ => (s.passItem p ev.column).save (e.antecedents.length - 1)

/-- The spines that are traced by reports, with their phrases, the latest first. -/
def tracedBy (c : Chart) (evs : List WalkEvent) : List (Phrase × Spine) :=
  (evs.foldl (read c) empty).traced

/-! ### Reports -/

variable {c : Chart} {s : SpineReader} {id o k p : Nat} {n : NonTerminal} {f : OpenSpine}
  {path : List OpenSpine}

lemma passItem_eq (h : s.path = f :: path) :
    s.passItem p k =
      { s with path := { f with prod := some p, positions := k :: f.positions } :: path } := by
  simp only [passItem, h]

lemma close_eq {x : Phrase} {positions : List Nat} (h : s.path = ⟨x, some p, positions⟩ :: path) :
    s.close = { s with path := path, traced := (x, ⟨p, positions⟩) :: s.traced } := by
  simp only [close, h]

lemma restore_eq {saved : List (List OpenSpine)} (h : s.saved = path :: saved) :
    s.restore = { s with path := path, saved := saved } := by
  simp only [restore, h]

@[simp] lemma save_zero : s.save 0 = s := rfl

lemma read_finish (hx : c.place? id = some ⟨.finish n, o, k⟩) (k' : Nat) :
    s.read c ⟨.visit, id, k'⟩ =
      (s.enter ⟨n, o, k'⟩).save ((c.antecedents id).length - 1) := by
  obtain ⟨e, he, hp⟩ := Chart.place?_eq_some.1 hx
  simp only [Entry.place, Place.mk.injEq] at hp
  simp only [read, he, hp.1, hp.2.1, Chart.antecedents_eq he]

lemma read_finishAgain (hx : c.place? id = some ⟨.finish n, o, k⟩) (k' : Nat) :
    s.read c ⟨.revisit, id, k'⟩ = s := by
  obtain ⟨e, he, hp⟩ := Chart.place?_eq_some.1 hx
  simp only [Entry.place, Place.mk.injEq] at hp
  simp only [read, he, hp.1]

lemma read_start (hx : c.place? id = some ⟨.start n, o, k⟩) {kind : WalkKind}
    (hkind : kind ≠ .backtrack) (k' : Nat) : s.read c ⟨kind, id, k'⟩ = s.close := by
  obtain ⟨e, he, hp⟩ := Chart.place?_eq_some.1 hx
  simp only [Entry.place, Place.mk.injEq] at hp
  cases kind with
  | visit => simp only [read, he, hp.1]
  | revisit => simp only [read, he, hp.1]
  | backtrack => exact absurd rfl hkind

lemma read_item {dot : Nat} (hx : c.place? id = some ⟨.item p dot, o, k⟩) (k' : Nat) :
    s.read c ⟨.visit, id, k'⟩ = (s.passItem p k').save ((c.antecedents id).length - 1) := by
  obtain ⟨e, he, hp⟩ := Chart.place?_eq_some.1 hx
  simp only [Entry.place, Place.mk.injEq] at hp
  simp only [read, he, hp.1, Chart.antecedents_eq he]

/-- An item that does not branch is read, and nothing is saved for it. -/
lemma read_item_of_branches_eq_false {dot : Nat} (hx : c.place? id = some ⟨.item p dot, o, k⟩)
    (hb : c.branches id = false) (k' : Nat) : s.read c ⟨.visit, id, k'⟩ = s.passItem p k' := by
  rw [Chart.branches_eq, decide_eq_false_iff_not] at hb
  have hlen : (c.antecedents id).length - 1 = 0 := by omega
  rw [read_item hx, hlen, save_zero]

lemma read_backtrack {x : Place} (hx : c.place? id = some x) (k' : Nat) :
    s.read c ⟨.backtrack, id, k'⟩ = s.restore := by
  obtain ⟨e, he, -⟩ := Chart.place?_eq_some.1 hx
  simp only [read, he]

end SpineReader

end ParseForest
