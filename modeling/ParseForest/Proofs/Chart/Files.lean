import ParseForest.Chart.Filing
import ParseForest.Proofs.Chart.Places
import Mathlib.Data.List.Sort

/-!
# Files that are in step

The files of a filed chart repeat what its entries say. They are in step with the entries,
`FiledChart.InStep`, if looking up in the files answers as looking through the entries does. The main
statements say that insertion keeps them in step, `FiledChart.InStep.insert`, and that a chart whose
files are in step gives the same answers as the chart without them, `FiledChart.InStep.agreesWith`.
-/

namespace ParseForest

/-! ### Keys and what is filed under them -/

namespace Ordered

universe u v

variable {α : Type u} {β : Type v} [Ord α]

/-- The keys are in increasing order, and something is filed under each. -/
structure Tidy (l : List (α × List β)) : Prop where
  increasing : Increasing (l.map Prod.fst)
  mem_iff : ∀ k, k ∈ l.map Prod.fst ↔ filed k l ≠ []

lemma Tidy.nil : Tidy ([] : List (α × List β)) := ⟨List.Pairwise.nil, by simp [filed]⟩

lemma Tidy.file [Std.TransOrd α] [Std.LawfulEqOrd α] {l : List (α × List β)} (h : Tidy l) (a : α)
    (b : β) : Tidy (file a b l) := by
  refine ⟨?_, fun k => ?_⟩
  · rw [keys_file]
    exact increasing_insert h.increasing
  · rw [keys_file, mem_insert, h.mem_iff]
    by_cases hk : k = a
    · subst hk
      simp [filed_file_self b h.increasing]
    · simp [hk, filed_file_of_ne hk]

end Ordered

namespace FiledColumn

variable {G : Grammar} {column : FiledColumn} {v : Vertex} {origin id : Nat}

lemma lookup_add (key : Vertex × Nat) :
    (column.add G v origin id).byKey.lookup key =
      if key = (v, origin) then some id else column.byKey.lookup key := by
  rw [add, List.lookup_cons]
  by_cases h : key = (v, origin)
  · simp [h]
  · rw [if_neg h, beq_false_of_ne h]

lemma tidy_add (ht : Ordered.Tidy column.byTerminal) (hn : Ordered.Tidy column.byNonterminal) :
    Ordered.Tidy (column.add G v origin id).byTerminal ∧
      Ordered.Tidy (column.add G v origin id).byNonterminal := by
  unfold add
  cases hs : G.next? v with
  | none => exact ⟨ht, hn⟩
  | some s =>
    cases s with
    | terminal t => exact ⟨ht.file t id, hn⟩
    | nonterminal n => exact ⟨ht, hn.file n id⟩

/-- A new entry is filed under the symbol after its dot, and under no other one. -/
lemma awaiting_add (ht : Ordered.Tidy column.byTerminal) (hn : Ordered.Tidy column.byNonterminal)
    (s : Symbol) :
    (column.add G v origin id).awaiting s =
      column.awaiting s ++ if G.next? v = some s then [id] else [] := by
  unfold add
  cases hv : G.next? v with
  | none => cases s <;> simp [awaiting]
  | some s' =>
    by_cases hs : s' = s
    · subst hs
      cases s' with
      | terminal t => simp [awaiting, Ordered.filed_file_self id ht.increasing]
      | nonterminal n => simp [awaiting, Ordered.filed_file_self id hn.increasing]
    · have hne : some s' ≠ some s := fun h => hs (Option.some.inj h)
      rw [if_neg hne, List.append_nil]
      cases s' <;> cases s
      · exact Ordered.filed_file_of_ne (fun h => hs (by rw [h])) id _
      · rfl
      · rfl
      · exact Ordered.filed_file_of_ne (fun h => hs (by rw [h])) id _

end FiledColumn

/-! ### What is awaited -/

namespace Chart

variable {c : Chart} {G : Grammar} {i : Nat}

lemma awaiting_ne_nil_iff {s : Symbol} :
    c.awaiting G s i ≠ [] ↔ ∃ id ∈ c.ids i, c.nextOf? G id = some s := by
  simp [awaiting]

lemma mem_expected_iff {t : Terminal} :
    t ∈ c.expected G i ↔ c.awaiting G (.terminal t) i ≠ [] := by
  rw [expected, Ordered.mem_ofList, awaiting_ne_nil_iff, List.mem_filterMap]
  refine exists_congr fun id => and_congr_right fun _ => ?_
  cases c.nextOf? G id with
  | none => simp
  | some s => cases s <;> simp [Symbol.terminal?]

lemma mem_awaited_iff {n : NonTerminal} :
    n ∈ c.awaited G i ↔ c.awaiting G (.nonterminal n) i ≠ [] := by
  rw [awaited, Ordered.mem_ofList, awaiting_ne_nil_iff, List.mem_filterMap]
  refine exists_congr fun id => and_congr_right fun _ => ?_
  cases c.nextOf? G id with
  | none => simp
  | some s => cases s <;> simp [Symbol.nonterminal?]

end Chart

/-! ### What an insertion leaves -/

namespace Chart

variable {c : Chart} {v v' : Vertex} {origin o' column i id : Nat} {antecedent : Option Nat}
  {G : Grammar} {s : Symbol}

lemma vertexOf?_insert_of_find?_eq_some {j : Nat} (hf : c.find? v origin column = some j) :
    (c.insert v origin column antecedent).1.vertexOf? id = c.vertexOf? id := by
  rw [vertexOf?, getElem?_insert_of_find?_eq_some hf, Option.map_map, vertexOf?]
  refine congrArg (Option.map · _) (funext fun e => ?_)
  by_cases hid : j = id <;> simp [hid]

lemma awaiting_insert_of_find?_eq_some {j : Nat} (hf : c.find? v origin column = some j) :
    (c.insert v origin column antecedent).1.awaiting G s i = c.awaiting G s i := by
  rw [awaiting, awaiting, ids_insert_of_find?_eq_some hf]
  refine List.filter_congr fun id _ => ?_
  rw [nextOf?, nextOf?, vertexOf?_insert_of_find?_eq_some hf]

lemma Indexed.awaiting_insert_of_find?_eq_none (h : c.Indexed)
    (hf : c.find? v origin column = none) (hcol : column < c.columns.size) :
    (c.insert v origin column antecedent).1.awaiting G s i =
      c.awaiting G s i ++ if i = column ∧ G.next? v = some s then [c.entries.size] else [] := by
  have hold : ∀ id ∈ c.ids i, (c.insert v origin column antecedent).1.nextOf? G id
      = c.nextOf? G id := by
    intro id hid
    obtain ⟨e, he, -⟩ := h.mem_ids.1 hid
    have hlt := (Array.getElem?_eq_some_iff.1 he).1
    rw [nextOf?, nextOf?, vertexOf?, vertexOf?, getElem?_insert_of_find?_eq_none hf,
      if_neg (Nat.ne_of_lt hlt)]
  have hnew : (c.insert v origin column antecedent).1.nextOf? G c.entries.size = G.next? v := by
    rw [nextOf?, vertexOf?, getElem?_insert_of_find?_eq_none hf, if_pos rfl]
    rfl
  rw [awaiting, awaiting, ids_insert_of_find?_eq_none hf hcol, List.filter_append,
    List.filter_congr fun id hid => by rw [hold id hid]]
  by_cases hi : i = column
  · rw [if_pos hi, List.filter_singleton, hnew]
    simp [hi]
  · simp [hi]

/-- After an insertion looking up finds what it found, and the new entry. -/
lemma Indexed.find?_insert_of_find?_eq_none (h : c.Indexed) (hf : c.find? v origin column = none)
    (hcol : column < c.columns.size) :
    (c.insert v origin column antecedent).1.find? v' o' i =
      if i = column ∧ (v', o') = (v, origin) then some c.entries.size else c.find? v' o' i := by
  ext id
  rw [(h.insert hcol).find?_eq_some]
  simp only [getElem?_insert_of_find?_eq_none hf]
  by_cases hkey : i = column ∧ (v', o') = (v, origin)
  · rw [if_pos hkey]
    obtain ⟨rfl, hkey⟩ := hkey
    obtain ⟨rfl, rfl⟩ := Prod.mk.inj hkey
    constructor
    · rintro ⟨e, he, hk⟩
      split at he
      · next hid => rw [hid]
      · exact absurd hk (h.find?_eq_none.1 hf id e he)
    · intro hid
      cases hid
      exact ⟨_, if_pos rfl, rfl, rfl, rfl⟩
  · rw [if_neg hkey, h.find?_eq_some]
    constructor
    · rintro ⟨e, he, rfl, rfl, rfl⟩
      split at he
      · cases he
        exact absurd ⟨rfl, rfl⟩ hkey
      · exact ⟨e, he, rfl, rfl, rfl⟩
    · rintro ⟨e, he, hk⟩
      exact ⟨e, by rw [if_neg (Nat.ne_of_lt (Array.getElem?_eq_some_iff.1 he).1), he], hk⟩

lemma find?_insert_of_find?_eq_some {j : Nat} (hf : c.find? v origin column = some j) :
    (c.insert v origin column antecedent).1.find? v' o' i = c.find? v' o' i := by
  have hat (id : Nat) : (c.insert v origin column antecedent).1.entries[id]?.any (·.isAt v' o') =
      c.entries[id]?.any (·.isAt v' o') := by
    rw [getElem?_insert_of_find?_eq_some hf]
    by_cases hid : j = id <;> cases c.entries[id]? <;> simp [hid, Entry.isAt]
  have hcolumns : (c.insert v origin column antecedent).1.columns = c.columns := by
    rw [insert_of_find?_eq_some hf]
  simp only [find?, hat, hcolumns]

end Chart

/-! ### Files in step -/

namespace FiledChart

variable {G : Grammar} {c : FiledChart} {p : Push} {i : Nat}

lemma plain_ids (c : FiledChart) (i : Nat) : c.plain.ids i = c.ids i := by
  rw [Chart.ids, ids, column, plain, Array.getElem?_map]
  cases c.columns[i]? <;> rfl

lemma plain_columns_size (c : FiledChart) : c.plain.columns.size = c.columns.size := by
  simp [plain]

lemma plain_lastNonEmpty? (c : FiledChart) : c.plain.lastNonEmpty? = c.lastNonEmpty? := by
  simp only [Chart.lastNonEmpty?, lastNonEmpty?, plain_columns_size, plain_ids]

lemma plain_empty (n : Nat) : (empty n).plain = Chart.empty n := by
  simp [empty, plain, Chart.empty, FiledColumn.empty]

/-- Looking up in the files answers as looking through the entries does. -/
structure InStep (G : Grammar) (c : FiledChart) : Prop where
  indexed : c.plain.Indexed
  find?_eq : ∀ v origin i, c.find? v origin i = c.plain.find? v origin i
  awaiting_eq : ∀ s i, c.awaiting s i = c.plain.awaiting G s i
  terminals : ∀ i, Ordered.Tidy (c.column i).byTerminal
  nonterminals : ∀ i, Ordered.Tidy (c.column i).byNonterminal

lemma column_empty (n i : Nat) : (empty n).column i = .empty := by
  rw [column, empty, Array.getElem?_replicate]
  split <;> rfl

lemma InStep.empty (n : Nat) : InStep G (.empty n) where
  indexed := plain_empty n ▸ Chart.indexed_empty n
  find?_eq v origin i := by
    rw [find?, column_empty, plain_empty, eq_comm]
    exact (Chart.indexed_empty n).find?_eq_none.2 fun _ _ he => by simp [Chart.empty] at he
  awaiting_eq s i := by
    rw [awaiting, column_empty, Chart.awaiting, plain_ids, ids, column_empty]
    cases s <;> rfl
  terminals i := by
    rw [column_empty]
    exact .nil
  nonterminals i := by
    rw [column_empty]
    exact .nil

/-- What is filed under a symbol is what awaits it, so the keys are what is awaited. -/
lemma InStep.expected_eq (h : InStep G c) (i : Nat) : c.expected i = c.plain.expected G i := by
  refine List.Pairwise.eq_of_mem_iff (h.terminals i).increasing (Ordered.increasing_ofList _)
    fun t => ?_
  have hfiled : Ordered.filed t (c.column i).byTerminal = c.plain.awaiting G (.terminal t) i :=
    h.awaiting_eq (.terminal t) i
  rw [expected, (h.terminals i).mem_iff, hfiled, Chart.mem_expected_iff]

lemma InStep.awaited_eq (h : InStep G c) (i : Nat) : c.awaited i = c.plain.awaited G i := by
  refine List.Pairwise.eq_of_mem_iff (h.nonterminals i).increasing (Ordered.increasing_ofList _)
    fun n => ?_
  have hfiled : Ordered.filed n (c.column i).byNonterminal =
      c.plain.awaiting G (.nonterminal n) i :=
    h.awaiting_eq (.nonterminal n) i
  rw [awaited, (h.nonterminals i).mem_iff, hfiled, Chart.mem_awaited_iff]

lemma column_insert_of_find?_eq_none (hf : c.find? p.vertex p.origin p.column = none)
    (hcol : p.column < c.columns.size) (i : Nat) :
    (c.insert G p).1.column i =
      if i = p.column then (c.column i).add G p.vertex p.origin c.entries.size else c.column i := by
  simp only [insert, hf, column, Array.getElem?_modify]
  by_cases hi : i = p.column
  · subst hi
    simp [hcol]
  · simp [hi, Ne.symm hi]

/-- The charts give the same answers. -/
structure AgreesWith (G : Grammar) (c : FiledChart) (d : Chart) : Prop where
  entries_eq : c.entries = d.entries
  ids_eq : ∀ i, c.ids i = d.ids i
  find?_eq : ∀ v origin i, c.find? v origin i = d.find? v origin i
  awaiting_eq : ∀ s i, c.awaiting s i = d.awaiting G s i
  expected_eq : ∀ i, c.expected i = d.expected G i
  awaited_eq : ∀ i, c.awaited i = d.awaited G i
  lastNonEmpty?_eq : c.lastNonEmpty? = d.lastNonEmpty?

lemma InStep.agreesWith (h : InStep G c) : c.AgreesWith G c.plain where
  entries_eq := rfl
  ids_eq i := (plain_ids c i).symm
  find?_eq := h.find?_eq
  awaiting_eq := h.awaiting_eq
  expected_eq := h.expected_eq
  awaited_eq := h.awaited_eq
  lastNonEmpty?_eq := (plain_lastNonEmpty? c).symm

/-- Without the files, insertion is insertion into the chart. -/
lemma InStep.insert_eq (h : InStep G c) (p : Push) :
    c.plain.insert p.vertex p.origin p.column p.antecedent =
      ((c.insert G p).1.plain, (c.insert G p).2) := by
  cases hf : c.find? p.vertex p.origin p.column with
  | some id =>
    rw [Chart.insert_of_find?_eq_some (h.find?_eq .. ▸ hf), insert, hf]
    cases p.antecedent <;> rfl
  | none =>
    rw [Chart.insert_of_find?_eq_none (h.find?_eq .. ▸ hf), insert, hf]
    simp only [plain, Prod.mk.injEq, Chart.mk.injEq, true_and, and_true]
    refine Array.ext_getElem? fun i => ?_
    simp only [Array.getElem?_map, Array.getElem?_modify]
    split
    · cases c.columns[i]? <;> rfl
    · rfl

lemma InStep.plain_insert (h : InStep G c) (p : Push) :
    (c.insert G p).1.plain = (c.plain.insert p.vertex p.origin p.column p.antecedent).1 := by
  rw [h.insert_eq]

/-- If there is an entry of the vertex and the origin, the files stay as they are. -/
lemma InStep.insert_old (h : InStep G c) {id : Nat}
    (hf : c.find? p.vertex p.origin p.column = some id) : InStep G (c.insert G p).1 := by
  have hf' : c.plain.find? p.vertex p.origin p.column = some id := h.find?_eq .. ▸ hf
  have hcolumn (i : Nat) : (c.insert G p).1.column i = c.column i := by
    rw [FiledChart.insert, hf]
    cases p.antecedent <;> rfl
  constructor
  · rw [h.plain_insert]
    exact h.indexed.insert_old hf'
  · intro v origin i
    rw [find?, hcolumn, h.plain_insert, Chart.find?_insert_of_find?_eq_some hf', ← h.find?_eq,
      find?]
  · intro s i
    rw [awaiting, hcolumn, h.plain_insert, Chart.awaiting_insert_of_find?_eq_some hf',
      ← h.awaiting_eq, awaiting]
  · exact fun i => hcolumn i ▸ h.terminals i
  · exact fun i => hcolumn i ▸ h.nonterminals i

/-- A new entry is filed in its column. -/
lemma InStep.insert_new (h : InStep G c) (hf : c.find? p.vertex p.origin p.column = none)
    (hcol : p.column < c.columns.size) : InStep G (c.insert G p).1 := by
  have hf' : c.plain.find? p.vertex p.origin p.column = none := h.find?_eq .. ▸ hf
  have hcol' : p.column < c.plain.columns.size := by rwa [plain_columns_size]
  have hcolumn := column_insert_of_find?_eq_none (G := G) hf hcol
  have htidy (i : Nat) : Ordered.Tidy ((c.insert G p).1.column i).byTerminal ∧
      Ordered.Tidy ((c.insert G p).1.column i).byNonterminal := by
    rw [hcolumn]
    split
    · exact FiledColumn.tidy_add (h.terminals i) (h.nonterminals i)
    · exact ⟨h.terminals i, h.nonterminals i⟩
  constructor
  · rw [h.plain_insert]
    exact h.indexed.insert_new hf' hcol'
  · intro v origin i
    rw [find?, hcolumn, h.plain_insert, h.indexed.find?_insert_of_find?_eq_none hf' hcol',
      ← h.find?_eq, find?]
    by_cases hi : i = p.column
    · rw [if_pos hi, FiledColumn.lookup_add]
      simp only [hi, true_and]
      rfl
    · simp [hi]
  · intro s i
    rw [awaiting, hcolumn, h.plain_insert, h.indexed.awaiting_insert_of_find?_eq_none hf' hcol',
      ← h.awaiting_eq, awaiting]
    by_cases hi : i = p.column
    · rw [if_pos hi, FiledColumn.awaiting_add (h.terminals i) (h.nonterminals i)]
      simp only [hi, true_and]
      rfl
    · simp [hi]
  · exact fun i => (htidy i).1
  · exact fun i => (htidy i).2

/-- Insertion keeps the files in step. -/
lemma InStep.insert (h : InStep G c) (hcol : p.column < c.columns.size) :
    InStep G (c.insert G p).1 := by
  cases hf : c.find? p.vertex p.origin p.column with
  | some id => exact h.insert_old hf
  | none => exact h.insert_new hf hcol

/-- Without the files, a push is a push into the chart. -/
lemma InStep.push_eq (h : InStep G c) (p : Push) :
    c.plain.push p.vertex p.origin p.column p.antecedent =
      (c.push G p).map fun r => (r.1.plain, r.2) := by
  rw [Chart.push, FiledChart.push, plain_columns_size, h.insert_eq]
  have hsize : c.plain.entries.size = c.entries.size := rfl
  rw [hsize]
  split_ifs <;> rfl

end FiledChart

end ParseForest
