import Mathlib.Data.List.Nodup

/-!
# Tables with a primary key

A table is a list of rows no two of which have the same key, so it is known by
its lookups: a row is in the table iff it is what is found under its key
(`mem_rows_iff`).  The three statements a program runs on one key are an update
of the row that has it, an insert that fails if there is one, and a lookup; each
is told by what it does to every lookup.
-/

/-- Rows with different keys. -/
structure KeyedTable {α κ : Type*} (key : α → κ) where
  rows : List α
  primaryKey : (rows.map key).Nodup

namespace KeyedTable

variable {α κ : Type*} {key : α → κ} [DecidableEq κ]

/-- The row with a key, if there is one. -/
def lookup (t : KeyedTable key) (k : κ) : Option α := t.rows.find? fun row => key row = k

/-- The row with the key `k`, if there is one, is changed in other columns. -/
def update (t : KeyedTable key) (k : κ) (set : α → α) (hset : ∀ row, key (set row) = key row) :
    KeyedTable key where
  rows := t.rows.map fun row => if key row = k then set row else row
  primaryKey := by
    have hkeys : (t.rows.map fun row => if key row = k then set row else row).map key =
        t.rows.map key := by
      rw [List.map_map]
      refine List.map_congr_left fun row _ => ?_
      simp only [Function.comp_apply]
      split_ifs
      · exact hset row
      · rfl
    exact hkeys ▸ t.primaryKey

theorem lookup_eq_none {t : KeyedTable key} {k : κ} :
    t.lookup k = none ↔ k ∉ t.rows.map key := by
  simp [lookup]

/-- A row is inserted unless its key is taken. -/
def insert (t : KeyedTable key) (row : α) : KeyedTable key :=
  if h : t.lookup (key row) = none then
    { rows := t.rows ++ [row]
      primaryKey := by
        rw [List.map_append, List.map_singleton, ← List.concat_eq_append]
        exact t.primaryKey.concat (lookup_eq_none.mp h) }
  else t

/-! ## Lookups -/

theorem lookup_eq_some {t : KeyedTable key} {k : κ} {row : α} (h : t.lookup k = some row) :
    row ∈ t.rows ∧ key row = k := by
  unfold lookup at h
  exact ⟨List.mem_of_find?_eq_some h, by simpa using List.find?_some h⟩

/-- **The rows are what the lookups find.**  A key is in the table once, so
the first row found under it is the only one. -/
theorem mem_rows_iff {t : KeyedTable key} {row : α} :
    row ∈ t.rows ↔ t.lookup (key row) = some row := by
  constructor
  · intro hmem
    cases hfound : t.lookup (key row) with
    | none => exact absurd (List.mem_map_of_mem hmem) (lookup_eq_none.mp hfound)
    | some found =>
        obtain ⟨hfoundmem, hkey⟩ := lookup_eq_some hfound
        rw [List.inj_on_of_nodup_map t.primaryKey hfoundmem hmem hkey]
  · exact fun h => (lookup_eq_some h).1

/-- An update changes the row it is about and no other, provided that it
leaves the key alone. -/
theorem lookup_update (t : KeyedTable key) (k : κ) {set : α → α}
    (hset : ∀ row, key (set row) = key row) (k' : κ) :
    (t.update k set hset).lookup k' =
      if k = k' then (t.lookup k').map set else t.lookup k' := by
  obtain ⟨rows, hnodup⟩ := t
  simp only [lookup, update]
  clear hnodup
  induction rows with
  | nil => simp
  | cons row rows ih =>
      rw [List.map_cons, List.find?_cons, List.find?_cons, ih]
      by_cases hk : key row = k
      · have hkey : key (set row) = k := (hset row).trans hk
        by_cases hk' : k = k'
        · simp [hk, hkey, hk']
        · simp [hk, hkey, hk']
      · by_cases hk' : key row = k'
        · have hne : k ≠ k' := fun heq => hk (hk'.trans heq.symm)
          simp [hk', hne, Ne.symm hne]
        · simp [hk, hk']

/-- An insert adds its row if there is none with the key, and otherwise
changes nothing. -/
theorem lookup_insert (t : KeyedTable key) (row : α) (k : κ) :
    (t.insert row).lookup k =
      if key row = k then some ((t.lookup k).getD row) else t.lookup k := by
  unfold insert
  split_ifs with hfree hk hk
  · subst hk
    rw [hfree, lookup, List.find?_append]
    have hnone : t.rows.find? (fun r => decide (key r = key row)) = none := hfree
    simp [hnone]
  · rw [lookup, List.find?_append]
    simp [lookup, hk]
  · obtain ⟨found, hfound⟩ := Option.ne_none_iff_exists'.mp hfree
    rw [← hk, hfound]
    rfl
  · rfl

end KeyedTable
