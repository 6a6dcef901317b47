import Mathlib.Data.List.Dedup
import Mathlib.Data.List.DropRight
import CardScanner.KeyedTable

/-!
# Tables in order of access

A linked hash map in access order keeps its rows from the least to the most
recently used one.  Both reading a row and writing it put the row last
(`access`), so the whole order is told by two operations: `erase` and `access`.
A row that is accessed leaves its old place, so each operation is an `erase` and
at most one row more; what this does to the rows as a multiset is `perm_erase`,
and what it does to their keys is `keys_access`.
-/

namespace KeyedTable

variable {α κ : Type*} {key : α → κ}

/-- The keys in order of access, the least recent first. -/
def keys (t : KeyedTable key) : List κ := t.rows.map key

theorem nodup_keys (t : KeyedTable key) : t.keys.Nodup := t.primaryKey

/-- No row. -/
def empty : KeyedTable key := ⟨[], List.nodup_nil⟩

theorem length_keys (t : KeyedTable key) : t.keys.length = t.rows.length := by
  simp [keys]

variable [DecidableEq κ]

/-- The row with a key is taken out. -/
def erase (t : KeyedTable key) (k : κ) : KeyedTable key where
  rows := t.rows.filter fun row => key row ≠ k
  primaryKey := t.primaryKey.sublist (List.filter_sublist.map key)

theorem keys_erase (t : KeyedTable key) (k : κ) :
    (t.erase k).keys = t.keys.filter (· ≠ k) := by
  simp only [keys, erase, List.filter_map]
  rfl

/-- After `erase` the key is gone, so that an entry can be put at the end
without a second one for its key. -/
theorem notMem_keys_erase (t : KeyedTable key) (k : κ) : k ∉ (t.erase k).keys := by
  simp [keys_erase]

/-- A row is read or written: it leaves its place, if it has one, and comes
last. -/
def access (t : KeyedTable key) (row : α) : KeyedTable key where
  rows := (t.erase (key row)).rows ++ [row]
  primaryKey := by
    rw [List.map_append, List.map_singleton, ← List.concat_eq_append]
    exact (t.erase (key row)).primaryKey.concat (notMem_keys_erase t (key row))

/-! ## Lookups -/

theorem lookup_isSome_iff {t : KeyedTable key} {k : κ} : (t.lookup k).isSome ↔ k ∈ t.keys := by
  rw [← not_iff_not, Bool.not_eq_true, Option.isSome_eq_false_iff, Option.isNone_iff_eq_none,
    lookup_eq_none]
  rfl

/-- A row just accessed is the one found under its key; other keys are as
before. -/
theorem lookup_access (t : KeyedTable key) (row : α) (k : κ) :
    (t.access row).lookup k = if key row = k then some row else t.lookup k := by
  unfold lookup access erase
  rw [List.find?_append, List.find?_filter]
  split_ifs with hk
  · subst hk
    have hnone : t.rows.find? (fun _ => false) = none := by simp
    simp [hnone]
  · have hsame : (fun a => decide (decide (key a ≠ key row) = true ∧ decide (key a = k) = true)) =
        fun a => decide (key a = k) := by
      funext a
      by_cases ha : key a = k
      · simp [ha, Ne.symm hk]
      · simp [ha]
    rw [hsame]
    simp [hk]

/-! ## The rows as a multiset -/

/-- The row found under a key is one of the rows, and erasing leaves the
others. -/
theorem perm_erase {t : KeyedTable key} {k : κ} {row : α} (h : t.lookup k = some row) :
    t.rows.Perm (row :: (t.erase k).rows) := by
  obtain ⟨rows, hnodup⟩ := t
  simp only [lookup, erase] at h ⊢
  induction rows with
  | nil => simp at h
  | cons first rows ih =>
      rw [List.map_cons, List.nodup_cons] at hnodup
      by_cases hfirst : key first = k
      · have hrow : first = row := by simpa [List.find?_cons, hfirst] using h
        have hkeep : rows.filter (fun row => key row ≠ k) = rows := by
          refine List.filter_eq_self.mpr fun other hother => decide_eq_true fun heq => ?_
          exact hnodup.1 (hfirst.trans heq.symm ▸ List.mem_map_of_mem hother)
        rw [List.filter_cons_of_neg (by simpa using hfirst), hkeep, hrow]
      · rw [List.find?_cons_of_neg (by simpa using hfirst)] at h
        rw [List.filter_cons_of_pos (by simpa using hfirst)]
        exact ((ih hnodup.2 h).cons first).trans (List.Perm.swap row first _)

/-- Erasing a key that no row has changes nothing. -/
theorem erase_of_lookup_none {t : KeyedTable key} {k : κ} (h : t.lookup k = none) :
    (t.erase k).rows = t.rows := by
  refine List.filter_eq_self.mpr fun row hrow => decide_eq_true fun heq => ?_
  exact lookup_eq_none.mp h (heq ▸ List.mem_map_of_mem hrow)

/-- A row is replaced: the old one leaves, the new one comes. -/
theorem perm_access_of_some {t : KeyedTable key} {row old : α}
    (h : t.lookup (key row) = some old) : (old :: (t.access row).rows).Perm (row :: t.rows) := by
  calc old :: ((t.erase (key row)).rows ++ [row])
      |>.Perm (old :: row :: (t.erase (key row)).rows) :=
        (List.perm_append_singleton row _).cons old
    _ |>.Perm (row :: old :: (t.erase (key row)).rows) := List.Perm.swap row old _
    _ |>.Perm (row :: t.rows) := (perm_erase h).symm.cons row

/-- A row under a new key is added. -/
theorem perm_access_of_none {t : KeyedTable key} {row : α} (h : t.lookup (key row) = none) :
    (t.access row).rows.Perm (row :: t.rows) := by
  have herase : (t.erase (key row)).rows = t.rows := erase_of_lookup_none h
  rw [← herase]
  exact List.perm_append_singleton row _

/-! ## The keys in order -/

/-- What `access` does to the order of use: the key is taken out of its place
and becomes the last one. -/
theorem keys_access (t : KeyedTable key) (row : α) :
    (t.access row).keys = t.keys.filter (· ≠ key row) ++ [key row] := by
  rw [← keys_erase]
  simp [keys, access]

end KeyedTable
