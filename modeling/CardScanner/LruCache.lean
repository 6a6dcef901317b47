import Mathlib.Algebra.BigOperators.Group.List.Basic
import Mathlib.Algebra.Order.BigOperators.Group.List
import CardScanner.AccessOrder
import CardScanner.JavaCast

/-!
# `LruCache`: the synchronized blocks

The cache keeps its entries in a linked hash map in access order, and their sizes
added up in an `int`.  A call is a few synchronized blocks with calls of `create`
and `entryRemoved` between them, outside any lock.  Each block is one function
here: it returns the cache as the block leaves it, and `none` where the block ends
with an exception -- what it had done by then stays done.

Where no size is negative and the sum fits into an `int`, no block throws and the
size stays the sum of the entries' sizes; what a block can then do is said once, by
the `_cases` lemmas.
-/

namespace CardScanner

variable {κ ν : Type*} [DecidableEq κ]

/-- What `entryRemoved` is told. -/
structure Removal (κ ν : Type*) where
  evicted : Bool
  key : κ
  oldValue : ν
  newValue : Option ν
  deriving DecidableEq, Repr

/-- The fields of `LruCache`. -/
structure LruCache (κ ν : Type*) where
  map : KeyedTable (Prod.fst : κ × ν → κ)
  size : ℤ
  mMaxSize : ℤ
  putCount : ℤ
  createCount : ℤ
  evictionCount : ℤ
  hitCount : ℤ
  missCount : ℤ

/-- The sum of the sizes of some entries. -/
def entriesSize (sizeOf : κ → ν → ℤ) (rows : List (κ × ν)) : ℤ :=
  (rows.map fun row => sizeOf row.1 row.2).sum

omit [DecidableEq κ] in
@[simp] theorem entriesSize_cons (sizeOf : κ → ν → ℤ) (row : κ × ν) (rows : List (κ × ν)) :
    entriesSize sizeOf (row :: rows) = sizeOf row.1 row.2 + entriesSize sizeOf rows := by
  simp [entriesSize]

omit [DecidableEq κ] in
/-- The sum of the sizes does not depend on the order of the entries. -/
theorem entriesSize_perm (sizeOf : κ → ν → ℤ) {rows rows' : List (κ × ν)}
    (h : rows.Perm rows') : entriesSize sizeOf rows = entriesSize sizeOf rows' :=
  (h.map fun row : κ × ν => sizeOf row.1 row.2).sum_eq

omit [DecidableEq κ] in
theorem entriesSize_nonneg {sizeOf : κ → ν → ℤ} (hsize : ∀ key value, 0 ≤ sizeOf key value)
    (rows : List (κ × ν)) : 0 ≤ entriesSize sizeOf rows := by
  refine List.sum_nonneg fun size hmem => ?_
  obtain ⟨row, -, rfl⟩ := List.mem_map.mp hmem
  exact hsize row.1 row.2

namespace LruCache

/-- The constructor. -/
def new (maxSize : ℤ) : Option (LruCache κ ν) :=
  if maxSize ≤ 0 then none else some ⟨.empty, 0, maxSize, 0, 0, 0, 0, 0⟩

omit [DecidableEq κ] in
/-- A new cache is empty, and has the bound it was asked for, which is
positive. -/
theorem new_spec {maxSize : ℤ} {c : LruCache κ ν} (h : new maxSize = some c) :
    0 < maxSize ∧ c.map = .empty ∧ c.size = 0 ∧ c.mMaxSize = maxSize := by
  unfold new at h
  split_ifs at h with hle
  rw [← Option.some.inj h]
  exact ⟨not_le.mp hle, rfl, rfl, rfl⟩

/-- The first block of `get`; no value is a miss. -/
def getCached (c : LruCache κ ν) (key : κ) : LruCache κ ν × Option ν :=
  match c.map.lookup key with
  | some row =>
      ({ c with map := c.map.access row, hitCount := intOfLong (c.hitCount + 1) }, some row.2)
  | none => ({ c with missCount := intOfLong (c.missCount + 1) }, none)

variable (sizeOf : κ → ν → ℤ)

/-- `safeSizeOf`: a negative size is an exception. -/
def safeSizeOf (key : κ) (value : ν) : Option ℤ :=
  if sizeOf key value < 0 then none else some (sizeOf key value)

/-- The second block of `get`, with the value that was there meanwhile. -/
def putCreated (c : LruCache κ ν) (key : κ) (createdValue : ν) :
    LruCache κ ν × Option (Option ν) :=
  let put := { c with
    createCount := intOfLong (c.createCount + 1), map := c.map.access (key, createdValue) }
  match c.map.lookup key with
  | some row => ({ put with map := put.map.access (key, row.2) }, some (some row.2))
  | none =>
      match safeSizeOf sizeOf key createdValue with
      | none => (put, none)
      | some size => ({ put with size := intOfLong (c.size + size) }, some none)

/-- The block of `put`, with the previous value.  The size grows by the new
entry before the old one is taken off. -/
def putValue (c : LruCache κ ν) (key : κ) (value : ν) : LruCache κ ν × Option (Option ν) :=
  let counted := { c with putCount := intOfLong (c.putCount + 1) }
  match safeSizeOf sizeOf key value with
  | none => (counted, none)
  | some size =>
      let put := { counted with
        size := intOfLong (c.size + size), map := c.map.access (key, value) }
      match c.map.lookup key with
      | none => (put, some none)
      | some row =>
          match safeSizeOf sizeOf key row.2 with
          | none => (put, none)
          | some previous =>
              ({ put with size := intOfLong (put.size - previous) }, some (some row.2))

/-- One round of `trimToSize`, with the entry it evicts; no entry ends the
loop. -/
def trimOnce (maxSize : ℤ) (c : LruCache κ ν) : LruCache κ ν × Option (Option (κ × ν)) :=
  if c.size < 0 ∨ (c.map.rows = [] ∧ c.size ≠ 0) then (c, none)
  else if c.size ≤ maxSize then (c, some none)
  else
    match c.map.rows with
    | [] => (c, some none)
    | toEvict :: _ =>
        let removed := { c with map := c.map.erase toEvict.1 }
        match safeSizeOf sizeOf toEvict.1 toEvict.2 with
        | none => (removed, none)
        | some size =>
            ({ removed with
                size := intOfLong (c.size - size)
                evictionCount := intOfLong (c.evictionCount + 1) }, some (some toEvict))

/-- The block of `remove`, with the previous value. -/
def removeKey (c : LruCache κ ν) (key : κ) : LruCache κ ν × Option (Option ν) :=
  match c.map.lookup key with
  | none => (c, some none)
  | some row =>
      let removed := { c with map := c.map.erase key }
      match safeSizeOf sizeOf key row.2 with
      | none => (removed, none)
      | some size => ({ removed with size := intOfLong (c.size - size) }, some (some row.2))

/-! ## What each block can do -/

variable {sizeOf} (hsize : ∀ key value, 0 ≤ sizeOf key value)

include hsize

omit [DecidableEq κ] in
theorem safeSizeOf_eq (key : κ) (value : ν) :
    safeSizeOf sizeOf key value = some (sizeOf key value) :=
  if_neg (not_lt.mpr (hsize key value))

/-- The second block of `get` leaves the entries as they are if the key has one
meanwhile, else it adds the created value. -/
theorem putCreated_cases (c : LruCache κ ν) (key : κ) (createdValue : ν) :
    (∃ value c', putCreated sizeOf c key createdValue = (c', some (some value)) ∧
      c'.map.rows.Perm c.map.rows ∧ c'.size = c.size ∧ c'.mMaxSize = c.mMaxSize ∧
      key ∈ c.map.keys) ∨
    ∃ c', putCreated sizeOf c key createdValue = (c', some none) ∧
      c'.map.rows.Perm ((key, createdValue) :: c.map.rows) ∧
      c'.size = intOfLong (c.size + sizeOf key createdValue) ∧ c'.mMaxSize = c.mMaxSize ∧
      c'.map = c.map.access (key, createdValue) := by
  cases hfound : c.map.lookup key with
  | some row =>
      obtain ⟨-, hkey⟩ := KeyedTable.lookup_eq_some hfound
      simp only [putCreated, hfound]
      refine .inl ⟨row.2, _, rfl, ?_, rfl, rfl, KeyedTable.lookup_isSome_iff.mp (by simp [hfound])⟩
      have hrow : (key, row.2) = row := Prod.ext hkey.symm rfl
      have hput : (row :: (c.map.access (key, createdValue)).rows).Perm
          ((key, createdValue) :: c.map.rows) := KeyedTable.perm_access_of_some hfound
      have hundo : ((key, createdValue) ::
            ((c.map.access (key, createdValue)).access (key, row.2)).rows).Perm
          ((key, row.2) :: (c.map.access (key, createdValue)).rows) :=
        KeyedTable.perm_access_of_some (by rw [KeyedTable.lookup_access, if_pos rfl])
      rw [hrow] at hundo ⊢
      exact (List.perm_cons _).mp (hundo.trans hput)
  | none =>
      simp only [putCreated, hfound, safeSizeOf_eq hsize]
      refine .inr ⟨_, rfl, ?_, rfl, rfl, rfl⟩
      exact KeyedTable.perm_access_of_none hfound

/-- The block of `put` replaces the value of the key or adds it.  Either way
the entry is the newest, and the size is reckoned with it. -/
theorem putValue_cases (c : LruCache κ ν) (key : κ) (value : ν) :
    (∃ previous c', putValue sizeOf c key value = (c', some (some previous)) ∧
      ((key, previous) :: c'.map.rows).Perm ((key, value) :: c.map.rows) ∧
      c'.size = intOfLong (intOfLong (c.size + sizeOf key value) - sizeOf key previous) ∧
      c'.mMaxSize = c.mMaxSize ∧ c'.map = c.map.access (key, value)) ∨
    ∃ c', putValue sizeOf c key value = (c', some none) ∧
      c'.map.rows.Perm ((key, value) :: c.map.rows) ∧
      c'.size = intOfLong (c.size + sizeOf key value) ∧ c'.mMaxSize = c.mMaxSize ∧
      c'.map = c.map.access (key, value) := by
  cases hfound : c.map.lookup key with
  | some row =>
      obtain ⟨-, hkey⟩ := KeyedTable.lookup_eq_some hfound
      simp only [putValue, hfound, safeSizeOf_eq hsize]
      refine .inl ⟨row.2, _, rfl, ?_, rfl, rfl, rfl⟩
      have hrow : (key, row.2) = row := Prod.ext hkey.symm rfl
      rw [hrow]
      exact KeyedTable.perm_access_of_some hfound
  | none =>
      simp only [putValue, hfound, safeSizeOf_eq hsize]
      refine .inr ⟨_, rfl, ?_, rfl, rfl, rfl⟩
      exact KeyedTable.perm_access_of_none hfound

/-- A round of `trimToSize` finds the cache inconsistent, or small enough, or
evicts the eldest entry. -/
theorem trimOnce_cases (maxSize : ℤ) (c : LruCache κ ν) :
    (trimOnce sizeOf maxSize c = (c, none) ∧ (c.size < 0 ∨ (c.map.rows = [] ∧ c.size ≠ 0))) ∨
    (trimOnce sizeOf maxSize c = (c, some none) ∧
      (c.size ≤ maxSize ∨ (c.map.rows = [] ∧ c.size = 0))) ∨
    ∃ row c', trimOnce sizeOf maxSize c = (c', some (some row)) ∧
      c.map.rows = row :: c'.map.rows ∧ maxSize < c.size ∧
      c'.size = intOfLong (c.size - sizeOf row.1 row.2) ∧ c'.mMaxSize = c.mMaxSize := by
  by_cases hbad : c.size < 0 ∨ (c.map.rows = [] ∧ c.size ≠ 0)
  · exact .inl ⟨if_pos hbad, hbad⟩
  by_cases hfits : c.size ≤ maxSize
  · refine .inr (.inl ⟨?_, .inl hfits⟩)
    rw [trimOnce, if_neg hbad, if_pos hfits]
  cases hrows : c.map.rows with
  | nil =>
      refine .inr (.inl ⟨?_, .inr ⟨rfl, ?_⟩⟩)
      · rw [trimOnce, if_neg hbad, if_neg hfits]
        simp only [hrows]
      · by_contra hne
        exact hbad (.inr ⟨hrows, hne⟩)
  | cons row rest =>
      right
      right
      rw [trimOnce, if_neg hbad, if_neg hfits]
      simp only [hrows, safeSizeOf_eq hsize]
      refine ⟨row, _, rfl, ?_, not_le.mp hfits, rfl, rfl⟩
      have hnodup := c.map.primaryKey
      rw [hrows, List.map_cons, List.nodup_cons] at hnodup
      have hkeep : rest.filter (fun other => other.1 ≠ row.1) = rest := by
        refine List.filter_eq_self.mpr fun other hother => decide_eq_true fun heq => ?_
        exact hnodup.1 (heq ▸ List.mem_map_of_mem hother)
      simp only [KeyedTable.erase, hrows]
      rw [List.filter_cons_of_neg (by simp), hkeep]

/-- The block of `remove` takes the entry of the key out, if there is one. -/
theorem removeKey_cases (c : LruCache κ ν) (key : κ) :
    (∃ previous c', removeKey sizeOf c key = (c', some (some previous)) ∧
      c.map.rows.Perm ((key, previous) :: c'.map.rows) ∧
      c'.size = intOfLong (c.size - sizeOf key previous) ∧ c'.mMaxSize = c.mMaxSize ∧
      c'.map = c.map.erase key) ∨
    (removeKey sizeOf c key = (c, some none) ∧ key ∉ c.map.keys) := by
  cases hfound : c.map.lookup key with
  | some row =>
      obtain ⟨-, hkey⟩ := KeyedTable.lookup_eq_some hfound
      simp only [removeKey, hfound, safeSizeOf_eq hsize]
      refine .inl ⟨row.2, _, rfl, ?_, rfl, rfl, rfl⟩
      have hrow : (key, row.2) = row := Prod.ext hkey.symm rfl
      rw [hrow]
      exact KeyedTable.perm_erase hfound
  | none => exact .inr ⟨by simp only [removeKey, hfound], KeyedTable.lookup_eq_none.mp hfound⟩

end LruCache
end CardScanner
