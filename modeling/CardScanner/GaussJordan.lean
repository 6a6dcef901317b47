import Mathlib.LinearAlgebra.Matrix.NonsingularInverse
import Mathlib.LinearAlgebra.Matrix.ToLinearEquiv
import Mathlib.Algebra.Order.Field.Basic
import Mathlib.LinearAlgebra.Matrix.Notation
import Mathlib.Algebra.Order.AbsoluteValue.Basic
import Mathlib.Algebra.Order.Ring.Rat
import Mathlib.Algebra.Field.Rat

/-!
# Gauss-Jordan elimination

Leptonica's `gaussjordan` solves a linear system and inverts its matrix in place:
each step takes the largest entry that is in no used row or column as its pivot,
swaps its row to the diagonal and clears its column, which it overwrites with a
column of the inverse.  At the end the columns are swapped back.  The numbers are
those of an ordered field here, so that nothing is rounded.

Let `S` be the product of the row operations done so far.  In a used column, `S A` has
a unit vector and the array holds a column of `S`; in the other columns the array
holds `S A` (`Eliminated`).  No information on the kernel is lost, so a missing pivot
means that `A` is singular; and when all columns are used, `S A = 1`.
-/

namespace CardScanner

open Matrix

variable {n : ℕ} {K : Type*} [Field K] [LinearOrder K]

/-- The arrays of `gaussjordan`, and the rows and columns of the pivots, the
last first. -/
structure GaussState (n : ℕ) (K : Type*) where
  a : Matrix (Fin n) (Fin n) K
  b : Fin n → K
  ipiv : Fin n → ℕ
  index : List (Fin n × Fin n)

/-- The body of the innermost loop: an entry as large as the largest so far is
taken. -/
def takePivot (a : Matrix (Fin n) (Fin n) K) (best : K × Option (Fin n × Fin n))
    (entry : Fin n × Fin n) : K × Option (Fin n × Fin n) :=
  if |a entry.1 entry.2| ≥ best.1 then (|a entry.1 entry.2|, some entry) else best

/-- The search for a pivot; it fails on a column used twice. -/
def searchPivot (s : GaussState n K) : Option (K × Option (Fin n × Fin n)) :=
  (List.finRange n).foldlM (fun best j =>
    if s.ipiv j = 1 then some best
    else (List.finRange n).foldlM (fun best k =>
      if s.ipiv k = 0 then some (takePivot s.a best (j, k))
      else if s.ipiv k > 1 then none
      else some best) best) (0, none)

/-- The pivot's row is divided by the pivot, and the other rows lose their
multiple of it. -/
def eliminate (c : Fin n) (s : GaussState n K) : GaussState n K :=
  let pivinv := 1 / s.a c c
  let row col := (if col = c then 1 else s.a c col) * pivinv
  { s with
    a := fun r col =>
      if r = c then row col else (if col = c then 0 else s.a r col) - row col * s.a r c
    b := fun r => if r = c then s.b c * pivinv else s.b r - s.b c * pivinv * s.a r c }

/-- The pivot's column is used, and its row swapped to the diagonal. -/
def GaussState.swapped (s : GaussState n K) (irow icol : Fin n) : GaussState n K where
  a := s.a.submatrix (Equiv.swap irow icol) id
  b := s.b ∘ Equiv.swap irow icol
  ipiv := Function.update s.ipiv icol (s.ipiv icol + 1)
  index := (irow, icol) :: s.index

/-- One step of the elimination, and whether it went well. -/
def gaussStep (s : GaussState n K) : GaussState n K × Bool :=
  match searchPivot s with
  | some (_, some (irow, icol)) =>
      let t := s.swapped irow icol
      if t.a icol icol = 0 then (t, false) else (eliminate icol t, true)
  | _ => (s, false)

/-- The first loop: a step for each column, until one fails. -/
def gaussSteps : ℕ → GaussState n K → GaussState n K × Bool
  | 0, s => (s, true)
  | i + 1, s =>
      match gaussStep s with
      | (t, true) => gaussSteps i t
      | (t, false) => (t, false)

/-- The last loop: the columns are swapped back. -/
def unscramble (a : Matrix (Fin n) (Fin n) K) (index : List (Fin n × Fin n)) :
    Matrix (Fin n) (Fin n) K :=
  index.foldl (fun a p => a.submatrix id (Equiv.swap p.1 p.2)) a

/-- `gaussjordan`: the two arrays as it leaves them, and whether it returned
0. -/
def gaussjordan (a : Matrix (Fin n) (Fin n) K) (b : Fin n → K) :
    Matrix (Fin n) (Fin n) K × (Fin n → K) × Bool :=
  match gaussSteps n ⟨a, b, fun _ => 0, []⟩ with
  | (s, true) => (unscramble s.a s.index, s.b, true)
  | (s, false) => (s.a, s.b, false)

/-! ## The pivot -/

/-- What a scan takes: the last of the largest entries, or what it had if all
are less. -/
theorem foldl_takePivot (a : Matrix (Fin n) (Fin n) K) (entries : List (Fin n × Fin n))
    (best : K × Option (Fin n × Fin n)) :
    (entries.foldl (takePivot a) best = best ∧ ∀ q ∈ entries, |a q.1 q.2| < best.1) ∨
      ∃ p ∈ entries, entries.foldl (takePivot a) best = (|a p.1 p.2|, some p) ∧
        best.1 ≤ |a p.1 p.2| ∧ ∀ q ∈ entries, |a q.1 q.2| ≤ |a p.1 p.2| := by
  induction entries using List.reverseRecOn with
  | nil => exact .inl ⟨rfl, by simp⟩
  | append_singleton entries q ih =>
      rw [List.foldl_append, List.foldl_cons, List.foldl_nil]
      rcases ih with ⟨hbest, hless⟩ | ⟨p, hp, hbest, hle, hmax⟩
      · rw [hbest]
        by_cases hq : |a q.1 q.2| ≥ best.1
        · refine .inr ⟨q, by simp, if_pos hq, hq, fun other hother => ?_⟩
          rcases List.mem_append.mp hother with hin | hlast
          · exact (hless other hin).le.trans hq
          · rw [List.mem_singleton.mp hlast]
        · refine .inl ⟨if_neg hq, fun other hother => ?_⟩
          rcases List.mem_append.mp hother with hin | hlast
          · exact hless other hin
          · rw [List.mem_singleton.mp hlast]
            exact not_le.mp hq
      · rw [hbest]
        by_cases hq : |a q.1 q.2| ≥ |a p.1 p.2|
        · refine .inr ⟨q, by simp, if_pos hq, hle.trans hq, fun other hother => ?_⟩
          rcases List.mem_append.mp hother with hin | hlast
          · exact (hmax other hin).trans hq
          · rw [List.mem_singleton.mp hlast]
        · refine .inr ⟨p, List.mem_append_left _ hp, if_neg hq, hle, fun other hother => ?_⟩
          rcases List.mem_append.mp hother with hin | hlast
          · exact hmax other hin
          · rw [List.mem_singleton.mp hlast]
            exact (not_le.mp hq).le

/-- The entries a pivot is taken from. -/
def pivotEntries (ipiv : Fin n → ℕ) : List (Fin n × Fin n) :=
  (List.finRange n).flatMap fun j =>
    if ipiv j = 1 then [] else ((List.finRange n).filter fun k => ipiv k = 0).map (Prod.mk j)

/-- The entries among which the pivot is searched: of rows that have not been
used, in columns that have not. -/
theorem mem_pivotEntries {ipiv : Fin n → ℕ} {p : Fin n × Fin n} :
    p ∈ pivotEntries ipiv ↔ ipiv p.1 ≠ 1 ∧ ipiv p.2 = 0 := by
  unfold pivotEntries
  constructor
  · intro hp
    obtain ⟨j, -, hmem⟩ := List.mem_flatMap.mp hp
    split_ifs at hmem with hj
    · simp at hmem
    · obtain ⟨k, hk, rfl⟩ := List.mem_map.mp hmem
      exact ⟨hj, by simpa using (List.mem_filter.mp hk).2⟩
  · rintro ⟨hj, hk⟩
    refine List.mem_flatMap.mpr ⟨p.1, List.mem_finRange _, ?_⟩
    rw [if_neg hj]
    exact List.mem_map.mpr ⟨p.2, List.mem_filter.mpr ⟨List.mem_finRange _, by simpa using hk⟩, rfl⟩

/-- Where no column is used twice, the search is one scan over these entries. -/
theorem searchPivot_eq {s : GaussState n K} (hipiv : ∀ k, s.ipiv k ≤ 1) :
    searchPivot s = some ((pivotEntries s.ipiv).foldl (takePivot s.a) (0, none)) := by
  have hinner : ∀ (j : Fin n) (l : List (Fin n)) (best : K × Option (Fin n × Fin n)),
      l.foldlM (fun best k =>
        if s.ipiv k = 0 then some (takePivot s.a best (j, k))
        else if s.ipiv k > 1 then none
        else some best) best =
      some (((l.filter fun k => s.ipiv k = 0).map (Prod.mk j)).foldl (takePivot s.a) best) := by
    intro j l
    induction l with
    | nil => intro best; rfl
    | cons k l ih =>
        intro best
        have hk : ¬ s.ipiv k > 1 := not_lt.mpr (hipiv k)
        by_cases hzero : s.ipiv k = 0
        · rw [List.foldlM_cons, if_pos hzero, List.filter_cons_of_pos (by simpa using hzero)]
          exact ih _
        · rw [List.foldlM_cons, if_neg hzero, if_neg hk,
            List.filter_cons_of_neg (by simpa using hzero)]
          exact ih _
  have houter : ∀ (l : List (Fin n)) (best : K × Option (Fin n × Fin n)),
      l.foldlM (fun best j =>
        if s.ipiv j = 1 then some best
        else (List.finRange n).foldlM (fun best k =>
          if s.ipiv k = 0 then some (takePivot s.a best (j, k))
          else if s.ipiv k > 1 then none
          else some best) best) best =
      some ((l.flatMap fun j => if s.ipiv j = 1 then []
        else ((List.finRange n).filter fun k => s.ipiv k = 0).map (Prod.mk j)).foldl
          (takePivot s.a) best) := by
    intro l
    induction l with
    | nil => intro best; rfl
    | cons j l ih =>
        intro best
        rw [List.foldlM_cons, List.flatMap_cons, List.foldl_append]
        by_cases hj : s.ipiv j = 1
        · rw [if_pos hj, if_pos hj]
          exact ih _
        · rw [if_neg hj, if_neg hj, hinner]
          exact ih _
  exact houter _ _

/-! ## The row operation of a step -/

/-- Row `c` times `p`, and every other row less `v` of it times the new row
`c`. -/
def rowOperation (c : Fin n) (p : K) (v : Fin n → K) (M : Matrix (Fin n) (Fin n) K) :
    Matrix (Fin n) (Fin n) K :=
  fun r col => if r = c then M c col * p else M r col - M c col * p * v r

omit [LinearOrder K] in
/-- A row operation commutes with multiplication from the right: it combines
rows, which multiplication handles one by one. -/
theorem rowOperation_mul (c : Fin n) (p : K) (v : Fin n → K) (M N : Matrix (Fin n) (Fin n) K) :
    rowOperation c p v M * N = rowOperation c p v (M * N) := by
  ext r col
  simp only [rowOperation, Matrix.mul_apply]
  split_ifs
  · rw [Finset.sum_mul]
    exact Finset.sum_congr rfl fun k _ => by ring
  · rw [Finset.sum_mul, Finset.sum_mul, ← Finset.sum_sub_distrib]
    exact Finset.sum_congr rfl fun k _ => by ring

omit [LinearOrder K] in
/-- What a row operation does to a product, entry by entry. -/
theorem rowOperation_mulVec (c : Fin n) (p : K) (v : Fin n → K) (M : Matrix (Fin n) (Fin n) K)
    (x : Fin n → K) : rowOperation c p v M *ᵥ x =
      fun r => if r = c then (M *ᵥ x) c * p else (M *ᵥ x) r - (M *ᵥ x) c * p * v r := by
  funext r
  simp only [rowOperation, Matrix.mulVec, dotProduct]
  split_ifs
  · rw [Finset.sum_mul]
    exact Finset.sum_congr rfl fun k _ => by ring
  · rw [Finset.sum_mul, Finset.sum_mul, ← Finset.sum_sub_distrib]
    exact Finset.sum_congr rfl fun k _ => by ring

/-! ## The invariant -/

/-- Where the rows were before the swaps. -/
def pivotPerm : List (Fin n × Fin n) → Equiv.Perm (Fin n)
  | [] => 1
  | p :: index => pivotPerm index * Equiv.swap p.1 p.2

/-- `S` is the product of the row operations done so far. -/
structure Eliminated (A : Matrix (Fin n) (Fin n) K) (b₀ : Fin n → K)
    (S : Matrix (Fin n) (Fin n) K) (s : GaussState n K) : Prop where
  ipiv_le : ∀ k, s.ipiv k ≤ 1
  unit : ∀ c, s.ipiv c = 1 → ∀ r, (S * A) r c = if r = c then 1 else 0
  reduced : ∀ k, s.ipiv k = 0 → ∀ r, s.a r k = (S * A) r k
  inverse : ∀ c, s.ipiv c = 1 → ∀ r, s.a r c = S r (pivotPerm s.index c)
  fresh : ∀ c, s.ipiv c = 0 → ∀ r, S r (pivotPerm s.index c) = if r = c then 1 else 0
  rhs : s.b = S *ᵥ b₀
  kernel : ∀ x, (S * A) *ᵥ x = 0 → A *ᵥ x = 0

omit [LinearOrder K] in
/-- At the beginning no operation has been done. -/
theorem Eliminated.start (A : Matrix (Fin n) (Fin n) K) (b₀ : Fin n → K) :
    Eliminated A b₀ 1 ⟨A, b₀, fun _ => 0, []⟩ where
  ipiv_le _ := Nat.zero_le 1
  unit c hc := absurd hc zero_ne_one
  reduced k _ r := by rw [Matrix.one_mul]
  inverse c hc := absurd hc zero_ne_one
  fresh c _ r := Matrix.one_apply
  rhs := (Matrix.one_mulVec b₀).symm
  kernel x hx := by rwa [Matrix.one_mul] at hx

section Step

variable {A S : Matrix (Fin n) (Fin n) K} {b₀ : Fin n → K} {s : GaussState n K} {r₀ c₀ : Fin n}

omit [LinearOrder K]

/-- The pivot's column after a step. -/
theorem eliminate_pivot (r : Fin n) :
    (eliminate c₀ (s.swapped r₀ c₀)).a r c₀ =
      if r = c₀ then 1 / s.a r₀ c₀
      else -(1 / s.a r₀ c₀ * s.a (Equiv.swap r₀ c₀ r) c₀) := by
  simp only [eliminate, GaussState.swapped, Matrix.submatrix_apply, id_eq,
    Equiv.swap_apply_right, if_true]
  split_ifs
  · ring
  · ring

/-- The other columns undergo the row operation. -/
theorem eliminate_other {k : Fin n} (hk : k ≠ c₀) (r : Fin n) :
    (eliminate c₀ (s.swapped r₀ c₀)).a r k =
      rowOperation c₀ (1 / s.a r₀ c₀) (fun r => s.a (Equiv.swap r₀ c₀ r) c₀)
        (s.a.submatrix (Equiv.swap r₀ c₀) id) r k := by
  simp only [eliminate, GaussState.swapped, rowOperation, Matrix.submatrix_apply, id_eq,
    Equiv.swap_apply_right, if_neg hk]

omit [Field K] in
/-- A used column is not moved by the swap. -/
theorem swap_used {c : Fin n} (hr₀ : s.ipiv r₀ = 0) (hc₀ : s.ipiv c₀ = 0) (hc : s.ipiv c = 1) :
    Equiv.swap r₀ c₀ c = c := by
  refine Equiv.swap_apply_of_ne_of_ne ?_ ?_
  · rintro rfl
    omega
  · rintro rfl
    omega

omit [Field K] in
/-- A column not used yet is moved to one not used yet. -/
theorem swap_unused {c : Fin n} (hr₀ : s.ipiv r₀ = 0) (hc₀ : s.ipiv c₀ = 0) (hc : s.ipiv c = 0) :
    s.ipiv (Equiv.swap r₀ c₀ c) = 0 := by
  rw [Equiv.swap_apply_def]
  split_ifs
  · exact hc₀
  · exact hr₀
  · exact hc

/-- The rows of a matrix after a step: two are swapped, and the pivot's column
is cleared. -/
def GaussState.stepRows (s : GaussState n K) (r₀ c₀ : Fin n) (M : Matrix (Fin n) (Fin n) K) :
    Matrix (Fin n) (Fin n) K :=
  rowOperation c₀ (1 / s.a r₀ c₀) (fun r => s.a (Equiv.swap r₀ c₀ r) c₀)
    (M.submatrix (Equiv.swap r₀ c₀) id)

/-- The same for a whole step, with the exchange of rows before it. -/
theorem stepRows_mul (M N : Matrix (Fin n) (Fin n) K) :
    s.stepRows r₀ c₀ M * N = s.stepRows r₀ c₀ (M * N) := rowOperation_mul _ _ _ _ _

/-- A column used after a step is the pivot's or was used before. -/
theorem used_step {c : Fin n} (hc : (eliminate c₀ (s.swapped r₀ c₀)).ipiv c = 1) :
    c = c₀ ∨ s.ipiv c = 1 := by
  by_cases heq : c = c₀
  · exact .inl heq
  · exact .inr (by simpa [eliminate, GaussState.swapped, Function.update_of_ne heq] using hc)

/-- One not used then is not the pivot's and was not used before. -/
theorem unused_step {c : Fin n} (hc : (eliminate c₀ (s.swapped r₀ c₀)).ipiv c = 0) :
    c ≠ c₀ ∧ s.ipiv c = 0 := by
  by_cases heq : c = c₀
  · simp [eliminate, GaussState.swapped, heq] at hc
  · exact ⟨heq, by simpa [eliminate, GaussState.swapped, Function.update_of_ne heq] using hc⟩

/-- The pivot's column becomes a unit vector. -/
theorem stepRows_pivot {M : Matrix (Fin n) (Fin n) K} (hcolumn : ∀ r, M r c₀ = s.a r c₀)
    (hpivot : s.a r₀ c₀ ≠ 0) (r : Fin n) : s.stepRows r₀ c₀ M r c₀ = if r = c₀ then 1 else 0 := by
  simp only [GaussState.stepRows, rowOperation, Matrix.submatrix_apply, id_eq,
    Equiv.swap_apply_right]
  rw [hcolumn, hcolumn]
  split_ifs
  · exact mul_one_div_cancel hpivot
  · rw [mul_one_div_cancel hpivot, one_mul, sub_self]

/-- The unit vectors of the used columns stay: in such a column the row of the
new pivot has a zero. -/
theorem stepRows_unit {M : Matrix (Fin n) (Fin n) K} {c : Fin n} (hr₀ : s.ipiv r₀ = 0)
    (hc₀ : s.ipiv c₀ = 0) (hc : s.ipiv c = 1) (hunit : ∀ r, M r c = if r = c then 1 else 0)
    (r : Fin n) : s.stepRows r₀ c₀ M r c = if r = c then 1 else 0 := by
  have hfix := swap_used hr₀ hc₀ hc
  have hrow : Equiv.swap r₀ c₀ r = c ↔ r = c := by rw [Equiv.swap_apply_eq_iff, hfix]
  have hne : r₀ ≠ c := by
    rintro rfl
    omega
  simp only [GaussState.stepRows, rowOperation, Matrix.submatrix_apply, id_eq,
    Equiv.swap_apply_right]
  rw [hunit, hunit, if_neg hne, zero_mul, zero_mul, sub_zero]
  by_cases hr : r = c₀
  · have hne' : r ≠ c := by
      rintro rfl
      rw [hr] at hc
      omega
    rw [if_pos hr, if_neg hne']
  · rw [if_neg hr]
    exact if_congr hrow rfl rfl

/-- The pivot's column of the array becomes a column of the product. -/
theorem Eliminated.inverse_pivot (h : Eliminated A b₀ S s) (hr₀ : s.ipiv r₀ = 0) (r : Fin n) :
    (eliminate c₀ (s.swapped r₀ c₀)).a r c₀ =
      s.stepRows r₀ c₀ S r (pivotPerm (eliminate c₀ (s.swapped r₀ c₀)).index c₀) := by
  have hfresh := h.fresh r₀ hr₀
  rw [eliminate_pivot]
  simp only [GaussState.stepRows, rowOperation, Matrix.submatrix_apply, id_eq, eliminate,
    GaussState.swapped, pivotPerm, Equiv.Perm.mul_apply, Equiv.swap_apply_right, hfresh, if_true]
  split_ifs with hr hswap
  · rw [one_mul]
  · rw [Equiv.swap_apply_eq_iff, Equiv.swap_apply_left] at hswap
    exact absurd hswap hr
  · ring

/-- Those that were columns of the product stay so. -/
theorem Eliminated.inverse_used (h : Eliminated A b₀ S s) (hr₀ : s.ipiv r₀ = 0)
    (hc₀ : s.ipiv c₀ = 0) {c : Fin n} (hc : s.ipiv c = 1) (r : Fin n) :
    (eliminate c₀ (s.swapped r₀ c₀)).a r c =
      s.stepRows r₀ c₀ S r (pivotPerm (eliminate c₀ (s.swapped r₀ c₀)).index c) := by
  have hfix := swap_used hr₀ hc₀ hc
  have hne : c ≠ c₀ := by
    rintro rfl
    omega
  rw [eliminate_other hne]
  simp only [GaussState.stepRows, rowOperation, Matrix.submatrix_apply, id_eq, eliminate,
    GaussState.swapped, pivotPerm, Equiv.Perm.mul_apply, hfix, h.inverse c hc]

/-- The columns of the product that are still those of the unit matrix. -/
theorem Eliminated.fresh_step (h : Eliminated A b₀ S s) (hr₀ : s.ipiv r₀ = 0)
    (hc₀ : s.ipiv c₀ = 0) {c : Fin n} (hne : c ≠ c₀) (hc : s.ipiv c = 0) (r : Fin n) :
    s.stepRows r₀ c₀ S r (pivotPerm (eliminate c₀ (s.swapped r₀ c₀)).index c) =
      if r = c then 1 else 0 := by
  have hfresh := h.fresh (Equiv.swap r₀ c₀ c) (swap_unused hr₀ hc₀ hc)
  simp only [GaussState.stepRows, rowOperation, Matrix.submatrix_apply, id_eq, eliminate,
    GaussState.swapped, pivotPerm, Equiv.Perm.mul_apply, hfresh, EmbeddingLike.apply_eq_iff_eq,
    if_neg hne.symm, zero_mul, sub_zero]
  by_cases hr : r = c₀
  · rw [if_pos hr, if_neg (hr ▸ hne.symm)]
  · rw [if_neg hr]

/-- A step loses nothing of the kernel: the pivot's equation is only divided,
and multiples of it are taken from the others. -/
theorem kernel_stepRows {M : Matrix (Fin n) (Fin n) K} (hpivot : s.a r₀ c₀ ≠ 0) {x : Fin n → K}
    (hx : s.stepRows r₀ c₀ M *ᵥ x = 0) : M *ᵥ x = 0 := by
  rw [GaussState.stepRows, rowOperation_mulVec] at hx
  have hrows : ∀ i, (M.submatrix (Equiv.swap r₀ c₀) id *ᵥ x) i = (M *ᵥ x) (Equiv.swap r₀ c₀ i) :=
    fun i => rfl
  have hc : (M.submatrix (Equiv.swap r₀ c₀) id *ᵥ x) c₀ = 0 := by
    have hrow := congrFun hx c₀
    simpa [hpivot] using hrow
  funext i
  have hi := congrFun hx (Equiv.swap r₀ c₀ i)
  simp only [hc, zero_mul, sub_zero] at hi
  rw [hrows, Equiv.swap_apply_self] at hi
  split_ifs at hi with hcase
  · rw [hrows, Equiv.swap_apply_right] at hc
    rw [Equiv.swap_apply_eq_iff, Equiv.swap_apply_right] at hcase
    rw [hcase]
    exact hc
  · exact hi

/-- **One step.**  A pivot that is not zero, in a row and a column not used
yet, makes its column a unit vector and keeps those of the used columns. -/
theorem Eliminated.step (h : Eliminated A b₀ S s) (hr₀ : s.ipiv r₀ = 0) (hc₀ : s.ipiv c₀ = 0)
    (hpivot : s.a r₀ c₀ ≠ 0) :
    Eliminated A b₀ (s.stepRows r₀ c₀ S) (eliminate c₀ (s.swapped r₀ c₀)) where
  ipiv_le k := by
    by_cases heq : k = c₀
    · simp [eliminate, GaussState.swapped, heq, hc₀]
    · simpa [eliminate, GaussState.swapped, Function.update_of_ne heq] using h.ipiv_le k
  unit c hc r := by
    rw [stepRows_mul]
    rcases used_step hc with rfl | hused
    · exact stepRows_pivot (fun r => (h.reduced c hc₀ r).symm) hpivot r
    · exact stepRows_unit hr₀ hc₀ hused (h.unit c hused) r
  reduced k hk r := by
    obtain ⟨hne, hunused⟩ := unused_step hk
    rw [eliminate_other hne, stepRows_mul]
    simp only [GaussState.stepRows, rowOperation, Matrix.submatrix_apply, id_eq,
      h.reduced k hunused]
  inverse c hc r := by
    rcases used_step hc with rfl | hused
    · exact h.inverse_pivot hr₀ r
    · exact h.inverse_used hr₀ hc₀ hused r
  fresh c hc r := by
    obtain ⟨hne, hunused⟩ := unused_step hc
    exact h.fresh_step hr₀ hc₀ hne hunused r
  rhs := by
    rw [GaussState.stepRows, rowOperation_mulVec]
    funext r
    have hswap : ∀ i, (S.submatrix (Equiv.swap r₀ c₀) id *ᵥ b₀) i = s.b (Equiv.swap r₀ c₀ i) := by
      intro i
      rw [h.rhs]
      rfl
    simp only [eliminate, GaussState.swapped, Matrix.submatrix_apply, id_eq, Function.comp_apply,
      Equiv.swap_apply_right, hswap]
  kernel x hx := by
    rw [stepRows_mul] at hx
    exact h.kernel x (kernel_stepRows hpivot hx)

end Step

/-! ## No pivot -/

section Singular

variable {A S : Matrix (Fin n) (Fin n) K} {b₀ : Fin n → K} {s : GaussState n K}

omit [LinearOrder K] in
/-- Where a column not used yet has only zeros in the rows not used yet, it is
a combination of used columns: the matrix has a kernel. -/
theorem Eliminated.singular (h : Eliminated A b₀ S s) {k : Fin n} (hk : s.ipiv k = 0)
    (hzero : ∀ r, s.ipiv r = 0 → s.a r k = 0) : A.det = 0 := by
  let y : Fin n → K := fun i => if s.ipiv i = 1 then (S * A) i k else 0
  have hy : (S * A) *ᵥ y = y := by
    funext r
    have hterm : ∀ i, (S * A) r i * y i = if r = i then y r else 0 := by
      intro i
      by_cases hi : s.ipiv i = 1
      · simp only [y, h.unit i hi r]
        split_ifs with hri hr
        · rw [hri, one_mul]
        · exact absurd (hri ▸ hi) hr
        · rw [zero_mul]
      · simp only [y, if_neg hi, mul_zero]
        split_ifs with hri hr
        · exact absurd (hri ▸ hr) hi
        · rfl
        · rfl
    simp only [Matrix.mulVec, dotProduct, hterm, Finset.sum_ite_eq, Finset.mem_univ, if_true]
  have hkernel : A *ᵥ (Pi.single k 1 - y) = 0 := by
    refine h.kernel _ ?_
    rw [Matrix.mulVec_sub, hy, Matrix.mulVec_single_one]
    funext r
    rcases Nat.le_one_iff_eq_zero_or_eq_one.mp (h.ipiv_le r) with hr | hr
    · have hentry := h.reduced k hk r
      rw [hzero r hr] at hentry
      simp [y, hr, ← hentry]
    · simp [y, hr]
  refine Matrix.exists_mulVec_eq_zero_iff.mp ⟨_, fun heq => ?_, hkernel⟩
  have := congrFun heq k
  simp [y, hk] at this

end Singular

/-! ## The run -/

section Run

variable [IsStrictOrderedRing K] {A S : Matrix (Fin n) (Fin n) K} {b₀ : Fin n → K}
  {s : GaussState n K}

/-- The columns not used yet. -/
def unusedColumns (s : GaussState n K) : Finset (Fin n) :=
  Finset.univ.filter fun k => s.ipiv k = 0

/-- While a column is left, a step finds the matrix singular or uses one more
column. -/
theorem gaussStep_spec (h : Eliminated A b₀ S s) (hleft : (unusedColumns s).Nonempty) :
    ((gaussStep s).2 = false ∧ A.det = 0) ∨
      ((gaussStep s).2 = true ∧ (∃ S', Eliminated A b₀ S' (gaussStep s).1) ∧
        (unusedColumns (gaussStep s).1).card + 1 = (unusedColumns s).card) := by
  obtain ⟨k, hk⟩ := hleft
  have hkzero : s.ipiv k = 0 := by simpa [unusedColumns] using hk
  have hsearch := searchPivot_eq h.ipiv_le
  have hentry : ∀ r c, s.ipiv r = 0 → s.ipiv c = 0 → (r, c) ∈ pivotEntries s.ipiv :=
    fun r c hr hc => mem_pivotEntries.mpr ⟨hr ▸ zero_ne_one, hc⟩
  rcases foldl_takePivot s.a (pivotEntries s.ipiv) (0, none) with
    ⟨-, hless⟩ | ⟨p, hp, hbest, -, hmax⟩
  · exact absurd (hless _ (hentry k k hkzero hkzero)) (not_lt.mpr (abs_nonneg _))
  rw [hbest] at hsearch
  obtain ⟨hrow, hcol⟩ := mem_pivotEntries.mp hp
  have hrow' : s.ipiv p.1 = 0 := by
    have := h.ipiv_le p.1
    omega
  have hdiagonal : (s.swapped p.1 p.2).a p.2 p.2 = s.a p.1 p.2 := by
    simp [GaussState.swapped]
  by_cases hpivot : s.a p.1 p.2 = 0
  · refine .inl ⟨?_, h.singular hkzero fun r hr => ?_⟩
    · simp only [gaussStep, hsearch, hdiagonal, if_pos hpivot]
    · have hle := hmax (r, k) (hentry r k hr hkzero)
      rw [hpivot, abs_zero] at hle
      exact abs_eq_zero.mp (le_antisymm hle (abs_nonneg _))
  · have hstep : gaussStep s = (eliminate p.2 (s.swapped p.1 p.2), true) := by
      simp only [gaussStep, hsearch, hdiagonal, if_neg hpivot]
    rw [hstep]
    refine .inr ⟨rfl, ⟨_, h.step hrow' hcol hpivot⟩, ?_⟩
    have herase : unusedColumns (eliminate p.2 (s.swapped p.1 p.2)) =
        (unusedColumns s).erase p.2 := by
      ext c
      by_cases hc : c = p.2
      · simp [unusedColumns, eliminate, GaussState.swapped, hc]
      · simp [unusedColumns, eliminate, GaussState.swapped, hc]
    rw [herase]
    exact Finset.card_erase_add_one (by simpa [unusedColumns] using hcol)

/-- The steps go on until all columns are used, or find the matrix singular. -/
theorem gaussSteps_spec {i : ℕ} (h : Eliminated A b₀ S s) (hi : (unusedColumns s).card = i) :
    ((gaussSteps i s).2 = false ∧ A.det = 0) ∨
      ((gaussSteps i s).2 = true ∧ (∃ S', Eliminated A b₀ S' (gaussSteps i s).1) ∧
        unusedColumns (gaussSteps i s).1 = ∅) := by
  induction i generalizing s S with
  | zero => exact .inr ⟨rfl, ⟨S, h⟩, Finset.card_eq_zero.mp hi⟩
  | succ i ih =>
      have hleft : (unusedColumns s).Nonempty := Finset.card_pos.mp (by omega)
      cases hstep : gaussStep s with
      | mk t ok =>
          rcases gaussStep_spec h hleft with ⟨hok, hdet⟩ | ⟨hok, ⟨S', hS'⟩, hcard⟩
          · rw [hstep] at hok
            obtain rfl : ok = false := hok
            exact .inl ⟨by simp only [gaussSteps, hstep], hdet⟩
          · rw [hstep] at hok hS' hcard
            obtain rfl : ok = true := hok
            have hfewer : (unusedColumns t).card = i := by
              change (unusedColumns t).card + 1 = _ at hcard
              omega
            simp only [gaussSteps, hstep]
            exact ih hS' hfewer

omit [Field K] [LinearOrder K] [IsStrictOrderedRing K] in
/-- Swapping the columns back undoes the swaps of the rows. -/
theorem unscramble_eq {a S : Matrix (Fin n) (Fin n) K} {index : List (Fin n × Fin n)}
    (h : ∀ r c, a r c = S r (pivotPerm index c)) : unscramble a index = S := by
  induction index generalizing a with
  | nil => exact Matrix.ext h
  | cons p index ih =>
      refine ih fun r c => ?_
      have hswapped := h r (Equiv.swap p.1 p.2 c)
      rwa [pivotPerm, Equiv.Perm.mul_apply, Equiv.swap_apply_self] at hswapped

/-- Either the matrix is singular, or the arrays hold its inverse and the
solution. -/
theorem gaussjordan_cases (a : Matrix (Fin n) (Fin n) K) (b : Fin n → K) :
    ((gaussjordan a b).2.2 = false ∧ a.det = 0) ∨
      ((gaussjordan a b).2.2 = true ∧ (gaussjordan a b).1 * a = 1 ∧
        (gaussjordan a b).2.1 = (gaussjordan a b).1 *ᵥ b) := by
  have hall : (unusedColumns (⟨a, b, fun _ => 0, []⟩ : GaussState n K)).card = n := by
    simp [unusedColumns]
  have hrun := gaussSteps_spec (Eliminated.start a b) hall
  unfold gaussjordan
  cases hsteps : gaussSteps n (⟨a, b, fun _ => 0, []⟩ : GaussState n K) with
  | mk t ok =>
      rw [hsteps] at hrun
      rcases hrun with ⟨hok, hdet⟩ | ⟨hok, ⟨S, hS⟩, hnone⟩
      · obtain rfl : ok = false := hok
        exact .inl ⟨rfl, hdet⟩
      · obtain rfl : ok = true := hok
        change Eliminated a b S t at hS
        change unusedColumns t = ∅ at hnone
        have hused : ∀ c, t.ipiv c = 1 := by
          intro c
          have hle := hS.ipiv_le c
          have hc : c ∉ unusedColumns t := by simp [hnone]
          have hne : t.ipiv c ≠ 0 := by simpa [unusedColumns] using hc
          omega
        have hone : S * a = 1 := by
          ext r c
          rw [hS.unit c (hused c), Matrix.one_apply]
        have hinverse : unscramble t.a t.index = S :=
          unscramble_eq fun r c => hS.inverse c (hused c) r
        refine .inr ⟨rfl, ?_, ?_⟩
        · change unscramble t.a t.index * a = 1
          rw [hinverse, hone]
        · change t.b = unscramble t.a t.index *ᵥ b
          rw [hinverse, hS.rhs]

omit [LinearOrder K] [IsStrictOrderedRing K] in
theorem det_ne_zero_of_mul_eq_one {S a : Matrix (Fin n) (Fin n) K} (h : S * a = 1) :
    a.det ≠ 0 := by
  intro hzero
  have hproduct := congrArg Matrix.det h
  rw [Matrix.det_mul, hzero, mul_zero, Matrix.det_one] at hproduct
  exact zero_ne_one hproduct

/-- **`gaussjordan` solves the system and inverts the matrix.**  In exact
arithmetic it returns 0 if and only if the matrix is not singular; then the
array holds the inverse and the right side the solution. -/
theorem gaussjordan_correct (a : Matrix (Fin n) (Fin n) K) (b : Fin n → K) :
    ((gaussjordan a b).2.2 = true ↔ a.det ≠ 0) ∧
      ((gaussjordan a b).2.2 = true →
        (gaussjordan a b).1 = a⁻¹ ∧ a *ᵥ (gaussjordan a b).2.1 = b) := by
  rcases gaussjordan_cases a b with ⟨hok, hdet⟩ | ⟨hok, hone, hb⟩
  · simp [hok, hdet]
  · refine ⟨by simp [hok, det_ne_zero_of_mul_eq_one hone], fun _ => ⟨?_, ?_⟩⟩
    · exact (Matrix.inv_eq_left_inv hone).symm
    · rw [hb, Matrix.mulVec_mulVec, mul_eq_one_comm.mp hone, Matrix.one_mulVec]

/-- Two equations whose first pivot is off the diagonal. -/
def offDiagonal : Matrix (Fin 2) (Fin 2) ℚ := !![0, 3; 2, 1]

/-- A matrix with zeros on its diagonal, where rows have to be exchanged. -/
theorem gaussjordan_correct_two :
    ((gaussjordan offDiagonal ![6, 4]).2.2 = true ↔ offDiagonal.det ≠ 0) ∧
      ((gaussjordan offDiagonal ![6, 4]).2.2 = true →
        (gaussjordan offDiagonal ![6, 4]).1 = offDiagonal⁻¹ ∧
          offDiagonal *ᵥ (gaussjordan offDiagonal ![6, 4]).2.1 = ![6, 4]) :=
  gaussjordan_correct offDiagonal ![6, 4]

end Run

end CardScanner
