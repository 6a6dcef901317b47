import CardScanner.LineRuns
import Mathlib.Order.Defs.LinearOrder
import Mathlib.Order.Lattice

/-!
# The plateau around a position

Two walks, one to each side, find how far the positions around `m` pass; a
position is between their ends exactly if everything from it to `m` passes
(`mem_plateau_iff`).  A third loop takes the first position of a stretch at
which a function is least.
-/

namespace Plateau

open LineRuns

/-- Everything from the one position to the other passes. -/
def Joined (off : ℕ → Bool) (m i : ℕ) : Prop := ∀ j, min m i ≤ j → j ≤ max m i → off j = true

/-- The first position of the passing ones just before `m`. -/
def leftEnd (off : ℕ → Bool) : ℕ → ℕ
  | 0 => 0
  | i + 1 => if off i then leftEnd off i else i + 1

/-- The last position of the passing ones just behind `m`, below `n`. -/
def rightEnd (off : ℕ → Bool) (m n : ℕ) : ℕ := skip off (n - (m + 1)) (m + 1) - 1

variable {off : ℕ → Bool} {m n i : ℕ}

theorem leftEnd_succ (m : ℕ) :
    leftEnd off (m + 1) = if off m then leftEnd off m else m + 1 := rfl

/-- The search to the left ends where it began or further left. -/
theorem leftEnd_le (m : ℕ) : leftEnd off m ≤ m := by
  induction m with
  | zero => exact le_rfl
  | succ m ih =>
      unfold leftEnd
      split
      · exact ih.trans (Nat.le_succ m)
      · exact le_rfl

theorem leftEnd_le_iff (him : i ≤ m) :
    leftEnd off m ≤ i ↔ ∀ j, i ≤ j → j < m → off j = true := by
  induction m with
  | zero => simp [leftEnd]
  | succ m ih =>
      unfold leftEnd
      rcases him.lt_or_eq with hlt | rfl
      · split_ifs with hpass
        · rw [ih (Nat.le_of_lt_succ hlt)]
          constructor
          · intro h j hij hj
            rcases (Nat.le_of_lt_succ hj).lt_or_eq with hjm | rfl
            · exact h j hij hjm
            · exact hpass
          · intro h j hij hj
            exact h j hij (hj.trans (Nat.lt_succ_self m))
        · constructor
          · intro h
            omega
          · intro h
            exact absurd (h m (Nat.le_of_lt_succ hlt) (Nat.lt_succ_self m)) hpass
      · refine iff_of_true ?_ fun j hij hj => by omega
        split
        · exact (leftEnd_le m).trans (Nat.le_succ m)
        · exact le_rfl

/-- The search to the right ends where it began or further right. -/
theorem le_rightEnd : m ≤ rightEnd off m n := by
  have hle : m + 1 ≤ skip off (n - (m + 1)) (m + 1) := le_skip _ _
  unfold rightEnd
  omega

/-- It does not leave the array. -/
theorem rightEnd_lt (hm : m < n) : rightEnd off m n < n := by
  have hle : skip off (n - (m + 1)) (m + 1) ≤ m + 1 + (n - (m + 1)) := skip_le _ _
  unfold rightEnd
  omega

theorem le_rightEnd_iff (hmi : m ≤ i) (hin : i < n) :
    i ≤ rightEnd off m n ↔ ∀ j, m < j → j ≤ i → off j = true := by
  have hle : m + 1 ≤ skip off (n - (m + 1)) (m + 1) := le_skip _ _
  constructor
  · intro h j hmj hji
    have hskip : j < skip off (n - (m + 1)) (m + 1) := by
      unfold rightEnd at h
      omega
    exact passes_of_lt_skip hmj hskip
  · intro h
    rcases hmi.lt_or_eq with hlt | rfl
    · have hskip : i < skip off (n - (m + 1)) (m + 1) :=
        lt_skip_of_passes (by omega) fun q hq hqi => h q hq hqi
      unfold rightEnd
      omega
    · exact le_rightEnd

/-- **The plateau.**  Between the ends of the two walks from a passing
position are the positions that are joined to it: all on the way to them pass. -/
theorem mem_plateau_iff (hm : off m = true) (hin : i < n) :
    leftEnd off m ≤ i ∧ i ≤ rightEnd off m n ↔ Joined off m i := by
  rcases Nat.le_total i m with him | hmi
  · have hright : i ≤ rightEnd off m n := him.trans le_rightEnd
    rw [and_iff_left hright, leftEnd_le_iff him]
    unfold Joined
    rw [Nat.min_eq_right him, Nat.max_eq_left him]
    constructor
    · intro h j hij hjm
      rcases hjm.lt_or_eq with hlt | rfl
      · exact h j hij hlt
      · exact hm
    · intro h j hij hjm
      exact h j hij hjm.le
  · have hleft : leftEnd off m ≤ i := (leftEnd_le m).trans hmi
    rw [and_iff_right hleft, le_rightEnd_iff hmi hin]
    unfold Joined
    rw [Nat.min_eq_left hmi, Nat.max_eq_right hmi]
    constructor
    · intro h j hmj hji
      rcases hmj.lt_or_eq with hlt | rfl
      · exact h j hlt hji
      · exact hm
    · intro h j hmj hji
      exact h j hmj.le hji

section Lowest

variable {K : Type*} [LinearOrder K]

/-- The first of the `k` positions behind `start`, and of this, where `f` is
least. -/
def lowest (f : ℕ → K) (start k : ℕ) : ℕ :=
  (List.range' (start + 1) k).foldl (fun best i => if f i < f best then i else best) start

/-- What the loop keeps is the first place of the least value so far. -/
theorem lowest_spec (f : ℕ → K) (start k : ℕ) :
    start ≤ lowest f start k ∧ lowest f start k ≤ start + k ∧
      ∀ i, start ≤ i → i ≤ start + k → f (lowest f start k) ≤ f i ∧
        (i < lowest f start k → f (lowest f start k) < f i) := by
  induction k with
  | zero =>
      refine ⟨le_rfl, le_rfl, fun i hstart hi => ?_⟩
      obtain rfl : i = start := le_antisymm hi hstart
      exact ⟨le_rfl, fun hlt => absurd hlt (lt_irrefl _)⟩
  | succ k ih =>
      obtain ⟨hge, hle, hleast⟩ := ih
      have hnext : lowest f start (k + 1) =
          if f (start + 1 + k) < f (lowest f start k) then start + 1 + k
          else lowest f start k := by
        unfold lowest
        rw [List.range'_1_concat, List.foldl_append, List.foldl_cons, List.foldl_nil]
      rw [hnext]
      split_ifs with hlower
      · refine ⟨by omega, by omega, fun i hstart hi => ?_⟩
        rcases Nat.lt_or_ge i (start + 1 + k) with hlt | hge'
        · have hi' := (hleast i hstart (by omega)).1
          exact ⟨hlower.le.trans hi', fun _ => hlower.trans_le hi'⟩
        · obtain rfl : i = start + 1 + k := by omega
          exact ⟨le_rfl, fun hlt => absurd hlt (lt_irrefl _)⟩
      · refine ⟨hge, by omega, fun i hstart hi => ?_⟩
        rcases Nat.lt_or_ge i (start + 1 + k) with hlt | hge'
        · exact hleast i hstart (by omega)
        · obtain rfl : i = start + 1 + k := by omega
          exact ⟨not_lt.mp hlower, fun hlt => by omega⟩

end Lowest

end Plateau
