import CardScanner.Moments
import Mathlib.Algebra.Order.Field.Basic
import Mathlib.Tactic.Linarith

/-!
# The running statistics

`RunningStats` keeps a count, a mean and three sums of powers of deviations,
and updates them one number at a time (`push`) or by combining two of them
(`add`).  Exact rationals stand for the `double` fields.  The counts are
`long long`: `ll` is what an integer expression keeps of its value, `id` in
exact arithmetic and `longLong` in 64 bits.

Both updates compute the same thing, the statistics of a list (`statsOf`): the
new mean is the old one moved by some `t`, and each stored sum is the old sum
about the moved point (`Moments`), plus what the new numbers add.
-/

namespace CardScanner

open Moments hiding mean

/-! ## The source -/

/-- The fields of `RunningStats`. -/
@[ext] structure RunningStats where
  n : ℤ
  M1 : ℚ
  M2 : ℚ
  M3 : ℚ
  M4 : ℚ
  deriving DecidableEq, Repr

/-- What a `long long` keeps of an integer. -/
def longLong (v : ℤ) : ℤ := (v + 2 ^ 63) % 2 ^ 64 - 2 ^ 63

namespace RunningStats

/-- `Clear`. -/
def clear : RunningStats := ⟨0, 0, 0, 0, 0⟩

section Source

variable (ll : ℤ → ℤ)

/-- `Push`: `M4` and `M3` are updated before the moments they read. -/
def push (s : RunningStats) (x : ℚ) : RunningStats :=
  let n1 := s.n
  let n := ll (s.n + 1)
  let delta := x - s.M1
  let delta_n := delta / n
  let delta_n2 := delta_n * delta_n
  let term1 := delta * delta_n * n1
  let M1 := s.M1 + delta_n
  let M4 := s.M4 + (term1 * delta_n2 * ll (ll (ll (n * n) - ll (3 * n)) + 3) +
    6 * delta_n2 * s.M2 - 4 * delta_n * s.M3)
  let M3 := s.M3 + (term1 * delta_n * ll (n - 2) - 3 * delta_n * s.M2)
  let M2 := s.M2 + term1
  ⟨n, M1, M2, M3, M4⟩

/-- `operator+`, as it is written: the counts are of type `long long`, whose
products may wrap, and `ll` is what that does to a number. -/
def add (a b : RunningStats) : RunningStats :=
  let n := ll (0 + ll (a.n + b.n))
  let delta := b.M1 - a.M1
  let delta2 := delta * delta
  let delta3 := delta * delta2
  let delta4 := delta2 * delta2
  let M1 := (a.n * a.M1 + b.n * b.M1) / n
  let M2 := a.M2 + b.M2 + delta2 * a.n * b.n / n
  let M3 := a.M3 + b.M3 + delta3 * a.n * b.n * ll (a.n - b.n) / ll (n * n)
  let M3 := M3 + 3 * delta * (a.n * b.M2 - b.n * a.M2) / n
  let M4 := a.M4 + b.M4 + delta4 * a.n * b.n *
    ll (ll (ll (a.n * a.n) - ll (a.n * b.n)) + ll (b.n * b.n)) / ll (ll (n * n) * n)
  let M4 := M4 + (6 * delta2 * (ll (a.n * a.n) * b.M2 + ll (b.n * b.n) * a.M2) / ll (n * n) +
    4 * delta * (a.n * b.M3 - b.n * a.M3) / n)
  ⟨n, M1, M2, M3, M4⟩

/-- `operator+=`, which stores the sum. -/
def addAssign (s rhs : RunningStats) : RunningStats :=
  let combined := add ll s rhs
  combined

/-- `Mean`. -/
def mean (s : RunningStats) : ℚ := s.M1

/-- `Variance`, of a sample: with one number it divides by zero. -/
def variance (s : RunningStats) : ℚ := s.M2 / (s.n - 1)

/-- `PopulationVariance`. -/
def populationVariance (s : RunningStats) : ℚ := s.M2 / s.n

/-- Pushing the numbers of a list one after the other, from `Clear`. -/
def pushAll (xs : List ℚ) : RunningStats := xs.foldl (push ll) clear

end Source

/-! ## The statistics of a list -/

/-- What the five fields say about a list of numbers. -/
def statsOf (xs : List ℚ) : RunningStats where
  n := xs.length
  M1 := Moments.mean xs
  M2 := deviationSum 2 (Moments.mean xs) xs
  M3 := deviationSum 3 (Moments.mean xs) xs
  M4 := deviationSum 4 (Moments.mean xs) xs

theorem statsOf_nil : statsOf [] = clear := by
  simp [statsOf, clear]

theorem mean_push (xs : List ℚ) (x : ℚ) :
    Moments.mean (xs ++ [x]) = Moments.mean xs + (x - Moments.mean xs) / (xs.length + 1) := by
  have hN : (xs.length : ℚ) + 1 ≠ 0 := by positivity
  have hx : Moments.mean [x] = x := by simp [Moments.mean]
  rw [mean_append, hx, List.length_singleton, Nat.cast_one]
  field_simp
  ring

/-- A stored sum after a push: the old sum about the moved mean, and the new
number's own power. -/
theorem deviationSum_push (k : ℕ) (xs : List ℚ) (x : ℚ) :
    deviationSum k (Moments.mean (xs ++ [x])) (xs ++ [x]) =
      deviationSum k (Moments.mean xs + (x - Moments.mean xs) / (xs.length + 1)) xs +
        (x - (Moments.mean xs + (x - Moments.mean xs) / (xs.length + 1))) ^ k := by
  rw [mean_push, deviationSum_append, deviationSum_cons, deviationSum_nil, add_zero]

/-- **One push.**  In exact arithmetic `push` takes the statistics of a list
to those of the list with the number appended.  The sums of powers around the
new mean come from those around the old one by the shift lemmas of `Moments`. -/
theorem push_statsOf (xs : List ℚ) (x : ℚ) :
    push id (statsOf xs) x = statsOf (xs ++ [x]) := by
  have hN : (xs.length : ℚ) + 1 ≠ 0 := by positivity
  ext
  · simp [push, statsOf]
  · simp only [push, statsOf, id, mean_push]
    push_cast
    rfl
  · simp only [push, statsOf, id, deviationSum_push, deviationSum_two_shift]
    push_cast
    field_simp
    ring
  · simp only [push, statsOf, id, deviationSum_push, deviationSum_three_shift]
    push_cast
    field_simp
    ring
  · simp only [push, statsOf, id, deviationSum_push, deviationSum_four_shift]
    push_cast
    field_simp
    ring

theorem pushAll_append (ll : ℤ → ℤ) (xs : List ℚ) (x : ℚ) :
    pushAll ll (xs ++ [x]) = push ll (pushAll ll xs) x := by
  simp [pushAll]

/-- In exact arithmetic the run over a list ends in its statistics. -/
theorem pushAll_eq_statsOf (xs : List ℚ) : pushAll id xs = statsOf xs := by
  induction xs using List.reverseRecOn with
  | nil => exact statsOf_nil.symm
  | append_singleton xs x ih => rw [pushAll_append, ih, push_statsOf]

/-- **Streaming moments are batch moments.**  Numbers pushed from `Clear`, in
exact arithmetic, leave their count and, when there are any, their mean and the
sums of the second, third and fourth powers of their deviations from it. -/
theorem streaming_moments (xs : List ℚ) :
    (pushAll id xs).n = xs.length ∧
    (0 < (pushAll id xs).n →
      (pushAll id xs).M1 = xs.sum / xs.length ∧
      (pushAll id xs).M2 = (xs.map fun x => (x - xs.sum / xs.length) ^ 2).sum ∧
      (pushAll id xs).M3 = (xs.map fun x => (x - xs.sum / xs.length) ^ 3).sum ∧
      (pushAll id xs).M4 = (xs.map fun x => (x - xs.sum / xs.length) ^ 4).sum) := by
  rw [pushAll_eq_statsOf]
  refine ⟨rfl, fun _ => ⟨rfl, rfl, rfl, rfl⟩⟩

/-- What `Variance` and `PopulationVariance` return after a run. -/
theorem variance_pushAll (xs : List ℚ) :
    (pushAll id xs).mean = xs.sum / xs.length ∧
    (pushAll id xs).variance =
      (xs.map fun x => (x - xs.sum / xs.length) ^ 2).sum / (xs.length - 1) ∧
    (pushAll id xs).populationVariance =
      (xs.map fun x => (x - xs.sum / xs.length) ^ 2).sum / xs.length := by
  rw [pushAll_eq_statsOf]
  exact ⟨rfl, rfl, rfl⟩

/-! ## Combining -/

/-- A stored sum of a concatenation, each part moved to the common mean. -/
theorem deviationSum_mean_append (k : ℕ) {xs ys : List ℚ}
    (hN : (xs.length : ℚ) + ys.length ≠ 0) :
    deviationSum k (Moments.mean (xs ++ ys)) (xs ++ ys) =
      deviationSum k
          (Moments.mean xs +
            ys.length * (Moments.mean ys - Moments.mean xs) / (xs.length + ys.length)) xs +
        deviationSum k
          (Moments.mean ys +
            -(xs.length * (Moments.mean ys - Moments.mean xs) / (xs.length + ys.length))) ys := by
  have hleft : Moments.mean (xs ++ ys) = Moments.mean xs +
      ys.length * (Moments.mean ys - Moments.mean xs) / (xs.length + ys.length) := by
    rw [mean_append]
    field_simp
    ring
  have hright : Moments.mean (xs ++ ys) = Moments.mean ys +
      -(xs.length * (Moments.mean ys - Moments.mean xs) / (xs.length + ys.length)) := by
    rw [mean_append]
    field_simp
    ring
  rw [deviationSum_append]
  nth_rewrite 1 [hleft]
  rw [hright]

/-- **One combination.**  In exact arithmetic `add` takes the statistics of
two lists to those of their concatenation, when there is a number in it.  Both
sums of powers are shifted to the common mean and added. -/
theorem add_statsOf {xs ys : List ℚ} (hsome : xs ≠ [] ∨ ys ≠ []) :
    add id (statsOf xs) (statsOf ys) = statsOf (xs ++ ys) := by
  have hpos : 0 < xs.length + ys.length := by
    rcases hsome with hx | hy
    · have := List.length_pos_of_ne_nil hx
      omega
    · have := List.length_pos_of_ne_nil hy
      omega
  have hN : (xs.length : ℚ) + ys.length ≠ 0 := by exact_mod_cast hpos.ne'
  ext
  · simp [add, statsOf]
  · simp [add, statsOf, mean_append]
  · simp only [add, statsOf, id, deviationSum_mean_append 2 hN, deviationSum_two_shift]
    push_cast
    field_simp
    ring
  · simp only [add, statsOf, id, deviationSum_mean_append 3 hN, deviationSum_three_shift]
    push_cast
    field_simp
    ring
  · simp only [add, statsOf, id, deviationSum_mean_append 4 hN, deviationSum_four_shift]
    push_cast
    field_simp
    ring

/-! ## Counts in 64 bits -/

/-- A count that fits into 64 bits does not wrap around. -/
theorem longLong_of_lt {v : ℤ} (hlow : -2 ^ 63 ≤ v) (hhigh : v < 2 ^ 63) : longLong v = v := by
  unfold longLong
  omega

/-- Counts below `2 ^ 21` are those whose cube fits a `long long`. -/
theorem lt_of_cube_lt {N : ℕ} (hN : N ^ 3 < 2 ^ 63) : N < 2 ^ 21 := by
  by_contra hge
  have hcube : (2 ^ 21) ^ 3 ≤ N ^ 3 := Nat.pow_le_pow_left (not_lt.mp hge) 3
  omega

theorem longLong_mul {a b : ℤ} (ha : 0 ≤ a) (hab : a < 2 ^ 42) (hb : 0 ≤ b) (hbb : b < 2 ^ 21) :
    longLong (a * b) = a * b := by
  have hnonneg : 0 ≤ a * b := mul_nonneg ha hb
  have hlt : a * b < 2 ^ 42 * 2 ^ 21 := mul_lt_mul'' hab hbb ha hb
  exact longLong_of_lt (by omega) (by omega)

/-- With a small count `push` computes as in exact arithmetic, since no
product of the count leaves the range of a `long long`. -/
theorem push_longLong {s : RunningStats} (hn : 0 ≤ s.n) (hsmall : s.n + 1 < 2 ^ 21) (x : ℚ) :
    push longLong s x = push id s x := by
  have hsucc : longLong (s.n + 1) = s.n + 1 := longLong_of_lt (by omega) (by omega)
  have hsq : 0 ≤ (s.n + 1) * (s.n + 1) ∧ (s.n + 1) * (s.n + 1) < 2 ^ 42 := by
    constructor <;> nlinarith
  have hmul : longLong ((s.n + 1) * (s.n + 1)) = (s.n + 1) * (s.n + 1) :=
    longLong_of_lt (by omega) (by omega)
  have hthree : longLong (3 * (s.n + 1)) = 3 * (s.n + 1) := longLong_of_lt (by omega) (by omega)
  have hdiff : longLong ((s.n + 1) * (s.n + 1) - 3 * (s.n + 1)) =
      (s.n + 1) * (s.n + 1) - 3 * (s.n + 1) := longLong_of_lt (by omega) (by omega)
  have hpoly : longLong ((s.n + 1) * (s.n + 1) - 3 * (s.n + 1) + 3) =
      (s.n + 1) * (s.n + 1) - 3 * (s.n + 1) + 3 := longLong_of_lt (by omega) (by omega)
  have htwo : longLong (s.n + 1 - 2) = s.n + 1 - 2 := longLong_of_lt (by omega) (by omega)
  simp only [push, id, hsucc, hmul, hthree, hdiff, hpoly, htwo]

/-- With small counts `add` computes as in exact arithmetic, since no product
of the counts leaves the range of a `long long`. -/
theorem add_longLong {a b : RunningStats} (ha : 0 ≤ a.n) (hb : 0 ≤ b.n)
    (hsmall : a.n + b.n < 2 ^ 21) : add longLong a b = add id a b := by
  have hsum : longLong (0 + longLong (a.n + b.n)) = 0 + (a.n + b.n) := by
    rw [longLong_of_lt (v := a.n + b.n) (by omega) (by omega)]
    exact longLong_of_lt (by omega) (by omega)
  have hsq : 0 ≤ (0 + (a.n + b.n)) * (0 + (a.n + b.n)) ∧
      (0 + (a.n + b.n)) * (0 + (a.n + b.n)) < 2 ^ 42 := by
    constructor <;> nlinarith
  have haa : 0 ≤ a.n * a.n ∧ a.n * a.n < 2 ^ 42 := by constructor <;> nlinarith
  have hbb : 0 ≤ b.n * b.n ∧ b.n * b.n < 2 ^ 42 := by constructor <;> nlinarith
  have hab : 0 ≤ a.n * b.n ∧ a.n * b.n < 2 ^ 42 := by constructor <;> nlinarith
  have hN2 : longLong ((0 + (a.n + b.n)) * (0 + (a.n + b.n))) =
      (0 + (a.n + b.n)) * (0 + (a.n + b.n)) := longLong_of_lt (by omega) (by omega)
  have hN3 : longLong ((0 + (a.n + b.n)) * (0 + (a.n + b.n)) * (0 + (a.n + b.n))) =
      (0 + (a.n + b.n)) * (0 + (a.n + b.n)) * (0 + (a.n + b.n)) :=
    longLong_mul hsq.1 hsq.2 (by omega) (by omega)
  have hdiff : longLong (a.n - b.n) = a.n - b.n := longLong_of_lt (by omega) (by omega)
  have hllaa : longLong (a.n * a.n) = a.n * a.n := longLong_of_lt (by omega) (by omega)
  have hllbb : longLong (b.n * b.n) = b.n * b.n := longLong_of_lt (by omega) (by omega)
  have hllab : longLong (a.n * b.n) = a.n * b.n := longLong_of_lt (by omega) (by omega)
  have hmixed : longLong (a.n * a.n - a.n * b.n) = a.n * a.n - a.n * b.n :=
    longLong_of_lt (by omega) (by omega)
  have hpoly : longLong (a.n * a.n - a.n * b.n + b.n * b.n) =
      a.n * a.n - a.n * b.n + b.n * b.n := longLong_of_lt (by omega) (by omega)
  simp only [add, id, hsum, hN2, hN3, hdiff, hllaa, hllbb, hllab, hmixed, hpoly]

/-- The run in 64 bits, while the count stays small. -/
theorem pushAll_longLong (xs : List ℚ) (hsmall : xs.length < 2 ^ 21) :
    pushAll longLong xs = statsOf xs := by
  induction xs using List.reverseRecOn with
  | nil => exact statsOf_nil.symm
  | append_singleton xs x ih =>
      rw [List.length_append, List.length_singleton] at hsmall
      have hn : (statsOf xs).n = xs.length := rfl
      rw [pushAll_append, ih (by omega), push_longLong (by omega) (by omega), push_statsOf]

/-- **Merging agrees with streaming.**  For two runs, not both empty, whose
counts have integer products that fit, `operator+` and `operator+=` give the
statistics of one run over both lists. -/
theorem merge_eq_stream {xs ys : List ℚ} (hsome : xs ≠ [] ∨ ys ≠ [])
    (hfit : (xs.length + ys.length) ^ 3 < 2 ^ 63) :
    add longLong (pushAll longLong xs) (pushAll longLong ys) = pushAll longLong (xs ++ ys) ∧
    addAssign longLong (pushAll longLong xs) (pushAll longLong ys) =
      pushAll longLong (xs ++ ys) := by
  have hsmall : xs.length + ys.length < 2 ^ 21 := lt_of_cube_lt hfit
  have hxs : (statsOf xs).n = xs.length := rfl
  have hys : (statsOf ys).n = ys.length := rfl
  have hadd : add longLong (pushAll longLong xs) (pushAll longLong ys) =
      pushAll longLong (xs ++ ys) := by
    rw [pushAll_longLong xs (by omega), pushAll_longLong ys (by omega),
      pushAll_longLong (xs ++ ys) (by rw [List.length_append]; exact hsmall),
      add_longLong (by omega) (by omega) (by omega), add_statsOf hsome]
  exact ⟨hadd, hadd⟩

/-- The rule used at three numbers, split after the second. -/
theorem merge_eq_stream_three :
    add longLong (pushAll longLong [1, 2]) (pushAll longLong [6]) =
        pushAll longLong ([1, 2] ++ [6]) ∧
      addAssign longLong (pushAll longLong [1, 2]) (pushAll longLong [6]) =
        pushAll longLong ([1, 2] ++ [6]) :=
  merge_eq_stream (Or.inl (List.cons_ne_nil _ _)) (by norm_num)

end RunningStats

end CardScanner
