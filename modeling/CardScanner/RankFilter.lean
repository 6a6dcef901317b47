import CardScanner.Tiling
import Mathlib.Algebra.BigOperators.Intervals
import Mathlib.Algebra.BigOperators.Pi
import Mathlib.Algebra.BigOperators.Ring.Finset
import Mathlib.Algebra.Order.BigOperators.Group.Finset
import Mathlib.Data.Rat.Floor
import Mathlib.Tactic.Abel

/-!
# The rank filter

`pixRankFilterGray` keeps two histograms of the pixels in a window, a fine one and one of
sixteen bins, and carries them along a line or a column: what leaves the window is taken
out, what enters it is counted.  The value of a rank is then looked for in the sixteen bins
first.

The histograms are sums of one unit for each pixel of the window, so carrying them along is
the sliding of a sum (`sum_range_slide`), whichever way the picture is scanned, and the
search finds the value that the rank falls on (`rankValue_spec`).  So a pixel of the result
is told by how many pixels of its window are darker (`pixRankFilterGray_ranks`), and the
filter does not mind how the grays are spread.
-/

namespace CardScanner

open Finset

/-- `histo` and `histo16`. -/
abbrev Histos := (ℕ → ℤ) × (ℕ → ℤ)

/-- `histo[val] += d` and `histo16[val >> 4] += d`. -/
def countValue (d : ℤ) (histos : Histos) (val : UInt8) : Histos :=
  (Function.update histos.1 val.toNat (histos.1 val.toNat + d),
    Function.update histos.2 (val.toNat / 16) (histos.2 (val.toNat / 16) + d))

section Scan

variable (pixt : Raster UInt8) (wf hf : ℕ)

/-- "do full histo". -/
def fullHistos (j i : ℕ) : Histos :=
  (List.range hf).foldl (fun histos k => (List.range wf).foldl
    (fun histos m => countValue 1 histos (pixt.pixel (j + m) (i + k))) histos) 0

/-- The histograms at each line, going down a column: a line is removed and
one is added. -/
def histosDown (j : ℕ) : ℕ → Histos
  | 0 => fullHistos pixt wf hf j 0
  | i + 1 =>
      let histos := (List.range wf).foldl
        (fun histos m => countValue (-1) histos (pixt.pixel (j + m) i)) (histosDown j i)
      (List.range wf).foldl
        (fun histos m => countValue 1 histos (pixt.pixel (j + m) (i + 1 + hf - 1))) histos

/-- The histograms at each column, going along a line. -/
def histosAcross (i : ℕ) : ℕ → Histos
  | 0 => fullHistos pixt wf hf 0 i
  | j + 1 =>
      (List.range hf).foldl (fun histos k =>
        countValue 1 (countValue (-1) histos (pixt.pixel j (i + k)))
          (pixt.pixel (j + 1 + wf - 1) (i + k))) (histosAcross i j)

end Scan

/-- The loop of both searches: the first bin with which the sum passes
`rankloc`, and the sum before it. -/
def firstAbove (histo : ℕ → ℤ) (rankloc : ℤ) : ℕ → ℕ → ℤ → Option (ℕ × ℤ)
  | 0, _, _ => none
  | k + 1, n, sum =>
      if sum + histo n > rankloc then some (n, sum)
      else firstAbove histo rankloc k (n + 1) (sum + histo n)

/-- "Find the rank value". -/
def rankValue (histos : Histos) (rankloc : ℤ) : Option ℕ :=
  (firstAbove histos.2 rankloc 16 0 0).bind fun (n, sum) =>
    (firstAbove histos.1 rankloc 16 (16 * n) sum).map (·.1)

/-- `pixRankFilterGray`, for a rank between 0 and 1; a pixel that is not set
stays 0. -/
def pixRankFilterGray (pixs : Raster UInt8) (wf hf : ℕ) (rank : ℚ) : Option (Raster UInt8) :=
  if wf < 1 ∨ hf < 1 ∨ rank ≤ 0 ∨ 1 ≤ rank then none
  else if wf = 1 ∧ hf = 1 then some pixs
  else
    (pixAddMirroredBorder pixs (wf / 2) (wf / 2) (hf / 2) (hf / 2)).map fun pixt =>
      { width := pixs.width
        height := pixs.height
        pixel := fun j i =>
          let histos :=
            if hf > wf then histosDown pixt wf hf j i else histosAcross pixt wf hf i j
          UInt8.ofNat ((rankValue histos ⌊rank * wf * hf⌋).getD 0) }

def pixMedianFilter (pixs : Raster UInt8) (wf hf : ℕ) : Option (Raster UInt8) :=
  pixRankFilterGray pixs wf hf (1 / 2)

/-! ## Sliding sums -/

theorem foldl_range_add {M : Type*} [AddCommMonoid M] (f : ℕ → M) (start : M) (k : ℕ) :
    (List.range k).foldl (fun s m => s + f m) start = start + ∑ m ∈ range k, f m := by
  induction k with
  | zero => simp
  | succ k ih =>
      rw [List.range_succ, List.foldl_append, ih, List.foldl_cons, List.foldl_nil,
        sum_range_succ, add_assoc]

/-- One term leaves a sliding sum and one enters it. -/
theorem sum_range_slide {M : Type*} [AddCommGroup M] (f : ℕ → M) (n i : ℕ) :
    ∑ k ∈ range n, f (i + 1 + k) = ∑ k ∈ range n, f (i + k) - f i + f (i + n) := by
  have hfirst := sum_range_succ' (fun k => f (i + k)) n
  rw [sum_range_succ] at hfirst
  have hshift : ∀ k, i + 1 + k = i + (k + 1) := fun k => by omega
  simp only [hshift, add_zero] at hfirst ⊢
  rw [sub_add_eq_add_sub, hfirst, add_sub_cancel_right]

/-- One pixel in the two histograms. -/
def unitHistos (val : UInt8) : Histos :=
  (fun n => if n = val.toNat then 1 else 0, fun n => if n = val.toNat / 16 then 1 else 0)

/-- What `++` counts. -/
theorem countValue_one (histos : Histos) (val : UInt8) :
    countValue 1 histos val = histos + unitHistos val := by
  refine Prod.ext (funext fun n => ?_) (funext fun n => ?_)
  · simp only [countValue, unitHistos, Function.update_apply, Prod.fst_add, Pi.add_apply]
    split_ifs with h <;> simp [h]
  · simp only [countValue, unitHistos, Function.update_apply, Prod.snd_add, Pi.add_apply]
    split_ifs with h <;> simp [h]

/-- What `--` takes out. -/
theorem countValue_neg_one (histos : Histos) (val : UInt8) :
    countValue (-1) histos val = histos + -unitHistos val := by
  refine Prod.ext (funext fun n => ?_) (funext fun n => ?_)
  · simp only [countValue, unitHistos, Function.update_apply, Prod.fst_add, Prod.fst_neg,
      Pi.add_apply, Pi.neg_apply]
    split_ifs with h <;> simp [h]
  · simp only [countValue, unitHistos, Function.update_apply, Prod.snd_add, Prod.snd_neg,
      Pi.add_apply, Pi.neg_apply]
    split_ifs with h <;> simp [h]

section Window

variable (pixt : Raster UInt8) (wf hf : ℕ)

/-- The histograms of a window. -/
def windowHistos (j i : ℕ) : Histos :=
  ∑ k ∈ range hf, ∑ m ∈ range wf, unitHistos (pixt.pixel (j + m) (i + k))

/-- The histograms counted anew for a window are those of the window. -/
theorem fullHistos_eq (j i : ℕ) : fullHistos pixt wf hf j i = windowHistos pixt wf hf j i := by
  simp only [fullHistos, countValue_one, foldl_range_add, zero_add]
  rfl

/-- Down a column, the histograms are those of the window. -/
theorem histosDown_eq (j i : ℕ) : histosDown pixt wf hf j i = windowHistos pixt wf hf j i := by
  induction i with
  | zero => exact fullHistos_eq pixt wf hf j 0
  | succ i ih =>
      have hslide := sum_range_slide
        (fun y => ∑ m ∈ range wf, unitHistos (pixt.pixel (j + m) y)) hf i
      have hadded : i + 1 + hf - 1 = i + hf := by omega
      simp only [histosDown, countValue_one, countValue_neg_one, foldl_range_add, ih, hadded,
        sum_neg_distrib]
      simp only [windowHistos, hslide]
      abel

/-- Along a line as well: what the moving histogram holds is the histogram of
the window. -/
theorem histosAcross_eq (j i : ℕ) :
    histosAcross pixt wf hf i j = windowHistos pixt wf hf j i := by
  induction j with
  | zero => exact fullHistos_eq pixt wf hf 0 i
  | succ j ih =>
      have hadded : j + (1 + wf) - 1 = j + wf := by omega
      have hslide : ∀ k, ∑ m ∈ range wf, unitHistos (pixt.pixel (j + 1 + m) (i + k)) =
          ∑ m ∈ range wf, unitHistos (pixt.pixel (j + m) (i + k)) +
            (-unitHistos (pixt.pixel j (i + k)) + unitHistos (pixt.pixel (j + wf) (i + k))) := by
        intro k
        rw [sum_range_slide fun x => unitHistos (pixt.pixel x (i + k))]
        abel
      simp only [histosAcross, countValue_one, countValue_neg_one, hadded, add_assoc,
        foldl_range_add, ih]
      simp only [windowHistos, hslide, sum_add_distrib]

/-- The pixels of a window that are darker than a gray. -/
def countBelow (j i v : ℕ) : ℕ :=
  ∑ k ∈ range hf, ∑ m ∈ range wf, if (pixt.pixel (j + m) (i + k)).toNat < v then 1 else 0

/-- The fine bins below a gray. -/
theorem sum_windowHistos (j i v : ℕ) :
    ∑ n ∈ range v, (windowHistos pixt wf hf j i).1 n = countBelow pixt wf hf j i v := by
  simp only [windowHistos, Prod.fst_sum, Finset.sum_apply, unitHistos, countBelow]
  rw [sum_comm]
  push_cast
  refine sum_congr rfl fun k _ => ?_
  rw [sum_comm]
  refine sum_congr rfl fun m _ => ?_
  simp [sum_ite_eq', mem_range]

/-- A bin of the sixteen is sixteen fine bins, whatever window has been
counted. -/
theorem windowHistos_coarse (j i n : ℕ) :
    (windowHistos pixt wf hf j i).2 n =
      ∑ t ∈ range 16, (windowHistos pixt wf hf j i).1 (16 * n + t) := by
  symm
  simp only [windowHistos, Prod.fst_sum, Prod.snd_sum, Finset.sum_apply, unitHistos]
  rw [sum_comm]
  refine sum_congr rfl fun k _ => ?_
  rw [sum_comm]
  refine sum_congr rfl fun m _ => ?_
  generalize (pixt.pixel (j + m) (i + k)).toNat = val
  have hbin : ∀ t ∈ range 16, (16 * n + t = val ↔ n = val / 16 ∧ t = val % 16) := by
    intro t ht
    rw [mem_range] at ht
    omega
  rw [sum_congr rfl fun t ht => if_congr (hbin t ht) rfl rfl]
  by_cases hn : n = val / 16
  · simp [hn, Nat.mod_lt]
  · simp [hn]

/-- Every pixel of a window is below 256. -/
theorem countBelow_all (j i : ℕ) : countBelow pixt wf hf j i 256 = wf * hf := by
  have hbyte : ∀ x y, (pixt.pixel x y).toNat < 256 := fun x y => (pixt.pixel x y).toNat_lt
  simp [countBelow, hbyte, mul_comm]

end Window

/-! ## The search -/

/-- The bin that a rank falls into: the bins before it do not reach the rank,
and with it they exceed it. -/
theorem firstAbove_spec {histo : ℕ → ℤ} {rankloc : ℤ} {k n : ℕ} {sum : ℤ} (hle : sum ≤ rankloc)
    (hlt : rankloc < sum + ∑ t ∈ range k, histo (n + t)) :
    ∃ t < k, firstAbove histo rankloc k n sum =
        some (n + t, sum + ∑ u ∈ range t, histo (n + u)) ∧
      sum + ∑ u ∈ range t, histo (n + u) ≤ rankloc ∧
      rankloc < sum + ∑ u ∈ range (t + 1), histo (n + u) := by
  induction k generalizing n sum with
  | zero => simp at hlt; omega
  | succ k ih =>
      unfold firstAbove
      by_cases hfound : sum + histo n > rankloc
      · rw [if_pos hfound]
        exact ⟨0, Nat.succ_pos k, by simp, by simpa using hle, by simpa using hfound⟩
      · rw [if_neg hfound]
        have hshift : ∀ l, sum + histo n + ∑ u ∈ range l, histo (n + 1 + u) =
            sum + ∑ u ∈ range (l + 1), histo (n + u) := by
          intro l
          rw [sum_range_succ' (fun u => histo (n + u)), add_assoc, add_comm (histo n), add_zero]
          simp only [add_assoc, add_comm 1]
        obtain ⟨t, ht, hrun, hbefore, hafter⟩ := @ih (n + 1) (sum + histo n)
          (not_lt.mp hfound) (by rw [hshift]; exact hlt)
        rw [hshift] at hrun hbefore hafter
        exact ⟨t + 1, by omega, by rw [hrun, add_assoc n, add_comm 1], hbefore, hafter⟩

/-- **The value of a rank**: so many of the pixels are darker, and more are
not lighter.  The search in sixteen coarse bins finds the bin, and the search
in its fine bins goes on from the count before it. -/
theorem rankValue_spec {histos : Histos} {rankloc : ℤ}
    (hcoarse : ∀ n, histos.2 n = ∑ t ∈ range 16, histos.1 (16 * n + t)) (hle : 0 ≤ rankloc)
    (hlt : rankloc < ∑ n ∈ range 256, histos.1 n) :
    ∃ v < 256, rankValue histos rankloc = some v ∧ ∑ n ∈ range v, histos.1 n ≤ rankloc ∧
      rankloc < ∑ n ∈ range (v + 1), histos.1 n := by
  have hsum : ∀ n, ∑ u ∈ range n, histos.2 u = ∑ u ∈ range (16 * n), histos.1 u := by
    intro n
    induction n with
    | zero => simp
    | succ n ih => rw [sum_range_succ, ih, hcoarse, Nat.mul_succ, sum_range_add]
  obtain ⟨n, hn, hrun, hbefore, hafter⟩ := @firstAbove_spec histos.2 rankloc 16 0 0
    hle (by simpa [hsum 16] using hlt)
  simp only [zero_add, hsum] at hrun hbefore hafter
  rw [Nat.mul_succ, sum_range_add] at hafter
  obtain ⟨t, ht, hrun', hbefore', hafter'⟩ := firstAbove_spec hbefore hafter
  rw [← sum_range_add] at hbefore' hafter'
  refine ⟨16 * n + t, by omega, ?_, hbefore', hafter'⟩
  simp only [rankValue, hrun, Option.bind_some, hrun', Option.map_some]

/-! ## The filter -/

/-- The pixels of the window over a pixel, mirrored at the border of the
picture, that are darker than a gray. -/
def darker (pixs : Raster UInt8) (wf hf j i v : ℕ) : ℕ :=
  ∑ k ∈ range hf, ∑ m ∈ range wf,
    if (pixs.pixel (mirror (wf / 2) pixs.width (j + m))
      (mirror (hf / 2) pixs.height (i + k))).toNat < v then 1 else 0

/-- A gray has a rank: so many pixels of the window are darker, and more are
not lighter. -/
def HasRank (pixs : Raster UInt8) (wf hf j i : ℕ) (rankloc : ℤ) (v : UInt8) : Prop :=
  darker pixs wf hf j i v.toNat ≤ rankloc ∧ rankloc < darker pixs wf hf j i (v.toNat + 1)

theorem indicator_le {p q : Prop} [Decidable p] [Decidable q] (h : p → q) :
    (if p then 1 else 0) ≤ if q then 1 else 0 := by
  by_cases hp : p
  · rw [if_pos hp, if_pos (h hp)]
  · rw [if_neg hp]
    exact Nat.zero_le _

section Filter

variable {pixs : Raster UInt8} {wf hf j i : ℕ} {rankloc : ℤ} {rank : ℚ}

theorem darker_mono {v v' : ℕ} (h : v ≤ v') :
    darker pixs wf hf j i v ≤ darker pixs wf hf j i v' := by
  unfold darker
  exact sum_le_sum fun k _ => sum_le_sum fun m _ => indicator_le fun hlt => hlt.trans_le h

/-- No two grays have one rank. -/
theorem HasRank.unique {v v' : UInt8} (h : HasRank pixs wf hf j i rankloc v)
    (h' : HasRank pixs wf hf j i rankloc v') : v = v' := by
  have hle : ∀ {u u' : UInt8}, HasRank pixs wf hf j i rankloc u →
      HasRank pixs wf hf j i rankloc u' → u.toNat ≤ u'.toNat := by
    intro u u' hu hu'
    by_contra hlt
    have hmono := @darker_mono pixs wf hf j i (u'.toNat + 1) u.toNat (by omega)
    have h1 := hu.1
    have h2 := hu'.2
    omega
  exact UInt8.toNat_inj.mp (le_antisymm (hle h h') (hle h' h))

/-- A rank strictly between 0 and 1 asks for a pixel that the window has. -/
theorem rankloc_mem (hwf : 0 < wf) (hhf : 0 < hf) (hrank : 0 < rank) (hrank' : rank < 1) :
    0 ≤ ⌊rank * wf * hf⌋ ∧ ⌊rank * wf * hf⌋ < wf * hf := by
  have hw : (0 : ℚ) < wf := by exact_mod_cast hwf
  have hh : (0 : ℚ) < hf := by exact_mod_cast hhf
  constructor
  · exact Int.floor_nonneg.mpr (by positivity)
  · rw [Int.floor_lt]
    push_cast
    rw [mul_assoc]
    exact mul_lt_of_lt_one_left (mul_pos hw hh) hrank'

/-- Alone in its window, a pixel has every rank. -/
theorem hasRank_one (hj : j < pixs.width) (hi : i < pixs.height) (hle : 0 ≤ rankloc)
    (hlt : rankloc < 1) : HasRank pixs 1 1 j i rankloc (pixs.pixel j i) := by
  have hx : mirror 0 pixs.width j = j := by simpa using @mirror_inner 0 pixs.width j hj
  have hy : mirror 0 pixs.height i = i := by simpa using @mirror_inner 0 pixs.height i hi
  simp only [HasRank, darker, range_one, sum_singleton, add_zero, Nat.reduceDiv, hx, hy]
  constructor
  · simpa using hle
  · rw [if_pos (Nat.lt_succ_self _)]
    simpa using hlt

/-- Each pixel of the result has the rank in its window, where the window's
half fits into the picture. -/
theorem pixRankFilterGray_spec (hwf : 0 < wf) (hhf : 0 < hf) (hrank : 0 < rank) (hrank' : rank < 1)
    (hw : wf / 2 ≤ pixs.width) (hh : hf / 2 ≤ pixs.height) :
    ∃ pixd, pixRankFilterGray pixs wf hf rank = some pixd ∧ pixd.width = pixs.width ∧
      pixd.height = pixs.height ∧ ∀ j < pixs.width, ∀ i < pixs.height,
        HasRank pixs wf hf j i ⌊rank * wf * hf⌋ (pixd.pixel j i) := by
  obtain ⟨hle, hlt⟩ := rankloc_mem hwf hhf hrank hrank'
  have hargs : ¬ (wf < 1 ∨ hf < 1 ∨ rank ≤ 0 ∨ 1 ≤ rank) := by
    intro h
    obtain h | h | h | h := h
    · omega
    · omega
    · linarith
    · linarith
  unfold pixRankFilterGray
  rw [if_neg hargs]
  by_cases hone : wf = 1 ∧ hf = 1
  · obtain ⟨rfl, rfl⟩ := hone
    push_cast at hlt
    exact ⟨pixs, if_pos ⟨rfl, rfl⟩, rfl, rfl, fun j hj i hi =>
      hasRank_one hj hi hle (by simpa using hlt)⟩
  rw [if_neg hone]
  obtain ⟨pixt, hborder, -, -, hpixel⟩ := pixAddMirroredBorder_spec hw hw hh hh
  rw [hborder, Option.map_some]
  refine ⟨_, rfl, rfl, rfl, fun j hj i hi => ?_⟩
  have hscan : (if hf > wf then histosDown pixt wf hf j i else histosAcross pixt wf hf i j) =
      windowHistos pixt wf hf j i := by
    rw [histosDown_eq, histosAcross_eq, ite_self]
  have hwindow : ∀ v, countBelow pixt wf hf j i v = darker pixs wf hf j i v := by
    intro v
    refine sum_congr rfl fun k hk => sum_congr rfl fun m hm => ?_
    rw [mem_range] at hk hm
    rw [hpixel (j + m) (by omega) (i + k) (by omega)]
  obtain ⟨v, hv, hvalue, hbefore, hafter⟩ := rankValue_spec
    (windowHistos_coarse pixt wf hf j i) hle
    (by rw [sum_windowHistos, countBelow_all]; exact_mod_cast hlt)
  rw [sum_windowHistos, hwindow] at hbefore hafter
  have hbyte : (UInt8.ofNat v).toNat = v := by
    rw [UInt8.toNat_ofNat', Nat.mod_eq_of_lt hv]
  simp only [hscan, hvalue, Option.getD_some]
  unfold HasRank
  rw [hbyte]
  exact ⟨hbefore, hafter⟩

/-- A picture with other grays. -/
def mapGray (f : UInt8 → UInt8) (pixs : Raster UInt8) : Raster UInt8 :=
  ⟨pixs.width, pixs.height, fun x y => f (pixs.pixel x y)⟩

/-- What does not change the order of the grays does not change their ranks. -/
theorem HasRank.map {f : UInt8 → UInt8} (hf' : ∀ u v, u ≤ v → f u ≤ f v) {v : UInt8}
    (h : HasRank pixs wf hf j i rankloc v) : HasRank (mapGray f pixs) wf hf j i rankloc (f v) := by
  have hless : ∀ u : UInt8, (f u).toNat < (f v).toNat → u.toNat < v.toNat := by
    intro u hlt
    by_contra hge
    have hmono : f v ≤ f u := hf' _ _ (UInt8.le_iff_toNat_le.mpr (not_lt.mp hge))
    exact absurd (UInt8.le_iff_toNat_le.mp hmono) (not_le.mpr hlt)
  have hmore : ∀ u : UInt8, u.toNat < v.toNat + 1 → (f u).toNat < (f v).toNat + 1 := by
    intro u hle
    have hmono : f u ≤ f v := hf' _ _ (UInt8.le_iff_toNat_le.mpr (Nat.le_of_lt_succ hle))
    exact Nat.lt_succ_of_le (UInt8.le_iff_toNat_le.mp hmono)
  obtain ⟨hbefore, hafter⟩ := h
  constructor
  · refine le_trans ?_ hbefore
    norm_cast
    exact sum_le_sum fun k _ => sum_le_sum fun m _ => indicator_le (hless _)
  · refine lt_of_lt_of_le hafter ?_
    norm_cast
    exact sum_le_sum fun k _ => sum_le_sum fun m _ => indicator_le (hmore _)

end Filter

/-- **The rank filter.**  However the picture is scanned, each pixel of the
result is the gray of the rank in the pixel's window, mirrored at the border.
So making a picture lighter or darker, in any way that keeps the order of the
grays, before the filter or after it is the same. -/
theorem pixRankFilterGray_ranks {pixs : Raster UInt8} {wf hf : ℕ} {rank : ℚ} (hwf : 0 < wf)
    (hhf : 0 < hf) (hrank : 0 < rank) (hrank' : rank < 1) (hw : wf / 2 ≤ pixs.width)
    (hh : hf / 2 ≤ pixs.height) :
    ∃ pixd, pixRankFilterGray pixs wf hf rank = some pixd ∧
      (pixd.width = pixs.width ∧ pixd.height = pixs.height) ∧
      (∀ j < pixs.width, ∀ i < pixs.height, ∀ v,
        v = pixd.pixel j i ↔ HasRank pixs wf hf j i ⌊rank * wf * hf⌋ v) ∧
      ∀ f : UInt8 → UInt8, (∀ u v, u ≤ v → f u ≤ f v) →
        ∃ pixd', pixRankFilterGray (mapGray f pixs) wf hf rank = some pixd' ∧
          ∀ j < pixs.width, ∀ i < pixs.height, pixd'.pixel j i = f (pixd.pixel j i) := by
  obtain ⟨pixd, hrun, hwidth, hheight, hranks⟩ :=
    pixRankFilterGray_spec hwf hhf hrank hrank' hw hh
  refine ⟨pixd, hrun, ⟨hwidth, hheight⟩, ?_, ?_⟩
  · intro j hj i hi v
    constructor
    · intro hv
      exact hv ▸ hranks j hj i hi
    · intro hv
      exact hv.unique (hranks j hj i hi)
  · intro f hf'
    obtain ⟨pixd', hrun', -, -, hranks'⟩ :=
      @pixRankFilterGray_spec (mapGray f pixs) wf hf rank hwf hhf hrank hrank' hw hh
    refine ⟨pixd', hrun', fun j hj i hi => ?_⟩
    exact (hranks' j hj i hi).unique ((hranks j hj i hi).map hf')

/-- A photo that grows lighter to the right and down. -/
def slopedPhoto : Raster UInt8 := ⟨9, 7, fun x y => UInt8.ofNat (x * y)⟩

/-- The median of windows of sixteen pixels. -/
theorem pixRankFilterGray_ranks_median :
    ∃ pixd, pixMedianFilter slopedPhoto 4 4 = some pixd ∧ (pixd.width = 9 ∧ pixd.height = 7) ∧
      (∀ j < 9, ∀ i < 7, ∀ v, v = pixd.pixel j i ↔
        HasRank slopedPhoto 4 4 j i ⌊(1 / 2 : ℚ) * (4 : ℕ) * (4 : ℕ)⌋ v) ∧
      ∀ f : UInt8 → UInt8, (∀ u v, u ≤ v → f u ≤ f v) →
        ∃ pixd', pixMedianFilter (mapGray f slopedPhoto) 4 4 = some pixd' ∧
          ∀ j < 9, ∀ i < 7, pixd'.pixel j i = f (pixd.pixel j i) :=
  @pixRankFilterGray_ranks slopedPhoto 4 4 (1 / 2) (by decide) (by decide) (by norm_num)
    (by norm_num) (by decide) (by decide)

end CardScanner
