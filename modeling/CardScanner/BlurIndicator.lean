import CardScanner.BlurMask
import CardScanner.JavaCast
import CardScanner.Medians

/-!
# The blur indicator

`makeBlurIndicator` keeps the edge components whose width and height reach the
median width and the median height, ranks the kept ones by their mean gray value
and averages the highest of them.  The two medians are taken on their own, so a
component that reaches both is one of `Medians.exists_both_iff`; if there is
none, the average is 0/0, which the reader of the value takes for a strongly
blurred picture (`getBlurriness_of_opposed`).  If there is one, the value is an
average of bytes, divided by 256 (`exists_makeBlurIndicator_lt`).
-/

namespace CardScanner

open Medians

/-! ## The source -/

section Average

variable {width height : Nat}

/-- One pixel's part in the average: `sumave` and `count`. -/
def addMasked (pixs : Pix UInt8 width height) (pixm : Pix Bool width height) (i : Nat)
    (s : Nat × Nat) (j : Nat) : Nat × Nat :=
  if pixGetPixel pixm j i then
    let val := (grayAt pixs j i).toNat
    if val > 0 then (s.1 + val, s.2 + 1) else s
  else s

/-- `pixGetAverageMasked`: the average of the values that are not 0, under the
mask. -/
def pixGetAverageMasked (pixs : Pix UInt8 width height) (pixm : Pix Bool width height) : ℚ :=
  let s := (List.range height).foldl (fun s i => (List.range width).foldl (addMasked pixs pixm i) s)
    (0, 0)
  if s.2 = 0 then 0 else s.1 / s.2

end Average

/-- A component of the edge mask: its box's size and its mean gray value. -/
structure EdgeComponent where
  w : Nat
  h : Nat
  mean : ℚ
  w_pos : 0 < w
  h_pos : 0 < h
  mean_nonneg : 0 ≤ mean
  mean_le : mean ≤ 255

/-- `numaSort`, increasing. -/
def numaSort {α : Type*} [LinearOrder α] (na : List α) : List α := na.insertionSort (· ≤ ·)

/-- `(l_int32)(fract * (l_float32)(n - 1) + 0.5)`. -/
def rankIndex (fract : ℚ) (n : Nat) : Nat := (toInt (fract * ((n : ℚ) - 1) + 0.5)).toNat

/-- `numaGetRankValue`: the value stays 0 if there is none. -/
def numaGetRankValue (na : List Nat) (fract : ℚ) : Nat :=
  ((numaSort na)[rankIndex fract na.length]?).getD 0

def numaGetMedian (na : List Nat) : Nat := numaGetRankValue na 0.5

def lept_roundftoi (fval : ℚ) : ℤ := if fval ≥ 0 then toInt (fval + 0.5) else toInt (fval - 0.5)

/-- `numaGetSumOnInterval`: `last` is cut to the last position there is. -/
def numaGetSumOnInterval (na : List ℤ) (first last : Nat) : ℤ :=
  let n := na.length
  if first ≥ n then 0
  else
    let truelast := min last (n - 1)
    ((List.range' first (truelast + 1 - first)).map fun i => na.getD i 0).sum

/-- The components that `makeBlurIndicator` keeps. -/
def keptComponents (comps : List EdgeComponent) : List EdgeComponent :=
  let widthMedian := numaGetMedian (comps.map EdgeComponent.w)
  let heightMedian := numaGetMedian (comps.map EdgeComponent.h)
  comps.filter fun c => decide (c.w ≥ widthMedian) && decide (c.h ≥ heightMedian)

/-- The position at which the averaged part of the ranked values begins. -/
def startIndex (comps : List EdgeComponent) : Nat := rankIndex 0.8 (keptComponents comps).length

/-- `makeBlurIndicator`, from the components on: the blur value, `none` for the
not-a-number that 0/0 is. -/
def makeBlurIndicator (comps : List EdgeComponent) : Option ℚ :=
  let na1 := (keptComponents comps).map fun c => lept_roundftoi c.mean
  let na3 := numaSort na1
  let n := na3.length
  let index := rankIndex 0.8 n
  let blur : ℚ := numaGetSumOnInterval na3 index n
  let count : ℤ := n - index
  if count = 0 then none else some (blur / count / 256)

inductive Blurriness where
  | NOT_BLURRED
  | MEDIUM_BLUR
  | STRONG_BLUR
  deriving DecidableEq, Repr

/-- `getBlurriness`: a comparison with not-a-number is false. -/
def getBlurriness (mBlurValue : Option ℚ) : Blurriness :=
  if mBlurValue.any fun v => decide (v < 0.5) then .NOT_BLURRED
  else if mBlurValue.any fun v => decide (v < 0.67) then .MEDIUM_BLUR
  else .STRONG_BLUR

/-! ## The average under a mask -/

section Average

variable {width height : Nat}

/-- What is counted is at least 1 and at most 255. -/
def Averages (s : Nat × Nat) : Prop := s.2 ≤ s.1 ∧ s.1 ≤ 255 * s.2

/-- One more pixel keeps the sum between the count and 255 times the count,
since only values from 1 on are counted. -/
theorem Averages.addMasked {pixs : Pix UInt8 width height} {pixm : Pix Bool width height}
    {i j : Nat} {s : Nat × Nat} (h : Averages s) :
    Averages (CardScanner.addMasked pixs pixm i s j) := by
  have hbyte := (grayAt pixs j i).toNat_lt
  unfold CardScanner.addMasked Averages at *
  grind

/-- The average of a component lies between 0 and 255, as it is one of bytes,
or 0 without any. -/
theorem pixGetAverageMasked_mem (pixs : Pix UInt8 width height) (pixm : Pix Bool width height) :
    0 ≤ pixGetAverageMasked pixs pixm ∧ pixGetAverageMasked pixs pixm ≤ 255 := by
  unfold pixGetAverageMasked
  generalize hs : (List.range height).foldl
    (fun s i => (List.range width).foldl (addMasked pixs pixm i) s) (0, 0) = s
  have hsum : Averages s := by
    rw [← hs]
    refine List.foldlRecOn _ _ ⟨le_rfl, le_rfl⟩ fun s h i _ => ?_
    exact List.foldlRecOn _ _ h fun s h j _ => h.addMasked
  dsimp only
  split
  · exact ⟨le_rfl, by norm_num⟩
  · rename_i hcount
    have hpos : (0 : ℚ) < s.2 := by exact_mod_cast Nat.pos_of_ne_zero hcount
    refine ⟨by positivity, ?_⟩
    rw [div_le_iff₀ hpos]
    exact_mod_cast hsum.2

/-- The component of a box, from the pictures cut out there. -/
def edgeComponent (pixBlurComp : Pix UInt8 width height) (pixEdgeMask : Pix Bool width height)
    (hwidth : 0 < width) (hheight : 0 < height) : EdgeComponent where
  w := width
  h := height
  mean := pixGetAverageMasked pixBlurComp pixEdgeMask
  w_pos := hwidth
  h_pos := hheight
  mean_nonneg := (pixGetAverageMasked_mem pixBlurComp pixEdgeMask).1
  mean_le := (pixGetAverageMasked_mem pixBlurComp pixEdgeMask).2

end Average

/-! ## Ranks -/

/-- The median of a sorted array is its middle element, the upper of the two
where there are two. -/
theorem rankIndex_half (n : Nat) : rankIndex 0.5 n = n / 2 := by
  have hhalf : (0.5 : ℚ) * ((n : ℚ) - 1) + 0.5 = (n : ℚ) / (2 : ℕ) := by
    push_cast
    ring
  unfold rankIndex
  rw [hhalf, toInt_of_nonneg (by positivity), Rat.floor_natCast_div_natCast]
  rfl

/-- The rank of an empty array is 0, which is what makes `n - index` zero where
nothing is kept. -/
theorem rankIndex_zero : rankIndex 0.8 0 = 0 := by
  have hle : toInt (0.8 * (((0 : Nat) : ℚ) - 1) + 0.5) ≤ toInt 0 := toInt_mono (by norm_num)
  have hzero : toInt 0 = 0 := by simp [toInt]
  unfold rankIndex
  omega

/-- The averaged part is not empty. -/
theorem rankIndex_lt {n : Nat} (hn : 0 < n) : rankIndex 0.8 n < n := by
  have hn' : (1 : ℚ) ≤ n := by exact_mod_cast hn
  have hpos : (0 : ℚ) ≤ 0.8 * ((n : ℚ) - 1) + 0.5 := by linarith
  have hlt : toInt (0.8 * ((n : ℚ) - 1) + 0.5) < n := by
    rw [toInt_of_nonneg hpos, Int.floor_lt]
    push_cast
    linarith
  unfold rankIndex
  omega

/-- The median is the element of rank `n / 2`. -/
theorem ranked_numaGetMedian (na : List Nat) (hne : na ≠ []) :
    ranked na (na.length / 2) = some (numaGetMedian na) := by
  have hpos : 0 < na.length := List.length_pos_iff.mpr hne
  obtain ⟨v, hv⟩ := exists_ranked (show na.length / 2 < na.length by omega)
  have hsort : (numaSort na)[na.length / 2]? = some v := hv
  unfold numaGetMedian numaGetRankValue
  rw [rankIndex_half, hsort, hv, Option.getD_some]

/-- Some component is kept exactly if the components do not fall into halves,
one narrower and taller throughout than the other. -/
theorem keptComponents_ne_nil_iff {comps : List EdgeComponent} (hne : comps ≠ []) :
    keptComponents comps ≠ [] ↔ ¬ Opposed EdgeComponent.w EdgeComponent.h comps := by
  have hw := ranked_numaGetMedian (comps.map EdgeComponent.w) (by simpa using hne)
  have hh := ranked_numaGetMedian (comps.map EdgeComponent.h) (by simpa using hne)
  rw [List.length_map] at hw hh
  rw [← exists_both_iff hw hh]
  unfold keptComponents
  simp [List.filter_eq_nil_iff]

/-! ## The value -/

theorem lept_roundftoi_mem {fval : ℚ} {lo hi : Nat} (hlo : lo ≤ fval) (hhi : fval ≤ hi) :
    lo ≤ lept_roundftoi fval ∧ lept_roundftoi fval ≤ hi := by
  have h0 : (0 : ℚ) ≤ fval := le_trans (Nat.cast_nonneg lo) hlo
  unfold lept_roundftoi
  rw [if_pos h0, toInt_of_nonneg (by linarith), Int.le_floor, ← Int.lt_add_one_iff, Int.floor_lt]
  push_cast
  constructor
  · linarith
  · linarith

/-- The sum of the values from a position on, if all values are between two
bounds.  The last index asked for is the length, but the sum stops at the last
position. -/
theorem numaGetSumOnInterval_mem {na : List ℤ} {lo hi : ℤ} (hna : ∀ v ∈ na, lo ≤ v ∧ v ≤ hi)
    {first : Nat} (hfirst : first < na.length) :
    lo * ((na.length : ℤ) - first) ≤ numaGetSumOnInterval na first na.length ∧
      numaGetSumOnInterval na first na.length ≤ hi * ((na.length : ℤ) - first) := by
  generalize hvalues : (List.range' first (min na.length (na.length - 1) + 1 - first)).map
    (fun i => na.getD i 0) = values
  have hentry : ∀ v ∈ values, lo ≤ v ∧ v ≤ hi := by
    intro v hv
    rw [← hvalues] at hv
    obtain ⟨i, hi, rfl⟩ := List.mem_map.mp hv
    rw [List.mem_range'_1] at hi
    have hlt : i < na.length := by omega
    rw [List.getD_eq_getElem?_getD, List.getElem?_eq_getElem hlt, Option.getD_some]
    exact hna _ (List.getElem_mem hlt)
  have hcount : (values.length : ℤ) = na.length - first := by
    rw [← hvalues, List.length_map, List.length_range']
    omega
  have hlow := List.card_nsmul_le_sum values lo fun v hv => (hentry v hv).1
  have hhigh := List.sum_le_card_nsmul values hi fun v hv => (hentry v hv).2
  unfold numaGetSumOnInterval
  rw [if_neg (by omega)]
  simp only [hvalues]
  rw [nsmul_eq_mul, mul_comm, hcount] at hlow hhigh
  exact ⟨hlow, hhigh⟩

/-- With a component kept, the value is an average of the rounded means over
256. -/
theorem exists_makeBlurIndicator {comps : List EdgeComponent} (hkept : keptComponents comps ≠ [])
    {lo hi : Nat} (hmean : ∀ c ∈ comps, lo ≤ c.mean ∧ c.mean ≤ hi) :
    ∃ v, makeBlurIndicator comps = some v ∧ (lo : ℚ) / 256 ≤ v ∧ v ≤ (hi : ℚ) / 256 := by
  generalize hna : numaSort ((keptComponents comps).map fun c => lept_roundftoi c.mean) = na3
  have hvalue : ∀ v ∈ na3, (lo : ℤ) ≤ v ∧ v ≤ hi := by
    intro v hv
    rw [← hna, numaSort, List.mem_insertionSort, List.mem_map] at hv
    obtain ⟨c, hc, rfl⟩ := hv
    obtain ⟨hlo, hhi⟩ := hmean c (List.mem_of_mem_filter hc)
    exact lept_roundftoi_mem hlo hhi
  have hlen : na3.length = (keptComponents comps).length := by
    rw [← hna, numaSort, List.length_insertionSort, List.length_map]
  have hpos : 0 < na3.length := by
    rw [hlen]
    exact List.length_pos_iff.mpr hkept
  have hlt := rankIndex_lt hpos
  obtain ⟨hlow, hhigh⟩ := numaGetSumOnInterval_mem hvalue hlt
  have hcount : (0 : ℤ) < na3.length - rankIndex 0.8 na3.length := by omega
  have hcount' : (0 : ℚ) < ((na3.length - rankIndex 0.8 na3.length : ℤ) : ℚ) := by
    exact_mod_cast hcount
  have hlow' : (lo : ℚ) * ((na3.length - rankIndex 0.8 na3.length : ℤ) : ℚ) ≤
      (numaGetSumOnInterval na3 (rankIndex 0.8 na3.length) na3.length : ℤ) := by
    exact_mod_cast hlow
  have hhigh' : ((numaGetSumOnInterval na3 (rankIndex 0.8 na3.length) na3.length : ℤ) : ℚ) ≤
      hi * ((na3.length - rankIndex 0.8 na3.length : ℤ) : ℚ) := by
    exact_mod_cast hhigh
  simp only [makeBlurIndicator, hna]
  refine ⟨_, if_neg hcount.ne', ?_, ?_⟩
  · gcongr
    rwa [le_div_iff₀ hcount']
  · gcongr
    rwa [div_le_iff₀ hcount']

/-- The means are bytes, so the value is less than 1. -/
theorem exists_makeBlurIndicator_lt {comps : List EdgeComponent}
    (hkept : keptComponents comps ≠ []) :
    ∃ v, makeBlurIndicator comps = some v ∧ 0 ≤ v ∧ v < 1 := by
  obtain ⟨v, hv, hlow, hhigh⟩ := @exists_makeBlurIndicator comps hkept 0 255 fun c _ =>
    ⟨by exact_mod_cast c.mean_nonneg, by exact_mod_cast c.mean_le⟩
  norm_num at hlow hhigh
  exact ⟨v, hv, hlow, by linarith⟩

/-- Without a kept component there is no blur value: it would be zero divided
by zero. -/
theorem makeBlurIndicator_of_nil {comps : List EdgeComponent} (hkept : keptComponents comps = []) :
    makeBlurIndicator comps = none := by
  unfold makeBlurIndicator
  rw [hkept]
  exact if_pos (by simp [numaSort, rankIndex_zero])

/-- There is a value unless no component reaches both medians. -/
theorem isSome_makeBlurIndicator_iff {comps : List EdgeComponent} (hne : comps ≠ []) :
    (makeBlurIndicator comps).isSome ↔ ¬ Opposed EdgeComponent.w EdgeComponent.h comps := by
  rw [← keptComponents_ne_nil_iff hne]
  constructor
  · intro hsome hnil
    rw [makeBlurIndicator_of_nil hnil] at hsome
    cases hsome
  · intro hkept
    obtain ⟨v, hv, -⟩ := exists_makeBlurIndicator_lt hkept
    rw [hv]
    rfl

/-- **No component kept.**  Without one that reaches both medians the picture
is taken for a strongly blurred one, whatever its components are like: zero
over zero is no number, and compares with no bound. -/
theorem getBlurriness_of_opposed {comps : List EdgeComponent} (hne : comps ≠ [])
    (h : Opposed EdgeComponent.w EdgeComponent.h comps) :
    getBlurriness (makeBlurIndicator comps) = .STRONG_BLUR := by
  have hkept : keptComponents comps = [] := by
    by_contra hkept
    exact (keptComponents_ne_nil_iff hne).mp hkept h
  rw [makeBlurIndicator_of_nil hkept]
  rfl

/-- A component is kept, the averaged part begins inside the ranked list and so
has a positive number of values, and the blur value lies in `[0, 1)`. -/
structure Indicates (comps : List EdgeComponent) : Prop where
  kept : keptComponents comps ≠ []
  inside : startIndex comps < (keptComponents comps).length
  positive : (0 : ℤ) < (keptComponents comps).length - startIndex comps
  value : ∃ v, makeBlurIndicator comps = some v ∧ 0 ≤ v ∧ v < 1

/-- **When a blur value is reported.**  Exactly if the components do not fall
into two halves of one number, those of the one narrower and taller than those
of the other throughout. -/
theorem indicates_iff {comps : List EdgeComponent} (hne : comps ≠ []) :
    Indicates comps ↔ ¬ Opposed EdgeComponent.w EdgeComponent.h comps := by
  rw [← keptComponents_ne_nil_iff hne]
  constructor
  · exact fun h => h.kept
  · intro hkept
    have hlt : startIndex comps < (keptComponents comps).length :=
      rankIndex_lt (List.length_pos_iff.mpr hkept)
    exact ⟨hkept, hlt, by omega, exists_makeBlurIndicator_lt hkept⟩

def tallComponent : EdgeComponent :=
  ⟨1, 2, 100, by decide, by decide, by norm_num, by norm_num⟩

def wideComponent : EdgeComponent :=
  ⟨2, 1, 100, by decide, by decide, by norm_num, by norm_num⟩

def largeComponent : EdgeComponent :=
  ⟨9, 7, 180, by decide, by decide, by norm_num, by norm_num⟩

/-- Three components of different widths and heights. -/
theorem indicates_iff_three :
    Indicates [tallComponent, largeComponent, wideComponent] ↔
      ¬ Opposed EdgeComponent.w EdgeComponent.h [tallComponent, largeComponent, wideComponent] :=
  indicates_iff (List.cons_ne_nil tallComponent _)

/-- Of two components, one tall and one wide, none is kept. -/
theorem not_indicates : ¬ ∀ comps : List EdgeComponent, comps ≠ [] → Indicates comps := by
  intro h
  have hne : [tallComponent, wideComponent] ≠ [] := List.cons_ne_nil _ _
  refine (keptComponents_ne_nil_iff hne).mp (h _ hne).kept ?_
  refine ⟨[tallComponent], [wideComponent], List.Perm.refl _, rfl, ?_⟩
  simp [tallComponent, wideComponent]

end CardScanner
