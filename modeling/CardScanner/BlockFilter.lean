import CardScanner.Binarize
import CardScanner.SummedArea
import Mathlib.Algebra.Group.Action.Defs
import Mathlib.Algebra.Order.BigOperators.Group.Finset
import Mathlib.Data.Rat.Floor
import Mathlib.Tactic.Linarith
import Mathlib.Tactic.NormNum
import Mathlib.Tactic.Ring

/-!
# Block filters

Leptonica's `pixBlockconvGray`, `pixBlocksum` and `pixBlockrank`: what a pixel becomes is
read off the window of `2 * wc + 1` by `2 * hc + 1` pixels around it.  The sums over the
windows come from one table of 32 bit words, which may wrap around on a large picture.
A first pass divides by the size of a full window; a second one makes up for it along
the border, where the window is cut, and leaves the first line and the first column out.

The tables of a page of any size give the true sums (`toNat_blockVal`), and the two passes
come to one formula for all pixels (`pixel_blocksumLow`, `pixel_blockconvLow`).  Products
with fractions are exact here.
-/

namespace CardScanner

open Finset

/-! ## The filters -/

/-- `pixBlockconvAccum`; the value of a pixel is its bit or its byte. -/
def pixBlockconvAccum {α : Type*} (value : α → ℕ) (pixs : Raster α) : Raster (BitVec 32) where
  width := pixs.width
  height := pixs.height
  pixel j i := SummedArea.accum (fun i j => (value (pixs.pixel j i) : BitVec 32)) i j

/-- The entry of the table before the window of the pixel at `i`, along one
axis. -/
def windowMin (c i : ℕ) : ℕ := i - 1 - c

/-- The last entry of the table in the window, along an axis of `n` pixels. -/
def windowMax (n c i : ℕ) : ℕ := min (i + c) (n - 1)

/-- `val` of `blocksumLow`: the sum over a window, from the four corners of
the accumulated sums, in 32 bits. -/
def blockVal (acc : Raster (BitVec 32)) (wc hc j i : ℕ) : BitVec 32 :=
  let imin := windowMin hc i
  let imax := windowMax acc.height hc i
  let jmin := windowMin wc j
  let jmax := windowMax acc.width wc j
  acc.pixel jmax imax - acc.pixel jmin imax - acc.pixel jmax imin + acc.pixel jmin imin

/-- A loop over the lines from `i0` and before `i1` and the columns from `j0`
and before `j1`, which writes each pixel anew. -/
def rewriteBlock (pixd : Raster ℕ) (i0 i1 j0 j1 : ℕ) (f : ℕ → ℕ → ℕ → ℕ) : Raster ℕ where
  width := pixd.width
  height := pixd.height
  pixel j i :=
    if i0 ≤ i ∧ i < i1 ∧ j0 ≤ j ∧ j < j1 then f i j (pixd.pixel j i) else pixd.pixel j i

/-- "now fix normalization for boundary pixels": the second part of
`blockconvLow` and `blocksumLow`, which make different bytes of a value.

The factors are floats in the code and exact here, so that a product just
below a whole number may be one less there.  Both half sizes are to be
positive: where one is 0, the code divides by zero for the first line or
column, and a quotient by 0 is 0 here. -/
def normalizeBorder (byte : ℕ → ℕ) (w h wc hc : ℕ) (pixd : Raster ℕ) : Raster ℕ :=
  let fwc := 2 * wc + 1
  let fhc := 2 * hc + 1
  let wmwc := w - wc
  let hmhc := h - hc
  -- the first hc + 1 lines
  let pixd := rewriteBlock pixd 0 (hc + 1) 0 (wc + 1) fun i j val =>
    byte (val * fhc * fwc / ((hc + i) * (wc + j)))
  let pixd := rewriteBlock pixd 0 (hc + 1) (wc + 1) wmwc fun i _ val => byte (val * fhc / (hc + i))
  let pixd := rewriteBlock pixd 0 (hc + 1) wmwc w fun i j val =>
    byte (val * fhc * fwc / ((hc + i) * (wc + w - j)))
  -- the last hc lines
  let pixd := rewriteBlock pixd hmhc h 0 (wc + 1) fun i j val =>
    byte (val * fhc * fwc / ((hc + h - i) * (wc + j)))
  let pixd := rewriteBlock pixd hmhc h (wc + 1) wmwc fun i _ val =>
    byte (val * fhc / (hc + h - i))
  let pixd := rewriteBlock pixd hmhc h wmwc w fun i j val =>
    byte (val * fhc * fwc / ((hc + h - i) * (wc + w - j)))
  -- the intermediate lines
  let pixd := rewriteBlock pixd (hc + 1) hmhc 0 (wc + 1) fun _ j val => byte (val * fwc / (wc + j))
  rewriteBlock pixd (hc + 1) hmhc wmwc w fun _ j val => byte (val * fwc / (wc + w - j))

/-- `blocksumLow`: first every pixel as if its window had the full size, then
those near the border once more. -/
def blocksumLow (acc : Raster (BitVec 32)) (wc hc : ℕ) : Raster ℕ :=
  normalizeBorder (· % 256) acc.width acc.height wc hc
    ⟨acc.width, acc.height, fun j i =>
      255 * (blockVal acc wc hc j i).toNat / ((2 * wc + 1) * (2 * hc + 1)) % 256⟩

/-- `blockconvLow`; half is added to a quotient before it is cut. -/
def blockconvLow (acc : Raster (BitVec 32)) (wc hc : ℕ) : Raster ℕ :=
  normalizeBorder (fun val => min val 255 % 256) acc.width acc.height wc hc
    ⟨acc.width, acc.height, fun j i =>
      let imin := windowMin hc i
      let imax := windowMax acc.height hc i
      let jmin := windowMin wc j
      let jmax := windowMax acc.width wc j
      let val := acc.pixel jmax imax - acc.pixel jmin imax + acc.pixel jmin imin -
        acc.pixel jmax imin
      (2 * val.toNat + (2 * wc + 1) * (2 * hc + 1)) / (2 * ((2 * wc + 1) * (2 * hc + 1))) % 256⟩

/-- The half sizes of a kernel that fits into the picture: "kernel too large;
reducing!". -/
def reduceKernel (w h wc hc : ℕ) : ℕ × ℕ :=
  if w < 2 * wc + 1 ∨ h < 2 * hc + 1 then (min wc ((w - 1) / 2), min hc ((h - 1) / 2))
  else (wc, hc)

/-- `pixBlockconvGray`, for half sizes that are both positive or both 0 once
the kernel has been reduced; see `normalizeBorder`. -/
def pixBlockconvGray (pixs : Raster ℕ) (pixacc : Option (Raster (BitVec 32))) (wc hc : ℕ) :
    Raster ℕ :=
  let kernel := reduceKernel pixs.width pixs.height wc hc
  if kernel.1 = 0 ∧ kernel.2 = 0 then pixs
  else blockconvLow (pixacc.getD (pixBlockconvAccum (· % 256) pixs)) kernel.1 kernel.2

/-- `pixBlocksum`; a copy of the picture has pixels of one bit. -/
def pixBlocksum (pixs : Raster Bool) (pixacc : Option (Raster (BitVec 32))) (wc hc : ℕ) :
    Raster ℕ :=
  let kernel := reduceKernel pixs.width pixs.height wc hc
  if kernel.1 = 0 ∧ kernel.2 = 0 then ⟨pixs.width, pixs.height, fun x y => (pixs.pixel x y).toNat⟩
  else blocksumLow (pixacc.getD (pixBlockconvAccum Bool.toNat pixs)) kernel.1 kernel.2

/-- `pixInvert` of a picture of one bit. -/
def pixInvert (pixs : Raster Bool) : Raster Bool :=
  ⟨pixs.width, pixs.height, fun x y => !pixs.pixel x y⟩

/-- `pixBlockrank`.  The share of ON pixels is found as a byte, which is
compared with the rank as a byte. -/
def pixBlockrank (pixs : Raster Bool) (pixacc : Option (Raster (BitVec 32))) (wc hc : ℕ)
    (rank : ℚ) : Option (Raster Bool) :=
  if rank < 0 ∨ 1 < rank then none
  else if rank = 0 then some (Raster.blank true pixs.width pixs.height)
  else
    let kernel := reduceKernel pixs.width pixs.height wc hc
    if kernel.1 = 0 ∧ kernel.2 = 0 then some pixs
    else
      let pixt := pixBlocksum pixs pixacc kernel.1 kernel.2
      (thresholdToBinary pixt ⌊255 * rank⌋.toNat).map pixInvert

/-! ## Windows -/

/-- How many pixels of an axis are in the window of the pixel at `i`. -/
def windowLength (n c i : ℕ) : ℕ := windowMax n c i - windowMin c i

section Axis

variable {n c i : ℕ}

/-- The window of a line in the picture is not turned around, even where the
border cuts it. -/
theorem windowMin_le_windowMax (hi : i < n) : windowMin c i ≤ windowMax n c i := by
  unfold windowMin windowMax
  omega

theorem windowLength_le : windowLength n c i ≤ 2 * c + 1 := by
  unfold windowLength windowMin windowMax
  omega

/-- Near the first line the window loses what would lie before the picture,
and one line more. -/
theorem windowLength_first (hi : i ≤ c) (hn : 2 * c + 1 ≤ n) : windowLength n c i = c + i := by
  unfold windowLength windowMin windowMax
  omega

/-- Near the last line it loses what would lie behind the picture. -/
theorem windowLength_last (hi : n - c ≤ i) (hin : i < n) (hn : 2 * c + 1 ≤ n) :
    windowLength n c i = c + n - i := by
  unfold windowLength windowMin windowMax
  omega

/-- Away from both borders it is whole. -/
theorem windowLength_inner (hi : c < i) (hin : i < n - c) : windowLength n c i = 2 * c + 1 := by
  unfold windowLength windowMin windowMax
  omega

end Axis

/-- The sum of the values in the window of a pixel. -/
def windowSum {α : Type*} (value : α → ℕ) (pixs : Raster α) (wc hc x y : ℕ) : ℕ :=
  ∑ a ∈ Ico (windowMin hc y + 1) (windowMax pixs.height hc y + 1),
    ∑ b ∈ Ico (windowMin wc x + 1) (windowMax pixs.width wc x + 1), value (pixs.pixel b a)

/-- The number of pixels in the window of a pixel. -/
def windowSize {α : Type*} (pixs : Raster α) (wc hc x y : ℕ) : ℕ :=
  windowLength pixs.height hc y * windowLength pixs.width wc x

section Window

variable {α : Type*} {value : α → ℕ} {pixs : Raster α} {wc hc x y : ℕ}

theorem windowSize_le : windowSize pixs wc hc x y ≤ (2 * wc + 1) * (2 * hc + 1) :=
  (Nat.mul_le_mul windowLength_le windowLength_le).trans_eq (Nat.mul_comm _ _)

/-- The lines of a window, as the set over which the sums are taken. -/
theorem card_window (n c i : ℕ) :
    (Ico (windowMin c i + 1) (windowMax n c i + 1)).card = windowLength n c i := by
  rw [Nat.card_Ico, windowLength]
  omega

/-- A sum over a window, by the largest value and the number of its pixels.
This is what keeps the sums in the words of the table. -/
theorem windowSum_le {m : ℕ} (hvalue : ∀ v, value v ≤ m) :
    windowSum value pixs wc hc x y ≤ m * windowSize pixs wc hc x y := by
  have hline : ∀ a, ∑ b ∈ Ico (windowMin wc x + 1) (windowMax pixs.width wc x + 1),
      value (pixs.pixel b a) ≤ windowLength pixs.width wc x * m := by
    intro a
    have h := sum_le_card_nsmul (Ico (windowMin wc x + 1) (windowMax pixs.width wc x + 1))
      (fun b => value (pixs.pixel b a)) m fun b _ => hvalue _
    rwa [card_window, smul_eq_mul] at h
  have h := sum_le_card_nsmul (Ico (windowMin hc y + 1) (windowMax pixs.height hc y + 1)) _ _
    fun a _ => hline a
  rw [card_window, smul_eq_mul] at h
  calc windowSum value pixs wc hc x y
      ≤ windowLength pixs.height hc y * (windowLength pixs.width wc x * m) := h
    _ = m * windowSize pixs wc hc x y := by rw [windowSize]; ring

/-- A sum grows with the values in the window. -/
theorem windowSum_mono {pixs' : Raster α} (hwidth : pixs.width = pixs'.width)
    (hheight : pixs.height = pixs'.height)
    (hle : ∀ b a, windowMin wc x < b → b ≤ x + wc → b < pixs.width → windowMin hc y < a →
      a ≤ y + hc → a < pixs.height → value (pixs.pixel b a) ≤ value (pixs'.pixel b a)) :
    windowSum value pixs wc hc x y ≤ windowSum value pixs' wc hc x y := by
  unfold windowSum
  rw [← hwidth, ← hheight]
  refine sum_le_sum fun a ha => sum_le_sum fun b hb => ?_
  rw [mem_Ico] at ha hb
  have hmax : ∀ n c i : ℕ, windowMax n c i = min (i + c) (n - 1) := fun _ _ _ => rfl
  rw [hmax] at ha hb
  exact hle b a (by omega) (by omega) (by omega) (by omega) (by omega) (by omega)

/-- **The sum over a window.**  It is exact, however large the picture: the
words of the table may wrap around, as long as no window has a sum that does. -/
theorem toNat_blockVal (hx : x < pixs.width) (hy : y < pixs.height)
    (hfits : windowSum value pixs wc hc x y < 2 ^ 32) :
    (blockVal (pixBlockconvAccum value pixs) wc hc x y).toNat =
      windowSum value pixs wc hc x y :=
  SummedArea.toNat_window (fun i j => value (pixs.pixel j i)) (windowMin_le_windowMax hy)
    (windowMin_le_windowMax hx) hfits

end Window

/-! ## The second pass -/

section Border

variable {pixd : Raster ℕ} {f : ℕ → ℕ → ℕ → ℕ} {i0 i1 j0 j1 i j : ℕ}

/-- A rewritten block has the new values in it. -/
theorem pixel_rewriteBlock_inside (hi : i0 ≤ i ∧ i < i1) (hj : j0 ≤ j ∧ j < j1) :
    (rewriteBlock pixd i0 i1 j0 j1 f).pixel j i = f i j (pixd.pixel j i) :=
  if_pos ⟨hi.1, hi.2, hj.1, hj.2⟩

/-- Around the block all is as it was, so the three loops over first, last and
middle lines do not get in each other's way. -/
theorem pixel_rewriteBlock_outside (h : i < i0 ∨ i1 ≤ i ∨ j < j0 ∨ j1 ≤ j) :
    (rewriteBlock pixd i0 i1 j0 j1 f).pixel j i = pixd.pixel j i :=
  if_neg (by omega)

/-- **The second pass** scales each pixel by the share of a full window that
its window has; where that is all of it, the pixel is left alone.  First, last
and middle lines are told apart by the index, and within a line first, last
and middle columns. -/
theorem pixel_normalizeBorder {byte : ℕ → ℕ} {w h wc hc x y : ℕ} (hw : 2 * wc + 1 ≤ w)
    (hh : 2 * hc + 1 ≤ h) (hx : x < w) (hy : y < h)
    (hbyte : byte (pixd.pixel x y) = pixd.pixel x y) :
    (normalizeBorder byte w h wc hc pixd).pixel x y =
      byte (pixd.pixel x y * ((2 * hc + 1) * (2 * wc + 1)) /
        (windowLength h hc y * windowLength w wc x)) := by
  have hlines : y ≤ hc ∨ (hc < y ∧ y < h - hc) ∨ h - hc ≤ y := by omega
  have hcolumns : x ≤ wc ∨ (wc < x ∧ x < w - wc) ∨ w - wc ≤ x := by omega
  unfold normalizeBorder
  rcases hlines with htop | ⟨hbelow, habove⟩ | hbottom
  · rw [windowLength_first htop hh]
    rcases hcolumns with hleft | ⟨hafter, hbefore⟩ | hright
    · simp (disch := omega) only [pixel_rewriteBlock_outside, pixel_rewriteBlock_inside]
      rw [windowLength_first hleft hw, Nat.mul_assoc]
    · simp (disch := omega) only [pixel_rewriteBlock_outside, pixel_rewriteBlock_inside]
      rw [windowLength_inner hafter hbefore, ← Nat.mul_assoc,
        Nat.mul_div_mul_right _ _ (Nat.succ_pos _)]
    · simp (disch := omega) only [pixel_rewriteBlock_outside, pixel_rewriteBlock_inside]
      rw [windowLength_last hright hx hw, Nat.mul_assoc]
  · rw [windowLength_inner hbelow habove, Nat.mul_comm (2 * hc + 1) (2 * wc + 1),
      Nat.mul_comm (2 * hc + 1), ← Nat.mul_assoc, Nat.mul_div_mul_right _ _ (Nat.succ_pos _)]
    rcases hcolumns with hleft | ⟨hafter, hbefore⟩ | hright
    · simp (disch := omega) only [pixel_rewriteBlock_outside, pixel_rewriteBlock_inside]
      rw [windowLength_first hleft hw]
    · simp (disch := omega) only [pixel_rewriteBlock_outside]
      rw [windowLength_inner hafter hbefore, Nat.mul_div_cancel _ (Nat.succ_pos _), hbyte]
    · simp (disch := omega) only [pixel_rewriteBlock_outside, pixel_rewriteBlock_inside]
      rw [windowLength_last hright hx hw]
  · rw [windowLength_last hbottom hy hh]
    rcases hcolumns with hleft | ⟨hafter, hbefore⟩ | hright
    · simp (disch := omega) only [pixel_rewriteBlock_outside, pixel_rewriteBlock_inside]
      rw [windowLength_first hleft hw, Nat.mul_assoc]
    · simp (disch := omega) only [pixel_rewriteBlock_outside, pixel_rewriteBlock_inside]
      rw [windowLength_inner hafter hbefore, ← Nat.mul_assoc,
        Nat.mul_div_mul_right _ _ (Nat.succ_pos _)]
    · simp (disch := omega) only [pixel_rewriteBlock_outside, pixel_rewriteBlock_inside]
      rw [windowLength_last hright hx hw, Nat.mul_assoc]

end Border

/-! ## What a pixel becomes -/

section Bits

variable {pixs : Raster Bool} {wc hc x y : ℕ}

/-- The share of ON pixels in a window, in parts of 255, as the two passes
round it. -/
def windowShare (pixs : Raster Bool) (wc hc x y : ℕ) : ℕ :=
  255 * windowSum Bool.toNat pixs wc hc x y / ((2 * wc + 1) * (2 * hc + 1)) *
    ((2 * wc + 1) * (2 * hc + 1)) / windowSize pixs wc hc x y

theorem onSum_le : windowSum Bool.toNat pixs wc hc x y ≤ windowSize pixs wc hc x y :=
  (windowSum_le Bool.toNat_le).trans_eq (Nat.one_mul _)

theorem windowShare_le : windowShare pixs wc hc x y ≤ 255 := by
  refine Nat.div_le_of_le_mul ?_
  calc 255 * windowSum Bool.toNat pixs wc hc x y / ((2 * wc + 1) * (2 * hc + 1)) *
        ((2 * wc + 1) * (2 * hc + 1))
      ≤ 255 * windowSum Bool.toNat pixs wc hc x y := Nat.div_mul_le_self _ _
    _ ≤ 255 * windowSize pixs wc hc x y := Nat.mul_le_mul_left _ onSum_le
    _ = windowSize pixs wc hc x y * 255 := Nat.mul_comm _ _

/-- In a window that is not cut, only one pass rounds. -/
theorem windowShare_full
    (hfull : windowSize pixs wc hc x y = (2 * wc + 1) * (2 * hc + 1)) :
    windowShare pixs wc hc x y =
      255 * windowSum Bool.toNat pixs wc hc x y / ((2 * wc + 1) * (2 * hc + 1)) := by
  rw [windowShare, hfull, Nat.mul_div_cancel _ (by positivity)]

/-- **A byte of `blocksumLow`.**  It is the number of ON pixels in the window,
as a share of a full window in whole 255ths, and then scaled to the window
that the border has left and cut to whole 255ths again. -/
theorem pixel_blocksumLow (hw : 2 * wc + 1 ≤ pixs.width) (hh : 2 * hc + 1 ≤ pixs.height)
    (hword : (2 * wc + 1) * (2 * hc + 1) < 2 ^ 32) (hx : x < pixs.width) (hy : y < pixs.height) :
    (blocksumLow (pixBlockconvAccum Bool.toNat pixs) wc hc).pixel x y =
      windowShare pixs wc hc x y := by
  have hsum : windowSum Bool.toNat pixs wc hc x y ≤ (2 * wc + 1) * (2 * hc + 1) :=
    onSum_le.trans windowSize_le
  have hfirst : 255 * windowSum Bool.toNat pixs wc hc x y / ((2 * wc + 1) * (2 * hc + 1)) ≤ 255 :=
    Nat.div_le_of_le_mul (by rw [Nat.mul_comm _ 255]; exact Nat.mul_le_mul_left _ hsum)
  have hval := toNat_blockVal hx hy (hsum.trans_lt hword)
  have hbyte : ∀ {v : ℕ}, v ≤ 255 → v % 256 = v := fun hv => Nat.mod_eq_of_lt (Nat.lt_succ_of_le hv)
  refine (pixel_normalizeBorder hw hh hx hy (Nat.mod_mod _ _)).trans ?_
  simp only [hval, hbyte hfirst]
  rw [Nat.mul_comm (2 * hc + 1)]
  exact hbyte windowShare_le

end Bits

section Kernel

variable {w h wc hc : ℕ}

theorem reduceKernel_fits (hw : 0 < w) (hh : 0 < h) :
    2 * (reduceKernel w h wc hc).1 + 1 ≤ w ∧ 2 * (reduceKernel w h wc hc).2 + 1 ≤ h := by
  unfold reduceKernel
  split_ifs with hlarge
  · constructor <;> simp only <;> omega
  · exact ⟨by simp only; omega, by simp only; omega⟩

theorem reduceKernel_of_fits (hw : 2 * wc + 1 ≤ w) (hh : 2 * hc + 1 ≤ h) :
    reduceKernel w h wc hc = (wc, hc) := if_neg (by omega)

theorem reduceKernel_le :
    (reduceKernel w h wc hc).1 ≤ wc ∧ (reduceKernel w h wc hc).2 ≤ hc := by
  unfold reduceKernel
  split_ifs
  · exact ⟨Nat.min_le_left _ _, Nat.min_le_left _ _⟩
  · exact ⟨le_rfl, le_rfl⟩

/-- On a picture of at least three pixels each way, something is left of a
kernel. -/
theorem reduceKernel_pos (hw : 3 ≤ w) (hh : 3 ≤ h) (hwc : 0 < wc) (hhc : 0 < hc) :
    0 < (reduceKernel w h wc hc).1 ∧ 0 < (reduceKernel w h wc hc).2 := by
  unfold reduceKernel
  split_ifs with hlarge
  · constructor <;> simp only <;> omega
  · exact ⟨hwc, hhc⟩

end Kernel

/-- **The rank filter.**  Whether or not the table is made beforehand, and
whatever wraps around in it, the filter gives a picture of the same extent; a
pixel of it is ON exactly if the share of ON pixels in its window, in whole
parts of 255, reaches the rank's. -/
theorem pixBlockrank_share {pixs : Raster Bool} {pixacc : Option (Raster (BitVec 32))}
    (hacc : ∀ acc ∈ pixacc, acc = pixBlockconvAccum Bool.toNat pixs) {wc hc : ℕ} {rank : ℚ}
    (hw : 3 ≤ pixs.width) (hh : 3 ≤ pixs.height) (hwc : 0 < wc) (hhc : 0 < hc)
    (hword : (2 * wc + 1) * (2 * hc + 1) < 2 ^ 32) (hrank : 0 < rank) (hrank' : rank ≤ 1) :
    ∃ pixd, pixBlockrank pixs pixacc wc hc rank = some pixd ∧ pixd.width = pixs.width ∧
      pixd.height = pixs.height ∧ ∀ x < pixs.width, ∀ y < pixs.height,
        (pixd.pixel x y = true ↔ ⌊255 * rank⌋.toNat ≤
          windowShare pixs (reduceKernel pixs.width pixs.height wc hc).1
            (reduceKernel pixs.width pixs.height wc hc).2 x y) := by
  obtain ⟨hpos, hpos'⟩ := reduceKernel_pos hw hh hwc hhc
  obtain ⟨hfits, hfits'⟩ := @reduceKernel_fits pixs.width pixs.height wc hc (by omega) (by omega)
  obtain ⟨hle, hle'⟩ := @reduceKernel_le pixs.width pixs.height wc hc
  generalize hkernel : reduceKernel pixs.width pixs.height wc hc = kernel at *
  have htable : pixacc.getD (pixBlockconvAccum Bool.toNat pixs) =
      pixBlockconvAccum Bool.toNat pixs := by
    cases pixacc with
    | none => rfl
    | some acc => exact hacc acc rfl
  have hsum : pixBlocksum pixs pixacc kernel.1 kernel.2 =
      blocksumLow (pixBlockconvAccum Bool.toNat pixs) kernel.1 kernel.2 := by
    rw [pixBlocksum, reduceKernel_of_fits hfits hfits', htable]
    exact if_neg (by omega)
  have hthresh : ¬ ⌊255 * rank⌋.toNat > 256 := by
    have hfloor : ⌊255 * rank⌋ ≤ 255 := by
      have h := Int.floor_le (255 * rank)
      have h' : (⌊255 * rank⌋ : ℚ) ≤ 255 := by linarith
      exact_mod_cast h'
    omega
  have hwords : (2 * kernel.1 + 1) * (2 * kernel.2 + 1) < 2 ^ 32 :=
    (Nat.mul_le_mul (by omega) (by omega)).trans_lt hword
  refine ⟨pixInvert ⟨pixs.width, pixs.height, fun x y => decide ((blocksumLow
    (pixBlockconvAccum Bool.toNat pixs) kernel.1 kernel.2).pixel x y < ⌊255 * rank⌋.toNat)⟩,
    ?_, rfl, rfl, fun x hx y hy => ?_⟩
  · rw [pixBlockrank, if_neg (by rw [not_or, not_lt, not_lt]; exact ⟨hrank.le, hrank'⟩),
      if_neg hrank.ne']
    simp only [hkernel]
    rw [if_neg (by omega), hsum, thresholdToBinary, if_neg hthresh, Option.map_some]
    rfl
  · have hpixel := pixel_blocksumLow hfits hfits' hwords hx hy
    simp only [pixInvert, hpixel, Bool.not_eq_true', decide_eq_false_iff_not, not_lt]

/-- The diagonal of a picture of three by three pixels. -/
theorem pixBlockrank_share_diagonal :
    ∃ pixd, pixBlockrank ⟨3, 3, fun x y => x == y⟩ none 8 8 (1 / 10) = some pixd ∧
      pixd.width = 3 ∧ pixd.height = 3 ∧ ∀ x < 3, ∀ y < 3,
        (pixd.pixel x y = true ↔ ⌊255 * (1 / 10 : ℚ)⌋.toNat ≤
          windowShare ⟨3, 3, fun x y => x == y⟩ (reduceKernel 3 3 8 8).1 (reduceKernel 3 3 8 8).2
            x y) :=
  @pixBlockrank_share ⟨3, 3, fun x y => x == y⟩ none (fun _ hacc => by cases hacc) 8 8 (1 / 10)
    (by decide) (by decide) (by decide) (by decide) (by decide) (by norm_num) (by norm_num)

section Bytes

variable {pixs : Raster ℕ} {wc hc x y : ℕ}

/-- The smoothed picture has the extent of the picture, on every path through
the function. -/
theorem extent_pixBlockconvGray :
    (pixBlockconvGray pixs none wc hc).width = pixs.width ∧
      (pixBlockconvGray pixs none wc hc).height = pixs.height := by
  have hlow : ∀ (acc : Raster (BitVec 32)) (wc hc : ℕ),
      (blockconvLow acc wc hc).width = acc.width ∧ (blockconvLow acc wc hc).height = acc.height :=
    fun _ _ _ => ⟨rfl, rfl⟩
  unfold pixBlockconvGray
  generalize reduceKernel pixs.width pixs.height wc hc = kernel
  by_cases hkernel : kernel.1 = 0 ∧ kernel.2 = 0
  · simp only [if_pos hkernel, and_self]
  · simp only [if_neg hkernel]
    exact hlow _ _ _

/-- **A byte of `blockconvLow`**: the mean of its window, rounded, and scaled
where the window is cut.  The table is that of the gray values, and its words
do not overflow within a window. -/
theorem pixel_blockconvLow (hw : 2 * wc + 1 ≤ pixs.width) (hh : 2 * hc + 1 ≤ pixs.height)
    (hword : 255 * ((2 * wc + 1) * (2 * hc + 1)) < 2 ^ 32) (hx : x < pixs.width)
    (hy : y < pixs.height) :
    (blockconvLow (pixBlockconvAccum (· % 256) pixs) wc hc).pixel x y =
      min ((2 * windowSum (· % 256) pixs wc hc x y + (2 * wc + 1) * (2 * hc + 1)) /
        (2 * ((2 * wc + 1) * (2 * hc + 1))) * ((2 * wc + 1) * (2 * hc + 1)) /
          windowSize pixs wc hc x y) 255 := by
  have hle : windowSum (· % 256) pixs wc hc x y ≤ 255 * ((2 * wc + 1) * (2 * hc + 1)) :=
    (windowSum_le fun v => Nat.le_of_lt_succ (Nat.mod_lt v (by decide))).trans
      (Nat.mul_le_mul_left _ windowSize_le)
  have hval := toNat_blockVal hx hy (hle.trans_lt hword)
  have hfirst : (2 * windowSum (· % 256) pixs wc hc x y + (2 * wc + 1) * (2 * hc + 1)) /
      (2 * ((2 * wc + 1) * (2 * hc + 1))) < 256 := by
    rw [Nat.div_lt_iff_lt_mul (by positivity)]
    have hpos : 0 < (2 * wc + 1) * (2 * hc + 1) := by positivity
    omega
  have hbyte : ∀ v : ℕ, min v 255 % 256 = min v 255 := fun v => Nat.mod_eq_of_lt (by omega)
  have horder : ∀ a b c d : BitVec 32, a - b + d - c = a - b - c + d := fun a b c d => by abel
  refine (pixel_normalizeBorder hw hh hx hy ?_).trans ?_
  · rw [hbyte, Nat.min_eq_left (Nat.le_of_lt_succ (Nat.mod_lt _ (by decide)))]
  · simp only [horder]
    unfold blockVal at hval
    simp only [hval, Nat.mod_eq_of_lt hfirst, hbyte]
    rw [Nat.mul_comm (2 * hc + 1)]
    rfl

/-- Where the picture is of one value, the mean is that value -- off the
border. -/
theorem pixel_pixBlockconvGray_flat {v : ℕ} (hv : v < 256) (hpos : 0 < wc)
    (hword : 255 * ((2 * wc + 1) * (2 * hc + 1)) < 2 ^ 32) (hx : wc < x)
    (hx' : x + wc < pixs.width) (hy : hc < y) (hy' : y + hc < pixs.height)
    (hflat : ∀ b a, x - wc ≤ b → b ≤ x + wc → y - hc ≤ a → a ≤ y + hc → pixs.pixel b a = v) :
    (pixBlockconvGray pixs none wc hc).pixel x y = v := by
  have hw : 2 * wc + 1 ≤ pixs.width := by omega
  have hh : 2 * hc + 1 ≤ pixs.height := by omega
  have hsize : windowSize pixs wc hc x y = (2 * wc + 1) * (2 * hc + 1) := by
    rw [windowSize, windowLength_inner hx (by omega), windowLength_inner hy (by omega),
      Nat.mul_comm]
  have hsum : windowSum (· % 256) pixs wc hc x y = (2 * wc + 1) * (2 * hc + 1) * v := by
    have hvalue : ∀ a ∈ Ico (windowMin hc y + 1) (windowMax pixs.height hc y + 1),
        ∀ b ∈ Ico (windowMin wc x + 1) (windowMax pixs.width wc x + 1),
          pixs.pixel b a % 256 = v := by
      intro a ha b hb
      rw [mem_Ico] at ha hb
      unfold windowMin windowMax at ha hb
      rw [hflat b a (by omega) (by omega) (by omega) (by omega), Nat.mod_eq_of_lt hv]
    calc windowSum (· % 256) pixs wc hc x y
        = ∑ a ∈ Ico (windowMin hc y + 1) (windowMax pixs.height hc y + 1),
            ∑ b ∈ Ico (windowMin wc x + 1) (windowMax pixs.width wc x + 1), v :=
          sum_congr rfl fun a ha => sum_congr rfl fun b hb => hvalue a ha b hb
      _ = windowSize pixs wc hc x y * v := by
          simp only [sum_const, card_window, smul_eq_mul, windowSize]
          ring
      _ = (2 * wc + 1) * (2 * hc + 1) * v := by rw [hsize]
  have hkernel : ¬ (wc = 0 ∧ hc = 0) := fun h => hpos.ne' h.1
  rw [pixBlockconvGray, reduceKernel_of_fits hw hh]
  simp only [if_neg hkernel, Option.getD_none]
  rw [pixel_blockconvLow hw hh hword (by omega) (by omega), hsum, hsize,
    Nat.mul_div_cancel _ (by positivity)]
  have hmean : (2 * ((2 * wc + 1) * (2 * hc + 1) * v) + (2 * wc + 1) * (2 * hc + 1)) /
      (2 * ((2 * wc + 1) * (2 * hc + 1))) = v := by
    have hone : 0 < (2 * wc + 1) * (2 * hc + 1) := by positivity
    generalize (2 * wc + 1) * (2 * hc + 1) = n at hone ⊢
    rw [← Nat.mul_assoc, Nat.mul_add_div (by omega), Nat.div_eq_of_lt (by omega), Nat.add_zero]
  rw [hmean]
  omega

end Bytes

end CardScanner
