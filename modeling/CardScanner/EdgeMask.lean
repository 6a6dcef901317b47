import CardScanner.BlockFilter
import CardScanner.BlurMask
import CardScanner.BrickMorph

/-!
# The edge mask of a page

`PixBinarizer::createEdgeMask` finds what is off the edges of a page's text: it smooths the
page, takes its edges, closes gaps between them, and looks for places where the edges are
sparse all around.  What it finds is made white before the page is binarized.

The mask is determined by the picture of the edges alone, in terms of rectangles and of
counts (`createEdgeMask_eq`).  So where edges are dense, a page is not touched, and where it
is of one grey, it comes out white (`binarize_flat`).
-/

namespace CardScanner

open Morphology

/-! ## Sobel filter -/

/-- `L_HORIZONTAL_EDGES`, `L_VERTICAL_EDGES` and `L_ALL_EDGES`. -/
inductive EdgeOrientation where
  | horizontal
  | vertical
  | all

/-- Three bytes below each other. -/
def sobelColumn (pixt : Raster ℕ) (i j : ℕ) : ℤ × ℤ × ℤ :=
  (pixt.pixel j i % 256, pixt.pixel j (i + 1) % 256, pixt.pixel j (i + 2) % 256)

/-- `val1` to `val9` in line `i`. -/
def sobelWindow (pixt : Raster ℕ) (i : ℕ) : ℕ → (ℤ × ℤ × ℤ) × (ℤ × ℤ × ℤ) × (ℤ × ℤ × ℤ)
  | 0 => (sobelColumn pixt i 0, sobelColumn pixt i 1, sobelColumn pixt i 2)
  -- shift right by 1 pixel; update incrementally
  | j + 1 => ((sobelWindow pixt i j).2.1, (sobelWindow pixt i j).2.2,
      sobelColumn pixt i (j + 1 + 2))

/-- `vald`: one of the two gradients, each divided by eight, or their sum,
which is capped. -/
def sobelValue (orientflag : EdgeOrientation) :
    (ℤ × ℤ × ℤ) × (ℤ × ℤ × ℤ) × (ℤ × ℤ × ℤ) → ℕ
  | ((val1, val2, val3), (val4, _, val6), (val7, val8, val9)) =>
    let gx := (val1 + 2 * val2 + val3 - val7 - 2 * val8 - val9).natAbs / 8
    let gy := (val1 + 2 * val4 + val7 - val3 - 2 * val6 - val9).natAbs / 8
    match orientflag with
    | .horizontal => gy
    | .vertical => gx
    | .all => min 255 (gx + gy)

/-- `pixSobelEdgeFilter`: the picture is mirrored at its border, so every
pixel has eight neighbours. -/
def pixSobelEdgeFilter (pixs : Raster ℕ) (orientflag : EdgeOrientation) : Option (Raster ℕ) :=
  (pixAddMirroredBorder pixs 1 1 1 1).map fun pixt =>
    ⟨pixs.width, pixs.height, fun j i => sobelValue orientflag (sobelWindow pixt i j)⟩

/-! ## Histogram -/

/-- `pixInvert` of a picture of eight bits. -/
def pixInvertGray (pixs : Raster ℕ) : Raster ℕ :=
  ⟨pixs.width, pixs.height, fun x y => 255 - pixs.pixel x y % 256⟩

/-- A picture of eight bits by its bytes. -/
def toPix (pixs : Raster ℕ) : Pix UInt8 pixs.width pixs.height :=
  ⟨fun i j => UInt8.ofNat (pixs.pixel i j)⟩

/-- `numaNormalizeHistogram`: the values are scaled to have this sum. -/
def numaNormalizeHistogram (nas : List ℕ) (tsum : ℚ) : List ℚ :=
  nas.map (· * (tsum / nas.sum))

/-- `numaGetHistogramStats`, the variance: bin `i` is at `startx + i *
deltax`. -/
def histogramVariance (nahisto : List ℚ) (startx deltax : ℚ) : ℚ :=
  let (sum, moment, var) := (List.range nahisto.length).foldl
    (fun (sum, moment, var) i =>
      let x := startx + i * deltax
      let y := nahisto.getD i 0
      (sum + y, moment + x * y, var + x * x * y)) ((0 : ℚ), (0 : ℚ), (0 : ℚ))
  if sum = 0 then 0 else var / sum - moment * moment / (sum * sum)

/-! ## Mask -/

/-- `pixForeground` of `createEdgeMask`, before its gaps are closed. -/
def edgeForeground (pixs : Raster ℕ) : Option (Raster Bool) :=
  let pixConv := pixBlockconvGray pixs none 5 5
  (pixSobelEdgeFilter pixConv .all).bind fun pixEdges =>
    let pixConvEdges := pixInvertGray pixEdges
    let norm := numaNormalizeHistogram (pixGetGrayHistogram (toPix pixConvEdges) 8) 1
    let thresh := if histogramVariance norm 0 1 < 1 then 255 else 254
    thresholdToBinary pixConvEdges thresh

/-- `PixBinarizer::createEdgeMask`: the edges are closed, and where they are
sparse around a pixel it belongs to the mask, which is opened in the end. -/
def createEdgeMask (pixs : Raster ℕ) : Option (Raster Bool) :=
  (edgeForeground pixs).bind fun pixForeground =>
  (pixCloseSafeBrick pixForeground 64 64).bind fun pixForeground =>
    let pixacc := pixBlockconvAccum Bool.toNat pixForeground
    (pixBlockrank pixForeground (some pixacc) 8 8 (1 / 10)).bind fun pixRank =>
      pixOpenBrick (pixInvert pixRank) 10 10

/-! ## Page -/

/-- `pixConvertRGBToLuminance`: 0.3 of the red, 0.5 of the green and 0.2 of
the blue. -/
def pixConvertRGBToLuminance (pixs : Raster (UInt8 × UInt8 × UInt8)) : Raster ℕ where
  width := pixs.width
  height := pixs.height
  pixel x y :=
    let (r, g, b) := pixs.pixel x y
    (3 * r.toNat + 5 * g.toNat + 2 * b.toNat + 5) / 10

/-- A page, by its depth. -/
inductive PagePix where
  | one (pix : Raster Bool)
  | eight (pix : Raster ℕ)
  | thirtyTwo (pix : Raster (UInt8 × UInt8 × UInt8))

/-- `pixGrey` of `binarize`.  A page of one bit is not converted: it is binary
already. -/
def PagePix.grey : PagePix → Option (Raster ℕ)
  | .one _ => none
  | .eight pix => some pix
  | .thirtyTwo pix => some (pixConvertRGBToLuminance pix)

/-- `PixBinarizer::binarize`; `determine` finds the threshold of a tile. -/
def binarize (determine : Option (Raster ℕ) → ℤ) (page : PagePix) : Option (Raster Bool) :=
  match page with
  | .one pix => some pix
  | page => page.grey.bind fun pixGrey =>
    (createEdgeMask pixGrey).bind fun pixEdgeMask =>
      (binarizeInternal determine (fun _ => pixEdgeMask) pixGrey none).map (·.1)

/-! ## Edges -/

section Edges

variable {pixs : Raster ℕ}

/-- Behind a border of one pixel, the picture is as it was. -/
theorem pixAddMirroredBorder_one (hw : 0 < pixs.width) (hh : 0 < pixs.height) :
    ∃ pixt, pixAddMirroredBorder pixs 1 1 1 1 = some pixt ∧
      ∀ x < pixs.width, ∀ y < pixs.height, pixt.pixel (x + 1) (y + 1) = pixs.pixel x y := by
  obtain ⟨pixt, hborder, -, -, hpixel⟩ := @pixAddMirroredBorder_spec _ _ pixs 1 1 1 1 hw hw hh hh
  refine ⟨pixt, hborder, fun x hx y hy => ?_⟩
  rw [hpixel (x + 1) (by omega) (y + 1) (by omega), Nat.add_comm x, Nat.add_comm y,
    mirror_inner hx, mirror_inner hy]

/-- The columns that are carried along a line are those around each pixel. -/
theorem sobelWindow_eq (pixt : Raster ℕ) (i j : ℕ) :
    sobelWindow pixt i j =
      (sobelColumn pixt i j, sobelColumn pixt i (j + 1), sobelColumn pixt i (j + 2)) := by
  induction j with
  | zero => rfl
  | succ j ih => rw [sobelWindow, ih]

/-- Within one gray there is no edge: away from the border, a pixel whose
eight neighbours have its value gets 0. -/
theorem pixel_pixSobelEdgeFilter_flat (hw : 0 < pixs.width) (hh : 0 < pixs.height) :
    ∃ pixd, pixSobelEdgeFilter pixs .all = some pixd ∧ pixd.width = pixs.width ∧
      pixd.height = pixs.height ∧ ∀ (v x y : ℕ), 0 < x → x + 1 < pixs.width → 0 < y →
        y + 1 < pixs.height →
        (∀ b a, x - 1 ≤ b → b ≤ x + 1 → y - 1 ≤ a → a ≤ y + 1 → pixs.pixel b a = v) →
        pixd.pixel x y = 0 := by
  obtain ⟨pixt, hborder, hpixel⟩ := pixAddMirroredBorder_one hw hh
  refine ⟨⟨pixs.width, pixs.height, fun j i => sobelValue .all (sobelWindow pixt i j)⟩,
    by rw [pixSobelEdgeFilter, hborder, Option.map_some], rfl, rfl, ?_⟩
  intro v x y hx hx' hy hy' hflat
  have hsame : ∀ b a, x ≤ b → b ≤ x + 2 → y ≤ a → a ≤ y + 2 → pixt.pixel b a = v := by
    intro b a hb hb' ha ha'
    have hinner := hpixel (b - 1) (by omega) (a - 1) (by omega)
    rw [Nat.sub_add_cancel (by omega), Nat.sub_add_cancel (by omega)] at hinner
    rw [hinner, hflat _ _ (by omega) (by omega) (by omega) (by omega)]
  have hcolumn : ∀ b, x ≤ b → b ≤ x + 2 →
      sobelColumn pixt y b = (((v : ℤ) % 256, (v : ℤ) % 256, (v : ℤ) % 256)) := by
    intro b hb hb'
    rw [sobelColumn, hsame b y hb hb' le_rfl (by omega),
      hsame b (y + 1) hb hb' (by omega) (by omega), hsame b (y + 2) hb hb' (by omega) le_rfl]
  simp only [sobelWindow_eq, hcolumn x le_rfl (by omega), hcolumn (x + 1) (by omega) (by omega),
    hcolumn (x + 2) (by omega) le_rfl, sobelValue]
  omega

/-- The edges of a page; none is where it is of one gray, off the border. -/
theorem edgeForeground_flat (hw : 0 < pixs.width) (hh : 0 < pixs.height) :
    ∃ fg, edgeForeground pixs = some fg ∧ fg.width = pixs.width ∧ fg.height = pixs.height ∧
      ∀ v < 256, ∀ x y, 7 ≤ x → x + 6 < pixs.width → 7 ≤ y → y + 6 < pixs.height →
        (∀ b a, x - 6 ≤ b → b ≤ x + 6 → y - 6 ≤ a → a ≤ y + 6 → pixs.pixel b a = v) →
        fg.pixel x y = false := by
  obtain ⟨hwc, hhc⟩ := @extent_pixBlockconvGray pixs 5 5
  obtain ⟨pixEdges, hsobel, hwe, hhe, hflatEdges⟩ :=
    @pixel_pixSobelEdgeFilter_flat (pixBlockconvGray pixs none 5 5) (by omega) (by omega)
  unfold edgeForeground
  simp only [hsobel, Option.bind_some]
  generalize hthresh : (if histogramVariance (numaNormalizeHistogram
    (pixGetGrayHistogram (toPix (pixInvertGray pixEdges)) 8) 1) 0 1 < 1 then 255 else 254) = thresh
  have hle : thresh ≤ 255 := by
    split_ifs at hthresh <;> omega
  refine ⟨_, if_neg (by omega), hwe.trans hwc, hhe.trans hhc, ?_⟩
  intro v hv x y hx hx' hy hy' hflat
  have hconv : ∀ b a, x - 1 ≤ b → b ≤ x + 1 → y - 1 ≤ a → a ≤ y + 1 →
      (pixBlockconvGray pixs none 5 5).pixel b a = v := by
    intro b a hb hb' ha ha'
    exact pixel_pixBlockconvGray_flat hv (by decide) (by decide) (by omega) (by omega) (by omega)
      (by omega) fun b' a' h1 h2 h3 h4 =>
        hflat b' a' (by omega) (by omega) (by omega) (by omega)
  have hnone := hflatEdges v x y (by omega) (by omega) (by omega) (by omega) hconv
  simp only [pixInvertGray, hnone, decide_eq_false_iff_not]
  omega

end Edges

/-! ## The mask, by rectangles and counts -/

/-- At this place of the picture the rank filter finds a share of ON pixels
below 25 in whole parts of 255, a tenth of them.  Both of its passes cut off
what is no whole part, so that nine of 81 pixels still count as less. -/
def Sparse (closed : Raster Bool) (q : ℤ × ℤ) : Prop :=
  q ∈ frame closed.width closed.height ∧
    windowShare closed (reduceKernel closed.width closed.height 8 8).1
      (reduceKernel closed.width closed.height 8 8).2 q.1.toNat q.2.toNat < 25

/-- What the mask of a page of `w` by `h` pixels has to do with its edges. -/
structure MasksOff (w h : ℕ) (fg closed mask : Raster Bool) : Prop where
  edges : fg.width = w ∧ fg.height = h
  filled : closed.width = w ∧ closed.height = h
  extent : mask.width = w ∧ mask.height = h
  /-- A gap between edges is closed unless a square of 64 pixels fits into it. -/
  closes : onPlane closed = {p | ∀ c, p ∈ block 64 64 c → ∃ q ∈ block 64 64 c, q ∈ onPlane fg}
  /-- The mask consists of the squares of 10 pixels all of which have few others around. -/
  masks : onPlane mask = {p | ∃ c, p ∈ block 10 10 c ∧ ∀ q ∈ block 10 10 c, Sparse closed q}

/-- **The mask** of every page of at least three pixels each way.  Each stage
has a result on the one before it, and what the stages do on the plane is put
together: a closing, the pixels with a low share, and an opening of those. -/
theorem createEdgeMask_eq {pixs : Raster ℕ} (hw : 3 ≤ pixs.width) (hh : 3 ≤ pixs.height) :
    ∃ fg closed mask, edgeForeground pixs = some fg ∧ createEdgeMask pixs = some mask ∧
      MasksOff pixs.width pixs.height fg closed mask := by
  obtain ⟨fg, hfg, hwf, hhf, -⟩ := @edgeForeground_flat pixs (by omega) (by omega)
  obtain ⟨closed, hclosed, hwc, hhc, honc⟩ :=
    @onPlane_pixCloseSafeBrick 64 64 fg (by omega) (by omega) (by decide) (by decide)
  obtain ⟨pixRank, hrank, hwr, hhr, hshare⟩ :=
    @pixBlockrank_share closed (some (pixBlockconvAccum Bool.toNat closed))
      (fun acc hacc => (Option.mem_some_iff.mp hacc).symm) 8 8 (1 / 10) (by omega) (by omega)
      (by decide) (by decide) (by decide) (by norm_num) (by norm_num)
  obtain ⟨mask, hmask, hwm, hhm, honm⟩ :=
    @onPlane_pixOpenBrick 10 10 (pixInvert pixRank) (by decide) (by decide)
  have hinvert : onPlane (pixInvert pixRank) = {q | Sparse closed q} := by
    have hfloor : ⌊255 * (1 / 10 : ℚ)⌋ = 25 := by norm_num
    ext q
    have hframe : q ∈ frame (pixInvert pixRank).width (pixInvert pixRank).height ↔
        q ∈ frame closed.width closed.height := by
      rw [← hwr, ← hhr]
      exact Iff.rfl
    refine (and_congr_left' hframe).trans (and_congr_right fun hq => ?_)
    obtain ⟨⟨hx, hx'⟩, hy, hy'⟩ := hq
    have h := hshare q.1.toNat (by omega) q.2.toNat (by omega)
    rw [hfloor] at h
    rw [pixInvert, Bool.not_eq_true', ← Bool.not_eq_true, h, not_le]
    exact Iff.rfl
  refine ⟨fg, closed, mask, hfg, ?_, ⟨hwf, hhf⟩, ⟨by omega, by omega⟩, ⟨?_, ?_⟩, ?_, ?_⟩
  · rw [createEdgeMask, hfg, Option.bind_some, hclosed, Option.bind_some]
    simp only [hrank, Option.bind_some]
    exact hmask
  · rw [hwm]
    exact hwr.trans (hwc.trans hwf)
  · rw [hhm]
    exact hhr.trans (hhc.trans hhf)
  · rw [honc, closing_brick]
  · rw [honm, opening_brick, hinvert]
    rfl

/-- A page of one gray on its left, with stripes of eight pixels on its right. -/
def stripedPage : Raster ℕ :=
  ⟨240, 120, fun x _ => if x < 120 then 200 else if x / 8 % 2 = 0 then 40 else 200⟩

theorem createEdgeMask_eq_striped :
    ∃ fg closed mask, edgeForeground stripedPage = some fg ∧
      createEdgeMask stripedPage = some mask ∧ MasksOff 240 120 fg closed mask :=
  @createEdgeMask_eq stripedPage (by decide) (by decide)

section Mask

variable {fg closed mask : Raster Bool} {w h : ℕ}

/-- A pixel around which edges are dense is not in the mask: with 29 edge
pixels in its window it is not sparse. -/
theorem MasksOff.dense (hmasks : MasksOff w h fg closed mask)
    {x y : ℕ} (hx : 8 < x) (hx' : x + 8 < w) (hy : 8 < y) (hy' : y + 8 < h)
    (hdense : 29 ≤ windowSum Bool.toNat fg 8 8 x y) : mask.pixel x y = false := by
  obtain ⟨⟨hwf, hhf⟩, ⟨hwc, hhc⟩, ⟨hwm, hhm⟩, hclosed, hmask⟩ := hmasks
  rw [← Bool.not_eq_true, ← mem_onPlane_cast (by omega) (by omega), hmask]
  rintro ⟨c, hp, hall⟩
  obtain ⟨-, hsparse⟩ := hall _ hp
  rw [hwc, hhc, reduceKernel_of_fits (by omega) (by omega)] at hsparse
  simp only [Int.toNat_natCast] at hsparse
  have hfull : windowSize closed 8 8 x y = (2 * 8 + 1) * (2 * 8 + 1) := by
    rw [windowSize, windowLength_inner hy (by omega), windowLength_inner hx (by omega)]
  rw [windowShare_full hfull] at hsparse
  have hmono : windowSum Bool.toNat fg 8 8 x y ≤ windowSum Bool.toNat closed 8 8 x y := by
    refine windowSum_mono (by omega) (by omega) fun b a _ _ hb _ _ ha => ?_
    have hsub : fg.pixel b a = true → closed.pixel b a = true := by
      intro hon
      rw [← mem_onPlane_cast (by omega) (by omega), hclosed]
      exact fun c hc => ⟨_, hc, (mem_onPlane_cast hb ha).mpr hon⟩
    exact Bool.toNat_le_toNat hsub
  omega

/-- A rectangle of at least 77 pixels each way whose inside has no edges is in
the mask, but for its rim: around every pixel far enough inside there is a
square of 64 pixels in the rectangle, which keeps the closing from filling it. -/
theorem MasksOff.flat (hmasks : MasksOff w h fg closed mask)
    {x0 y0 m n : ℕ} (hm : 77 ≤ m) (hn : 77 ≤ n) (hright : x0 + m ≤ w) (hbottom : y0 + n ≤ h)
    (hoff : ∀ x y, x0 + 7 ≤ x → x + 6 < x0 + m → y0 + 7 ≤ y → y + 6 < y0 + n →
      fg.pixel x y = false) {x y : ℕ} (hx : x0 + 15 ≤ x) (hx' : x + 14 < x0 + m)
    (hy : y0 + 15 ≤ y) (hy' : y + 14 < y0 + n) : mask.pixel x y = true := by
  obtain ⟨⟨hwf, hhf⟩, ⟨hwc, hhc⟩, ⟨hwm, hhm⟩, hclosed, hmask⟩ := hmasks
  have hoffClosed : ∀ b a, x0 + 7 ≤ b → b + 6 < x0 + m → y0 + 7 ≤ a → a + 6 < y0 + n →
      closed.pixel b a = false := by
    intro b a hb hb' ha ha'
    rw [← Bool.not_eq_true, ← mem_onPlane_cast (by omega) (by omega), hclosed]
    intro hall
    obtain ⟨q, ⟨hqx, hqy⟩, hq⟩ := hall ((min b (x0 + m - 70) : ℕ), (min a (y0 + n - 70) : ℕ))
      ⟨⟨by simp only; omega, by simp only; omega⟩, by simp only; omega, by simp only; omega⟩
    simp only at hqx hqy
    have hpixel := hoff q.1.toNat q.2.toNat (by omega) (by omega) (by omega) (by omega)
    have hon := hq.2
    rw [hpixel] at hon
    exact Bool.false_ne_true hon
  have hsparse : ∀ b a : ℕ, x0 + 15 ≤ b → b + 14 < x0 + m → y0 + 15 ≤ a → a + 14 < y0 + n →
      windowShare closed 8 8 b a < 25 := by
    intro b a hb hb' ha ha'
    have hnone : windowSum Bool.toNat closed 8 8 b a = 0 := by
      refine Finset.sum_eq_zero fun a' hain => Finset.sum_eq_zero fun b' hbin => ?_
      rw [Finset.mem_Ico] at hain hbin
      unfold windowMin windowMax at hain hbin
      rw [hoffClosed b' a' (by omega) (by omega) (by omega) (by omega), Bool.toNat_false]
    rw [windowShare, hnone]
    simp
  rw [← mem_onPlane_cast (by omega) (by omega), hmask]
  refine ⟨((min x (x0 + m - 24) : ℕ), (min y (y0 + n - 24) : ℕ)),
    ⟨⟨by simp only; omega, by simp only; omega⟩, by simp only; omega, by simp only; omega⟩, ?_⟩
  rintro q ⟨hqx, hqy⟩
  simp only at hqx hqy
  refine ⟨⟨⟨by omega, by omega⟩, by omega, by omega⟩, ?_⟩
  rw [hwc, hhc, reduceKernel_of_fits (by omega) (by omega)]
  exact hsparse _ _ (by omega) (by omega) (by omega) (by omega)

end Mask

/-! ## The page -/

/-- A rectangle of the picture is of one gray. -/
def Flat (pixs : Raster ℕ) (x0 y0 m n : ℕ) : Prop :=
  (x0 + m ≤ pixs.width ∧ y0 + n ≤ pixs.height) ∧
    ∃ v < 256, ∀ b a, x0 ≤ b → b < x0 + m → y0 ≤ a → a < y0 + n → pixs.pixel b a = v

/-- **What the mask does to a page.**  For every gray or colour page and
whatever the thresholds are: where at least 29 of the 289 pixels around are
edges, a pixel is compared as it was with the threshold of its tile; and a
rectangle of one gray, of at least 77 pixels each way, comes out white but for
its rim. -/
theorem binarize_page (determine : Option (Raster ℕ) → ℤ) {page : PagePix} {pixGrey : Raster ℕ}
    (hgrey : page.grey = some pixGrey) (hw : 10 ≤ pixGrey.width) (hh : 3 ≤ pixGrey.height) :
    ∃ fg mask pixb, edgeForeground pixGrey = some fg ∧ createEdgeMask pixGrey = some mask ∧
      binarize determine page = some pixb ∧
      (pixb.width = pixGrey.width ∧ pixb.height = pixGrey.height) ∧
      (∀ x y, 8 < x → x + 8 < pixGrey.width → 8 < y → y + 8 < pixGrey.height →
        29 ≤ windowSum Bool.toNat fg 8 8 x y →
        ∃ i j, InTile pixGrey (tileCount pixGrey.width (pixGrey.width / 10))
            (tileCount pixGrey.height (pixGrey.width / 10)) i j x y ∧
          (pixb.pixel x y = true ↔ pixGrey.pixel x y <
            (tileThresholds determine (pixSetMasked pixGrey mask 255)
              (tileCount pixGrey.width (pixGrey.width / 10))
              (tileCount pixGrey.height (pixGrey.width / 10))).pixel j i)) ∧
      ∀ x0 y0 m n, 77 ≤ m → 77 ≤ n → Flat pixGrey x0 y0 m n → ∀ x y, x0 + 15 ≤ x →
        x + 14 < x0 + m → y0 + 15 ≤ y → y + 14 < y0 + n → pixb.pixel x y = false := by
  obtain ⟨fg, closed, mask, hfg, hmask, hmasks⟩ := @createEdgeMask_eq pixGrey (by omega) hh
  obtain ⟨fg', hfg', -, -, hflat⟩ := @edgeForeground_flat pixGrey (by omega) (by omega)
  obtain rfl : fg = fg' := Option.some.inj (hfg.symm.trans hfg')
  have htile : 0 < pixGrey.width / 10 := Nat.div_pos hw (by decide)
  obtain ⟨pixb, hrun, hwb, hhb, hpixel⟩ := @binarizeTiled_eq determine
    (pixSetMasked pixGrey mask 255) (pixGrey.width / 10) htile (show 0 < pixGrey.width by omega)
    (show 0 < pixGrey.height by omega)
  have hbinarize : binarize determine page = some pixb := by
    have hinternal : binarizeInternal determine (fun _ => mask) pixGrey none =
        some (pixb, none) := by
      simp only [binarizeInternal, hrun, Option.map_none, Option.map_some]
    cases page with
    | one pix => cases hgrey
    | eight pix | thirtyTwo pix =>
        simp only [binarize, hgrey, Option.bind_some, hmask, hinternal, Option.map_some]
  refine ⟨fg, mask, pixb, hfg, hmask, hbinarize, ⟨hwb, hhb⟩, ?_, ?_⟩
  · intro x y hx hx' hy hy' hdense
    have hoff := hmasks.dense hx hx' hy hy' hdense
    refine ⟨_, _, (inTile_iff (by omega) (by omega) (by omega) (by omega) _ _).mpr ⟨rfl, rfl⟩, ?_⟩
    rw [hpixel x (by simp only [pixSetMasked]; omega) y (by simp only [pixSetMasked]; omega),
      decide_eq_true_iff]
    have hsame : (pixSetMasked pixGrey mask 255).pixel x y = pixGrey.pixel x y :=
      if_neg fun h => Bool.false_ne_true (hoff.symm.trans h.2.2)
    rw [hsame]
    rfl
  · rintro x0 y0 m n hm hn ⟨⟨hright, hbottom⟩, v, hv, hgray⟩ x y hx hx' hy hy'
    have hon : mask.pixel x y = true :=
      hmasks.flat hm hn hright hbottom (fun b a hb hb' ha ha' =>
        hflat v hv b a (by omega) (by omega) (by omega) (by omega) fun b' a' h1 h2 h3 h4 =>
          hgray b' a' (by omega) (by omega) (by omega) (by omega)) hx hx' hy hy'
    have hwhite : (pixSetMasked pixGrey mask 255).pixel x y = 255 :=
      if_pos ⟨by have := hmasks.extent.1; omega, by have := hmasks.extent.2; omega, hon⟩
    rw [hpixel x (by simp only [pixSetMasked]; omega) y (by simp only [pixSetMasked]; omega),
      hwhite, decide_eq_false_iff_not, not_lt]
    exact Nat.le_of_lt_succ (tileThresholds_lt determine _ _ _ _)

/-- Its stripes stay, its left half comes out white. -/
theorem binarize_page_striped :
    ∃ fg mask pixb, edgeForeground stripedPage = some fg ∧ createEdgeMask stripedPage = some mask ∧
      binarize (fun _ => 100) (.eight stripedPage) = some pixb ∧
      (pixb.width = stripedPage.width ∧ pixb.height = stripedPage.height) ∧
      (∀ x y, 8 < x → x + 8 < stripedPage.width → 8 < y → y + 8 < stripedPage.height →
        29 ≤ windowSum Bool.toNat fg 8 8 x y →
        ∃ i j, InTile stripedPage (tileCount stripedPage.width (stripedPage.width / 10))
            (tileCount stripedPage.height (stripedPage.width / 10)) i j x y ∧
          (pixb.pixel x y = true ↔ stripedPage.pixel x y <
            (tileThresholds (fun _ => 100) (pixSetMasked stripedPage mask 255)
              (tileCount stripedPage.width (stripedPage.width / 10))
              (tileCount stripedPage.height (stripedPage.width / 10))).pixel j i)) ∧
      ∀ x0 y0 m n, 77 ≤ m → 77 ≤ n → Flat stripedPage x0 y0 m n → ∀ x y, x0 + 15 ≤ x →
        x + 14 < x0 + m → y0 + 15 ≤ y → y + 14 < y0 + n → pixb.pixel x y = false :=
  binarize_page (fun _ => 100) rfl (by decide) (by decide)

end CardScanner
