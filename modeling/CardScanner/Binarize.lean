import CardScanner.Tiling

/-!
# The binarization of a page

`PixBinarizer::binarizeTiled` finds a threshold for each tile from the tile and what
overlaps it, and applies it to the tile alone.  Whatever the thresholds are, each pixel
is painted by the tile that it is in, and by no other (`binarizeTiled_pixel`); so what a
pixel becomes depends on the picture near it only (`binarizeTiled_local`).

`binarizeInternal` first makes all white what is off the edges of the page's text.  A
white pixel is below no threshold of eight bits, so it stays white, and the mask of
images, which is cut to the same pixels, changes nothing (`binarizeInternal_masked`).
-/

namespace CardScanner

/-- `pixThresholdToBinary` of a picture of eight bits, with its check of the
threshold. -/
def thresholdToBinary (pixs : Raster ℕ) (thresh : ℕ) : Option (Raster Bool) :=
  if thresh > 256 then none
  else some ⟨pixs.width, pixs.height, fun x y => pixs.pixel x y < thresh⟩

/-- The number of tiles along one axis. -/
def tileCount (total tileSize : ℕ) : ℕ := max 1 (total / tileSize)

/-- The overlap along one axis; it follows the number of tiles, not their
size. -/
def tileOverlap (n : ℕ) : ℕ := max 1 (n / 6)

section Tiled

-- `determineThresholdForTile`; there is no tile where the overlap is larger than one
variable (determine : Option (Raster ℕ) → ℤ)

/-- The thresholds, in a picture of eight bits. -/
def tileThresholds (pixs : Raster ℕ) (nx ny : ℕ) : Raster ℕ :=
  let pt := pixTilingCreate pixs nx ny (tileOverlap nx) (tileOverlap ny)
  { width := nx
    height := ny
    pixel := fun j i => (determine (pt.bind fun pt => pixTilingGetTile pt i j) % 256).toNat }

/-- The body of the second loop of `binarizeTiled`. -/
def binarizeTile (pt : PixTiling ℕ) (pixth : Raster ℕ) (pixb : Raster Bool) (i j : ℕ) :
    Raster Bool :=
  match (pixTilingGetTile pt i j).bind fun pixt => thresholdToBinary pixt (pixth.pixel j i) with
  | some pixbTile => pixTilingPaintTile pixb i j pixbTile pt
  | none => pixb

/-- The second loop of `binarizeTiled`. -/
def binarizeTiles (pt : PixTiling ℕ) (pixth : Raster ℕ) (pixb : Raster Bool) : Raster Bool :=
  (List.range pt.ny).foldl
    (fun pixb i =>
      (List.range pt.nx).foldl (fun pixb j => binarizeTile pt pixth pixb i j) pixb) pixb

/-- `binarizeTiled`; it divides by the size of the tiles. -/
def binarizeTiled (pixs : Raster ℕ) (tileSize : ℕ) : Option (Raster Bool) :=
  if tileSize = 0 then none
  else
    let nx := tileCount pixs.width tileSize
    let ny := tileCount pixs.height tileSize
    let pixth := tileThresholds determine pixs nx ny
    let pixb := Raster.blank false pixs.width pixs.height
    match pixTilingCreate pixs nx ny 0 0 with
    | none => some pixb
    | some pt => some (binarizeTiles pt pixth pixb)

end Tiled

/-- `pixSetMasked`: pixels under an ON pixel of the mask get the value.  The
two pictures are laid over each other at their upper left corners. -/
def pixSetMasked {α : Type*} (pixd : Raster α) (pixm : Raster Bool) (val : α) : Raster α where
  width := pixd.width
  height := pixd.height
  pixel x y :=
    if x < pixm.width ∧ y < pixm.height ∧ pixm.pixel x y then val else pixd.pixel x y

/-- `pixAnd` into the first picture. -/
def pixAnd (pixs1 pixs2 : Raster Bool) : Raster Bool where
  width := pixs1.width
  height := pixs1.height
  pixel x y :=
    if x < pixs2.width ∧ y < pixs2.height then pixs1.pixel x y && pixs2.pixel x y
    else pixs1.pixel x y

/-- `binarizeInternal`: the black and white picture and the mask of images as
it is left; `createEdgeMask` finds what is off the edges of the text. -/
def binarizeInternal (determine : Option (Raster ℕ) → ℤ)
    (createEdgeMask : Raster ℕ → Raster Bool) (pixGrey : Raster ℕ)
    (pixhm : Option (Raster Bool)) : Option (Raster Bool × Option (Raster Bool)) :=
  let tileSize := pixGrey.width / 10
  let pixEdgeMask := createEdgeMask pixGrey
  let pixGrey := pixSetMasked pixGrey pixEdgeMask 255
  let pixhm := pixhm.map fun pixhm => pixAnd pixhm pixEdgeMask
  (binarizeTiled determine pixGrey tileSize).map fun pixb =>
    match pixhm with
    | some hm => (pixSetMasked pixb hm false, some hm)
    | none => (pixb, none)

/-! ## One tile -/

/-- Painting a tile does not change the extent of the picture, even if the
tile is not there. -/
theorem extent_binarizeTile (pt : PixTiling ℕ) (pixth : Raster ℕ) (pixb : Raster Bool)
    (i j : ℕ) : (binarizeTile pt pixth pixb i j).width = pixb.width ∧
      (binarizeTile pt pixth pixb i j).height = pixb.height := by
  have hpaint : ∀ pixbTile, (pixTilingPaintTile pixb i j pixbTile pt).width = pixb.width ∧
      (pixTilingPaintTile pixb i j pixbTile pt).height = pixb.height := by
    intro pixbTile
    unfold pixTilingPaintTile
    split_ifs
    · exact ⟨rfl, rfl⟩
    · exact ⟨rfl, rfl⟩
  unfold binarizeTile
  cases (pixTilingGetTile pt i j).bind fun pixt =>
      thresholdToBinary pixt (pixth.pixel j i) with
  | none => exact ⟨rfl, rfl⟩
  | some pixbTile => exact hpaint pixbTile

/-- What a tile paints, where its threshold is one of eight bits: its own
rectangle. -/
theorem pixel_binarizeTile {pt : PixTiling ℕ} (hx : pt.xoverlap = 0) (hy : pt.yoverlap = 0)
    (hw : 0 < pt.w) (hh : 0 < pt.h) {pixth : Raster ℕ} (hthresh : ∀ j i, pixth.pixel j i < 256)
    {pixb : Raster Bool} (hwidth : pixb.width = pt.pix.width)
    (hheight : pixb.height = pt.pix.height) {x y : ℕ} (hxlt : x < pt.pix.width)
    (hylt : y < pt.pix.height) {i j : ℕ} (hi : i < pt.ny) (hj : j < pt.nx) :
    (binarizeTile pt pixth pixb i j).pixel x y =
      if i = tileOf pt.ny pt.h y ∧ j = tileOf pt.nx pt.w x then
        decide (pt.pix.pixel x y < pixth.pixel j i)
      else pixb.pixel x y := by
  obtain ⟨pixt, htile, hpixtw, hpixth, hpixel⟩ := getTile_plain hx hy hw hh hi hj
  have hsmall : ¬ pixth.pixel j i > 256 := by
    have := hthresh j i
    omega
  have hin : ¬ (i ≥ pt.ny ∨ j ≥ pt.nx) := by omega
  have hcolumn := mem_tile_iff pt.nx_pos hw hxlt hj
  have hrow := mem_tile_iff pt.ny_pos hh hylt hi
  simp only [binarizeTile, htile, Option.bind_some, thresholdToBinary, if_neg hsmall,
    pixTilingPaintTile, if_neg hin, hx, hy, Nat.mul_zero, Nat.sub_zero, Raster.blit, Nat.zero_add,
    hwidth, hheight]
  change (j * pt.w ≤ x ∧ x < j * pt.w + tileExtent pt.pix.width pt.nx pt.w 0 j) ↔
    j = tileOf pt.nx pt.w x at hcolumn
  change (i * pt.h ≤ y ∧ y < i * pt.h + tileExtent pt.pix.height pt.ny pt.h 0 i) ↔
    i = tileOf pt.ny pt.h y at hrow
  rw [← hpixtw] at hcolumn
  rw [← hpixth] at hrow
  by_cases hover : i = tileOf pt.ny pt.h y ∧ j = tileOf pt.nx pt.w x
  · obtain ⟨htop, hbottom⟩ := hrow.mpr hover.1
    obtain ⟨hleft, hright⟩ := hcolumn.mpr hover.2
    rw [if_pos hover, if_pos (by omega), hpixel _ (by omega) _ (by omega),
      Nat.add_sub_cancel' hleft, Nat.add_sub_cancel' htop]
  · rw [if_neg hover, if_neg]
    rintro ⟨⟨hleft, hright, -⟩, htop, hbottom, -⟩
    exact hover ⟨hrow.mp ⟨htop, hbottom⟩, hcolumn.mp ⟨hleft, hright⟩⟩

/-! ## The whole picture -/

/-- The two loops as one over all tiles. -/
theorem binarizeTiles_eq (pt : PixTiling ℕ) (pixth : Raster ℕ) (pixb : Raster Bool) :
    binarizeTiles pt pixth pixb =
      ((List.range pt.ny).flatMap fun i => (List.range pt.nx).map (Prod.mk i)).foldl
        (fun pixb tile => binarizeTile pt pixth pixb tile.1 tile.2) pixb := by
  simp only [binarizeTiles, List.foldl_flatMap, List.foldl_map]

theorem extent_binarizeTiles (pt : PixTiling ℕ) (pixth : Raster ℕ) (pixb : Raster Bool) :
    (binarizeTiles pt pixth pixb).width = pixb.width ∧
      (binarizeTiles pt pixth pixb).height = pixb.height := by
  rw [binarizeTiles_eq]
  exact Raster.extent_foldl (fun d t => extent_binarizeTile pt pixth d t.1 t.2) _ _

/-- Each pixel is painted by the tile it is in: without overlaps the tiles
cover the picture, and no tile reaches into another. -/
theorem pixel_binarizeTiles {pt : PixTiling ℕ} (hx : pt.xoverlap = 0) (hy : pt.yoverlap = 0)
    (hw : 0 < pt.w) (hh : 0 < pt.h) {pixth : Raster ℕ} (hthresh : ∀ j i, pixth.pixel j i < 256)
    {pixb : Raster Bool} (hwidth : pixb.width = pt.pix.width)
    (hheight : pixb.height = pt.pix.height) {x y : ℕ} (hxlt : x < pt.pix.width)
    (hylt : y < pt.pix.height) :
    (binarizeTiles pt pixth pixb).pixel x y = decide (pt.pix.pixel x y <
      pixth.pixel (tileOf pt.nx pt.w x) (tileOf pt.ny pt.h y)) := by
  have hmem : ∀ tile ∈ (List.range pt.ny).flatMap fun i => (List.range pt.nx).map (Prod.mk i),
      tile.1 < pt.ny ∧ tile.2 < pt.nx := by
    intro tile htile
    obtain ⟨i, hi, hmap⟩ := List.mem_flatMap.mp htile
    obtain ⟨j, hj, rfl⟩ := List.mem_map.mp hmap
    exact ⟨List.mem_range.mp hi, List.mem_range.mp hj⟩
  have hbody : ∀ tile ∈ (List.range pt.ny).flatMap fun i => (List.range pt.nx).map (Prod.mk i),
      ∀ d : Raster Bool, d.width = pt.pix.width → d.height = pt.pix.height → _ :=
    fun tile htile d hdw hdh =>
      pixel_binarizeTile hx hy hw hh hthresh hdw hdh hxlt hylt (hmem tile htile).1
        (hmem tile htile).2
  rw [binarizeTiles_eq]
  refine Raster.pixel_foldl (fun tile => tile.1 = tileOf pt.ny pt.h y ∧
      tile.2 = tileOf pt.nx pt.w x) (fun d t => extent_binarizeTile pt pixth d t.1 t.2)
    ?_ ?_ ?_ hwidth hheight
  · intro tile htile d hdw hdh hover
    rw [hbody tile htile d hdw hdh, if_pos hover, hover.1, hover.2]
  · intro tile htile d hdw hdh hover
    rw [hbody tile htile d hdw hdh, if_neg hover]
  · have hi : tileOf pt.ny pt.h y < pt.ny := tileOf_lt pt.ny_pos _
    have hj : tileOf pt.nx pt.w x < pt.nx := tileOf_lt pt.nx_pos _
    exact ⟨_, List.mem_flatMap.mpr ⟨_, List.mem_range.mpr hi,
      List.mem_map.mpr ⟨_, List.mem_range.mpr hj, rfl⟩⟩, rfl, rfl⟩

/-- Even a picture smaller than a tile has one of them. -/
theorem tileCount_pos (total tileSize : ℕ) : 0 < tileCount total tileSize := by
  unfold tileCount
  omega

/-- No tile is empty. -/
theorem tile_pos {total tileSize : ℕ} (htotal : 0 < total) :
    0 < total / tileCount total tileSize := by
  refine Nat.div_pos ?_ (tileCount_pos total tileSize)
  unfold tileCount
  have := Nat.div_le_self total tileSize
  omega

/-- The tiling in which the thresholds are applied. -/
def plainTiling (pixs : Raster ℕ) (tileSize : ℕ) : PixTiling ℕ where
  pix := pixs
  nx := tileCount pixs.width tileSize
  ny := tileCount pixs.height tileSize
  xoverlap := 0
  yoverlap := 0
  nx_pos := tileCount_pos _ _
  ny_pos := tileCount_pos _ _
  xfits := Nat.zero_le _
  yfits := Nat.zero_le _

/-- `pixTilingCreate`, asked for a number of tiles and no overlap, gives the
tiles that `tileOf` tells apart. -/
theorem pixTilingCreate_plain (pixs : Raster ℕ) (tileSize : ℕ) :
    pixTilingCreate pixs (tileCount pixs.width tileSize) (tileCount pixs.height tileSize) 0 0 =
      some (plainTiling pixs tileSize) :=
  dif_pos ⟨tileCount_pos _ _, tileCount_pos _ _, Nat.zero_le _, Nat.zero_le _⟩

/-- The pixel at `(x, y)` is in the tile of row `i` and column `j`. -/
structure InTile (pixs : Raster ℕ) (nx ny i j x y : ℕ) : Prop where
  row : i < ny
  column : j < nx
  below : i * (pixs.height / ny) ≤ y
  above : y < i * (pixs.height / ny) + tileExtent pixs.height ny (pixs.height / ny) 0 i
  right : j * (pixs.width / nx) ≤ x
  left : x < j * (pixs.width / nx) + tileExtent pixs.width nx (pixs.width / nx) 0 j

variable (determine : Option (Raster ℕ) → ℤ) {pixs : Raster ℕ} {tileSize : ℕ}

/-- A pixel lies in exactly one tile: the one whose row and column are the
quotients of its coordinates, where the last tile of a row takes the rest. -/
theorem inTile_iff (hw : 0 < pixs.width) (hh : 0 < pixs.height) {x y : ℕ} (hx : x < pixs.width)
    (hy : y < pixs.height) (i j : ℕ) :
    InTile pixs (tileCount pixs.width tileSize) (tileCount pixs.height tileSize) i j x y ↔
      i = tileOf (tileCount pixs.height tileSize)
          (pixs.height / tileCount pixs.height tileSize) y ∧
        j = tileOf (tileCount pixs.width tileSize)
          (pixs.width / tileCount pixs.width tileSize) x := by
  constructor
  · intro h
    exact ⟨(mem_tile_iff (tileCount_pos _ _) (tile_pos hh) hy h.row).mp ⟨h.below, h.above⟩,
      (mem_tile_iff (tileCount_pos _ _) (tile_pos hw) hx h.column).mp ⟨h.right, h.left⟩⟩
  · rintro ⟨hi, hj⟩
    have hilt := hi ▸ tileOf_lt (x := y) (tileCount_pos pixs.height tileSize) _
    have hjlt := hj ▸ tileOf_lt (x := x) (tileCount_pos pixs.width tileSize) _
    obtain ⟨hbelow, habove⟩ := (mem_tile_iff (tileCount_pos _ _) (tile_pos hh) hy hilt).mpr hi
    obtain ⟨hright, hleft⟩ := (mem_tile_iff (tileCount_pos _ _) (tile_pos hw) hx hjlt).mpr hj
    exact ⟨hilt, hjlt, hbelow, habove, hright, hleft⟩

/-- A stored threshold is a byte, whatever has been found for the tile. -/
theorem tileThresholds_lt (nx ny j i : ℕ) :
    (tileThresholds determine pixs nx ny).pixel j i < 256 := by
  simp only [tileThresholds]
  omega

/-- Each pixel of the result is the picture's compared with the threshold of a
tile. -/
theorem binarizeTiled_eq (htile : 0 < tileSize) (hw : 0 < pixs.width) (hh : 0 < pixs.height) :
    ∃ pixb, binarizeTiled determine pixs tileSize = some pixb ∧ pixb.width = pixs.width ∧
      pixb.height = pixs.height ∧ ∀ x < pixs.width, ∀ y < pixs.height,
        pixb.pixel x y = decide (pixs.pixel x y <
          (tileThresholds determine pixs (tileCount pixs.width tileSize)
            (tileCount pixs.height tileSize)).pixel
              (tileOf (tileCount pixs.width tileSize)
                (pixs.width / tileCount pixs.width tileSize) x)
              (tileOf (tileCount pixs.height tileSize)
                (pixs.height / tileCount pixs.height tileSize) y)) := by
  have hcolumns : 0 < (plainTiling pixs tileSize).w := tile_pos hw
  have hrows : 0 < (plainTiling pixs tileSize).h := tile_pos hh
  obtain ⟨hwidth, hheight⟩ := extent_binarizeTiles (plainTiling pixs tileSize)
    (tileThresholds determine pixs (tileCount pixs.width tileSize)
      (tileCount pixs.height tileSize)) (Raster.blank false pixs.width pixs.height)
  refine ⟨_, ?_, hwidth, hheight, fun x hx y hy => ?_⟩
  · simp only [binarizeTiled, if_neg htile.ne', pixTilingCreate_plain]
  · exact pixel_binarizeTiles rfl rfl hcolumns hrows
      (fun j i => tileThresholds_lt determine _ _ j i) rfl rfl hx hy

/-- **Every pixel is painted by its tile.**  `binarizeTiled` has a result of
the picture's extent; each pixel is in exactly one tile, and is black if it is
darker than the threshold of that tile, else white. -/
theorem binarizeTiled_pixel (htile : 0 < tileSize) (hw : 0 < pixs.width)
    (hh : 0 < pixs.height) :
    ∃ pixb, binarizeTiled determine pixs tileSize = some pixb ∧ pixb.width = pixs.width ∧
      pixb.height = pixs.height ∧ ∀ x < pixs.width, ∀ y < pixs.height, ∃ i j,
        (∀ i' j', InTile pixs (tileCount pixs.width tileSize) (tileCount pixs.height tileSize)
          i' j' x y ↔ i' = i ∧ j' = j) ∧
        (pixb.pixel x y ↔ pixs.pixel x y < (tileThresholds determine pixs
          (tileCount pixs.width tileSize) (tileCount pixs.height tileSize)).pixel j i) := by
  obtain ⟨pixb, hrun, hwidth, hheight, hpixel⟩ := binarizeTiled_eq determine htile hw hh
  refine ⟨pixb, hrun, hwidth, hheight, fun x hx y hy => ⟨_, _, inTile_iff hw hh hx hy, ?_⟩⟩
  rw [hpixel x hx y hy, decide_eq_true_iff]

/-- A row of twenty pixels, in two tiles. -/
theorem binarizeTiled_pixel_row :
    ∃ pixb, binarizeTiled (fun _ => 100) ⟨20, 1, fun x _ => 10 * x⟩ 8 = some pixb ∧
      pixb.width = 20 ∧ pixb.height = 1 ∧ ∀ x < 20, ∀ y < 1, ∃ i j,
        (∀ i' j', InTile ⟨20, 1, fun x _ => 10 * x⟩ (tileCount 20 8) (tileCount 1 8) i' j' x y ↔
          i' = i ∧ j' = j) ∧
        (pixb.pixel x y ↔ 10 * x < (tileThresholds (fun _ => 100) ⟨20, 1, fun x _ => 10 * x⟩
          (tileCount 20 8) (tileCount 1 8)).pixel j i) :=
  binarizeTiled_pixel (fun _ => 100) (by decide) (by decide) (by decide)

/-- The pixel at `(x, y)` is in the tile of row `i` and column `j` or its
overlap. -/
structure NearTile (pixs : Raster ℕ) (nx ny i j x y : ℕ) : Prop where
  below : tileStart (pixs.height / ny) (tileOverlap ny) i ≤ y
  above : y < tileStart (pixs.height / ny) (tileOverlap ny) i +
    tileExtent pixs.height ny (pixs.height / ny) (tileOverlap ny) i
  right : tileStart (pixs.width / nx) (tileOverlap nx) j ≤ x
  left : x < tileStart (pixs.width / nx) (tileOverlap nx) j +
    tileExtent pixs.width nx (pixs.width / nx) (tileOverlap nx) j

/-- A tile is part of its own surroundings. -/
theorem InTile.near {nx ny i j x y : ℕ} (h : InTile pixs nx ny i j x y) :
    NearTile pixs nx ny i j x y := by
  obtain ⟨hbelow, habove⟩ := tile_near h.row h.below h.above
  obtain ⟨hright, hleft⟩ := tile_near h.column h.right h.left
  exact ⟨hbelow, habove, hright, hleft⟩

/-- The threshold of a tile depends on its surroundings only: pictures of one
size that agree near the tile give it the same one. -/
theorem tileThresholds_congr {pixs' : Raster ℕ} (hwidth : pixs.width = pixs'.width)
    (hheight : pixs.height = pixs'.height) {nx ny i j : ℕ}
    (hagree : ∀ x y, NearTile pixs nx ny i j x y → pixs.pixel x y = pixs'.pixel x y) :
    (tileThresholds determine pixs nx ny).pixel j i =
      (tileThresholds determine pixs' nx ny).pixel j i := by
  have htile : (pixTilingCreate pixs nx ny (tileOverlap nx) (tileOverlap ny)).bind
        (fun pt => pixTilingGetTile pt i j) =
      (pixTilingCreate pixs' nx ny (tileOverlap nx) (tileOverlap ny)).bind
        (fun pt => pixTilingGetTile pt i j) := by
    by_cases hfits : 0 < nx ∧ 0 < ny ∧ tileOverlap nx ≤ pixs.width / nx ∧
        tileOverlap ny ≤ pixs.height / ny
    · have hfits' := hfits
      rw [hwidth, hheight] at hfits'
      simp only [pixTilingCreate, dif_pos hfits, dif_pos hfits', Option.bind_some]
      apply getTile_congr
      · exact hwidth
      · exact hheight
      · rfl
      · rfl
      · rfl
      · rfl
      · intro x y hx hy hx' hy'
        exact hagree x y ⟨hy, hy', hx, hx'⟩
    · have hfits' := hfits
      rw [hwidth, hheight] at hfits'
      simp only [pixTilingCreate, dif_neg hfits, dif_neg hfits']
  simp only [tileThresholds, htile]

/-- **What a pixel becomes is decided near it.**  Two pictures of the same
extent that agree on a tile and its overlap are binarized alike on that tile,
however much they differ elsewhere. -/
theorem binarizeTiled_local {pixs' : Raster ℕ} (htile : 0 < tileSize) (hw : 0 < pixs.width)
    (hh : 0 < pixs.height) (hwidth : pixs.width = pixs'.width)
    (hheight : pixs.height = pixs'.height) {i j : ℕ}
    (hagree : ∀ x y, NearTile pixs (tileCount pixs.width tileSize)
      (tileCount pixs.height tileSize) i j x y → pixs.pixel x y = pixs'.pixel x y)
    {x y : ℕ} (hx : x < pixs.width) (hy : y < pixs.height)
    (hin : InTile pixs (tileCount pixs.width tileSize) (tileCount pixs.height tileSize) i j x y) :
    ∃ pixb pixb', binarizeTiled determine pixs tileSize = some pixb ∧
      binarizeTiled determine pixs' tileSize = some pixb' ∧ pixb.pixel x y = pixb'.pixel x y := by
  obtain ⟨pixb, hrun, hpixel⟩ := binarizeTiled_eq determine htile hw hh
  obtain ⟨pixb', hrun', hpixel'⟩ :=
    binarizeTiled_eq determine htile (hwidth ▸ hw) (hheight ▸ hh)
  obtain ⟨hi, hj⟩ := (inTile_iff hw hh hx hy i j).mp hin
  refine ⟨pixb, pixb', hrun, hrun', ?_⟩
  rw [hpixel.2.2 x hx y hy, hpixel'.2.2 x (hwidth ▸ hx) y (hheight ▸ hy), ← hwidth, ← hheight,
    ← hi, ← hj, tileThresholds_congr determine hwidth hheight hagree, hagree x y hin.near]

/-- Two rows that differ at their right end; the first of two tiles. -/
theorem binarizeTiled_local_row :
    ∃ pixb pixb', binarizeTiled (fun _ => 100) ⟨20, 1, fun x _ => 10 * x⟩ 8 = some pixb ∧
      binarizeTiled (fun _ => 100) ⟨20, 1, fun x _ => if x = 19 then 0 else 10 * x⟩ 8 =
        some pixb' ∧
      pixb.pixel 3 0 = pixb'.pixel 3 0 := by
  refine @binarizeTiled_local (fun _ => 100) ⟨20, 1, fun x _ => 10 * x⟩ 8
    ⟨20, 1, fun x _ => if x = 19 then 0 else 10 * x⟩ (by decide) (by decide) (by decide) rfl rfl
    0 0 ?_ 3 0 (by decide) (by decide)
    ⟨by decide, by decide, by decide, by decide, by decide, by decide⟩
  intro x y hnear
  have hleft : x < 11 := hnear.left
  exact (if_neg (by omega)).symm

/-! ## The masks -/

/-- A white pixel is below no threshold. -/
theorem binarizeTiled_white (htile : 0 < tileSize) (hw : 0 < pixs.width) (hh : 0 < pixs.height) :
    ∃ pixb, binarizeTiled determine pixs tileSize = some pixb ∧
      ∀ x < pixs.width, ∀ y < pixs.height, pixs.pixel x y = 255 → pixb.pixel x y = false := by
  obtain ⟨pixb, hrun, -, -, hpixel⟩ := binarizeTiled_eq determine htile hw hh
  refine ⟨pixb, hrun, fun x hx y hy hwhite => ?_⟩
  rw [hpixel x hx y hy, hwhite, decide_eq_false_iff_not, not_lt]
  exact Nat.le_of_lt_succ (tileThresholds_lt determine _ _ _ _)

/-- **What the edge mask covers comes out white, and the mask of images adds
nothing.**  A page has a result exactly if it is at least ten pixels wide,
since the tiles of a narrower one have no width; whatever the thresholds are,
the pixels under the edge mask are white in it, and the result is the same
with any mask of images as with none. -/
theorem binarizeInternal_masked {createEdgeMask : Raster ℕ → Raster Bool} {pixGrey : Raster ℕ}
    (hw : 0 < pixGrey.width) (hh : 0 < pixGrey.height)
    (hmaskw : (createEdgeMask pixGrey).width = pixGrey.width)
    (hmaskh : (createEdgeMask pixGrey).height = pixGrey.height) :
    ((binarizeInternal determine createEdgeMask pixGrey none).isSome ↔ 10 ≤ pixGrey.width) ∧
    ∀ result, binarizeInternal determine createEdgeMask pixGrey none = some result →
      (∀ x < pixGrey.width, ∀ y < pixGrey.height,
        (createEdgeMask pixGrey).pixel x y → result.1.pixel x y = false) ∧
      ∀ pixhm, ∃ result', binarizeInternal determine createEdgeMask pixGrey (some pixhm) =
          some result' ∧
        ∀ x < pixGrey.width, ∀ y < pixGrey.height, result'.1.pixel x y = result.1.pixel x y := by
  rcases Nat.lt_or_ge pixGrey.width 10 with hnarrow | hwide
  · have hzero : pixGrey.width / 10 = 0 := Nat.div_eq_of_lt hnarrow
    have hnone : binarizeInternal determine createEdgeMask pixGrey none = none := by
      simp [binarizeInternal, binarizeTiled, hzero]
    rw [hnone]
    refine ⟨by simpa using hnarrow, fun result hresult => ?_⟩
    simp at hresult
  · have htile : 0 < pixGrey.width / 10 := Nat.div_pos hwide (by decide)
    have hresult : ∃ pixb, binarizeTiled determine
          (pixSetMasked pixGrey (createEdgeMask pixGrey) 255) (pixGrey.width / 10) = some pixb ∧
        ∀ x < pixGrey.width, ∀ y < pixGrey.height,
          (pixSetMasked pixGrey (createEdgeMask pixGrey) 255).pixel x y = 255 →
            pixb.pixel x y = false := binarizeTiled_white determine htile hw hh
    obtain ⟨pixb, hrun, hwhite⟩ := hresult
    have hmasked : ∀ x < pixGrey.width, ∀ y < pixGrey.height,
        (createEdgeMask pixGrey).pixel x y → pixb.pixel x y = false := by
      intro x hx y hy hedge
      refine hwhite x hx y hy (if_pos ⟨?_, ?_, hedge⟩)
      · rwa [hmaskw]
      · rwa [hmaskh]
    have hplain : binarizeInternal determine createEdgeMask pixGrey none = some (pixb, none) := by
      simp only [binarizeInternal, hrun, Option.map_none, Option.map_some]
    rw [hplain]
    refine ⟨by simpa using hwide, fun result hresult => ?_⟩
    obtain rfl : (pixb, none) = result := Option.some.inj hresult
    refine ⟨hmasked, fun pixhm => ?_⟩
    have hcutMask : binarizeInternal determine createEdgeMask pixGrey (some pixhm) =
        some (pixSetMasked pixb (pixAnd pixhm (createEdgeMask pixGrey)) false,
          some (pixAnd pixhm (createEdgeMask pixGrey))) := by
      simp only [binarizeInternal, hrun, Option.map_some]
    refine ⟨_, hcutMask, fun x hx y hy => ?_⟩
    by_cases hcut : x < pixhm.width ∧ y < pixhm.height ∧
        (pixAnd pixhm (createEdgeMask pixGrey)).pixel x y
    · have hedge : (createEdgeMask pixGrey).pixel x y := by
        have hand := hcut.2.2
        simp only [pixAnd, hmaskw, hmaskh, hx, hy, and_self, if_true, Bool.and_eq_true] at hand
        exact hand.2
      exact (if_pos hcut).trans (hmasked x hx y hy hedge).symm
    · exact if_neg hcut

/-- A row of twenty pixels, with a mask over its right half and thresholds of
100. -/
theorem binarizeInternal_masked_row :
    ((binarizeInternal (fun _ => 100) (fun _ => ⟨20, 1, fun x _ => 10 ≤ x⟩)
        ⟨20, 1, fun x _ => 10 * x⟩ none).isSome ↔ 10 ≤ 20) ∧
    ∀ result, binarizeInternal (fun _ => 100) (fun _ => ⟨20, 1, fun x _ => 10 ≤ x⟩)
        ⟨20, 1, fun x _ => 10 * x⟩ none = some result →
      (∀ x < 20, ∀ y < 1, decide (10 ≤ x) → result.1.pixel x y = false) ∧
      ∀ pixhm, ∃ result', binarizeInternal (fun _ => 100)
          (fun _ => ⟨20, 1, fun x _ => 10 ≤ x⟩) ⟨20, 1, fun x _ => 10 * x⟩ (some pixhm) =
          some result' ∧
        ∀ x < 20, ∀ y < 1, result'.1.pixel x y = result.1.pixel x y :=
  binarizeInternal_masked (fun _ => 100) (by decide) (by decide) rfl rfl

end CardScanner
