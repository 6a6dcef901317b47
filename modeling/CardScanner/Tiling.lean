import CardScanner.Raster
import Mathlib.Algebra.Order.Ring.Nat
import Mathlib.Order.Lattice

/-!
# Tilings of a picture

Leptonica's `pixtiling.c`, as far as the binarization of a page uses it: a picture is
cut into `nx` by `ny` tiles, which are read with an overlap and painted without it.
All tiles of a row are equally wide but the last one, which takes the rest.

So a pixel is in exactly one tile (`mem_tile_iff`); a tile read without overlap is the
picture's own rectangle (`getTile_plain`); and what is read for a tile is determined by
the pixels of its rectangle and the overlap around it (`getTile_congr`).
-/

namespace CardScanner

variable {α : Type*} [Inhabited α]

/-- `pixClipRectangle`, for a box with no negative coordinate. -/
def pixClipRectangle (pixs : Raster α) (left top width height : ℕ) : Option (Raster α) :=
  if left ≥ pixs.width ∨ top ≥ pixs.height ∨ left + width = 0 ∨ top + height = 0 then none
  else
    let bw := if left + width > pixs.width then pixs.width - left else width
    let bh := if top + height > pixs.height then pixs.height - top else height
    if bw = 0 ∨ bh = 0 then none
    else some ((Raster.blank default bw bh).blit 0 0 bw bh pixs left top)

/-- `pixAddMirroredBorder`: columns left and right, then whole rows above and
below. -/
def pixAddMirroredBorder (pixs : Raster α) (left right top bot : ℕ) : Option (Raster α) :=
  let w := pixs.width
  let h := pixs.height
  if left > w ∨ right > w ∨ top > h ∨ bot > h then none
  else
    let framed :=
      (Raster.blank default (left + w + right) (top + h + bot)).blit left top w h pixs 0 0
    let pixd := (List.range left).foldl
      (fun d j => d.blit (left - 1 - j) top 1 h d (left + j) top) framed
    let pixd := (List.range right).foldl
      (fun d j => d.blit (left + w + j) top 1 h d (left + w - 1 - j) top) pixd
    let pixd := (List.range top).foldl
      (fun d i => d.blit 0 (top - 1 - i) (left + w + right) 1 d 0 (top + i)) pixd
    some ((List.range bot).foldl
      (fun d i => d.blit 0 (top + h + i) (left + w + right) 1 d 0 (top + h - 1 - i)) pixd)

/-- `PIXTILING`: the overlaps are no larger than the tiles. -/
structure PixTiling (α : Type*) where
  pix : Raster α
  nx : ℕ
  ny : ℕ
  xoverlap : ℕ
  yoverlap : ℕ
  nx_pos : 0 < nx
  ny_pos : 0 < ny
  xfits : xoverlap ≤ pix.width / nx
  yfits : yoverlap ≤ pix.height / ny

namespace PixTiling

/-- The width of all tiles but the last. -/
def w (pt : PixTiling α) : ℕ := pt.pix.width / pt.nx

/-- The height of all tiles but the last. -/
def h (pt : PixTiling α) : ℕ := pt.pix.height / pt.ny

end PixTiling

/-- `pixTilingCreate`, for given numbers of tiles. -/
def pixTilingCreate (pixs : Raster α) (nx ny xoverlap yoverlap : ℕ) : Option (PixTiling α) :=
  if hfits : 0 < nx ∧ 0 < ny ∧ xoverlap ≤ pixs.width / nx ∧ yoverlap ≤ pixs.height / ny then
    some ⟨pixs, nx, ny, xoverlap, yoverlap, hfits.1, hfits.2.1, hfits.2.2.1, hfits.2.2.2⟩
  else none

/-- Where a tile and its overlap begin, along one axis. -/
def tileStart (size overlap index : ℕ) : ℕ := index * size - overlap

/-- How far a tile and its overlap reach, along one axis. -/
def tileExtent (total n size overlap index : ℕ) : ℕ :=
  if n = 1 then total
  else if index = 0 then size + overlap
  else if index = n - 1 then total - size * (n - 1) + overlap
  else size + 2 * overlap

/-- The rectangle that `pixTilingGetTile` clips from the picture. -/
def PixTiling.clip (pt : PixTiling α) (i j : ℕ) : Option (Raster α) :=
  pixClipRectangle pt.pix (tileStart pt.w pt.xoverlap j) (tileStart pt.h pt.yoverlap i)
    (tileExtent pt.pix.width pt.nx pt.w pt.xoverlap j)
    (tileExtent pt.pix.height pt.ny pt.h pt.yoverlap i)

/-- `pixTilingGetTile`.  A tile at the border of the picture is mirrored on
the sides where it has no neighbour. -/
def pixTilingGetTile (pt : PixTiling α) (i j : ℕ) : Option (Raster α) :=
  if i ≥ pt.ny ∨ j ≥ pt.nx then none
  else
    let xtraleft := if pt.nx = 1 then pt.xoverlap else 0
    let xtratop := if pt.ny = 1 then pt.yoverlap else 0
    (pt.clip i j).bind fun pixt =>
      if i = 0 ∧ j = 0 then pixAddMirroredBorder pixt pt.xoverlap xtraleft pt.yoverlap xtratop
      else if i = 0 ∧ j = pt.nx - 1 then
        pixAddMirroredBorder pixt xtraleft pt.xoverlap pt.yoverlap xtratop
      else if i = pt.ny - 1 ∧ j = 0 then
        pixAddMirroredBorder pixt pt.xoverlap xtraleft xtratop pt.yoverlap
      else if i = pt.ny - 1 ∧ j = pt.nx - 1 then
        pixAddMirroredBorder pixt xtraleft pt.xoverlap xtratop pt.yoverlap
      else if i = 0 then pixAddMirroredBorder pixt 0 0 pt.yoverlap xtratop
      else if i = pt.ny - 1 then pixAddMirroredBorder pixt 0 0 xtratop pt.yoverlap
      else if j = 0 then pixAddMirroredBorder pixt pt.xoverlap xtraleft 0 0
      else if j = pt.nx - 1 then pixAddMirroredBorder pixt xtraleft pt.xoverlap 0 0
      else some pixt

/-- `pixTilingPaintTile`: the overlap is stripped off the tile. -/
def pixTilingPaintTile {β : Type*} (pixd : Raster β) (i j : ℕ) (pixs : Raster β)
    (pt : PixTiling α) : Raster β :=
  if i ≥ pt.ny ∨ j ≥ pt.nx then pixd
  else
    pixd.blit (j * pt.w) (i * pt.h) (pixs.width - 2 * pt.xoverlap)
      (pixs.height - 2 * pt.yoverlap) pixs pt.xoverlap pt.yoverlap

/-! ## One axis -/

/-- The tile that a column or a row is in. -/
def tileOf (n size x : ℕ) : ℕ := min (x / size) (n - 1)

section Axis

variable {total n x j : ℕ}

theorem tileOf_lt (hn : 0 < n) (size : ℕ) : tileOf n size x < n := by
  unfold tileOf
  omega

/-- The tiles before the last one leave something for it. -/
theorem size_mul_le (hn : 0 < n) : total / n * (n - 1) + total / n ≤ total := by
  have hdiv := Nat.div_mul_le_self total n
  calc total / n * (n - 1) + total / n = total / n * (n - 1 + 1) := (Nat.mul_succ _ _).symm
    _ = total / n * n := by rw [Nat.sub_add_cancel hn]
    _ ≤ total := hdiv

/-- **One tile over each pixel.**  A column is in the tile that `tileOf` says,
and in no other. -/
theorem mem_tile_iff (hn : 0 < n) (hsize : 0 < total / n) (hx : x < total) (hj : j < n) :
    (j * (total / n) ≤ x ∧ x < j * (total / n) + tileExtent total n (total / n) 0 j) ↔
      j = tileOf n (total / n) x := by
  have hmul : total / n * (n - 1) + total / n ≤ total := size_mul_le hn
  have hle : j * (total / n) ≤ x ↔ j ≤ x / (total / n) := (Nat.le_div_iff_mul_le hsize).symm
  have hlt : x < j * (total / n) + total / n ↔ x / (total / n) < j + 1 := by
    rw [Nat.div_lt_iff_lt_mul hsize, Nat.add_mul, Nat.one_mul]
  unfold tileExtent tileOf
  rw [hle]
  split_ifs with hone hfirst hlast
  · subst hone
    have hzero : j = 0 := by omega
    subst hzero
    simpa using hx
  · simp only [Nat.add_zero, hlt]
    omega
  · have hrest : j * (total / n) + (total - total / n * (n - 1) + 0) = total := by
      rw [hlast, Nat.mul_comm (n - 1)]
      omega
    rw [hrest]
    omega
  · simp only [Nat.mul_zero, Nat.add_zero, hlt]
    omega

/-- A tile with its overlap is not empty and lies within the picture. -/
theorem tileExtent_inside (hn : 0 < n) (hsize : 0 < total / n) {overlap : ℕ}
    (hfits : overlap ≤ total / n) (hj : j < n) :
    0 < tileExtent total n (total / n) overlap j ∧
      tileStart (total / n) overlap j + tileExtent total n (total / n) overlap j ≤ total := by
  have hmul : total / n * (n - 1) + total / n ≤ total := size_mul_le hn
  have hcomm := Nat.mul_comm (n - 1) (total / n)
  unfold tileStart tileExtent
  split_ifs with hone hfirst hlast
  · subst hone
    have hzero : j = 0 := by omega
    subst hzero
    simp only [Nat.div_one] at hsize
    omega
  · have hmany : total / n * 1 ≤ total / n * (n - 1) := Nat.mul_le_mul_left _ (by omega)
    subst hfirst
    omega
  · have hmany : total / n * 1 ≤ total / n * (n - 1) := Nat.mul_le_mul_left _ (by omega)
    rw [hlast]
    omega
  · have hbefore : j * (total / n) + total / n ≤ (n - 1) * (total / n) := by
      rw [← Nat.succ_mul]
      exact Nat.mul_le_mul_right _ (by omega)
    have hone : 1 * (total / n) ≤ j * (total / n) := Nat.mul_le_mul_right _ (by omega)
    omega

/-- A tile is within its surroundings. -/
theorem tile_near {size overlap : ℕ} (hj : j < n) (hleft : j * size ≤ x)
    (hright : x < j * size + tileExtent total n size 0 j) :
    tileStart size overlap j ≤ x ∧
      x < tileStart size overlap j + tileExtent total n size overlap j := by
  unfold tileExtent tileStart at *
  split_ifs at * with hone hfirst hlast
  · have hzero : j = 0 := by omega
    subst hzero
    omega
  all_goals omega

end Axis

/-! ## Tiles without overlap -/

/-- A tile within the picture is clipped as it is. -/
theorem pixClipRectangle_inside {pixs : Raster α} {left top width height : ℕ}
    (hwidth : 0 < width) (hheight : 0 < height) (hright : left + width ≤ pixs.width)
    (hbottom : top + height ≤ pixs.height) :
    pixClipRectangle pixs left top width height =
      some ((Raster.blank default width height).blit 0 0 width height pixs left top) := by
  have hin : ¬ (left ≥ pixs.width ∨ top ≥ pixs.height ∨ left + width = 0 ∨ top + height = 0) := by
    omega
  have hnonempty : ¬ (width = 0 ∨ height = 0) := by omega
  simp only [pixClipRectangle, if_neg hin, if_neg (not_lt.mpr hright), if_neg (not_lt.mpr hbottom),
    if_neg hnonempty, gt_iff_lt]

/-- Where a position of a picture with a mirrored border comes from. -/
def mirror (border n x : ℕ) : ℕ :=
  if x < border then border - 1 - x else if x < border + n then x - border
  else 2 * n + border - 1 - x

section Border

variable {β : Type*} {d : Raster β} {w h left right top bot : ℕ} {f : ℕ → ℕ → β}

/-- The columns beside a picture, to the left and then to the right.  None
that is copied from has been written to. -/
theorem pixel_mirror_columns (hwidth : d.width = left + w + right) (hheight : top + h ≤ d.height)
    (hleft : left ≤ w) (hright : right ≤ w)
    (hd : ∀ x y, left ≤ x → x < left + w → top ≤ y → y < top + h → d.pixel x y = f (x - left) y)
    {x y : ℕ} (hx : x < left + w + right) (hy : top ≤ y) (hy' : y < top + h) :
    ((List.range right).foldl (fun d j => d.blit (left + w + j) top 1 h d (left + w - 1 - j) top)
      ((List.range left).foldl (fun d j => d.blit (left - 1 - j) top 1 h d (left + j) top)
        d)).pixel x y = f (mirror left w x) y := by
  have hcopy := @Raster.pixel_foldl_blit _ d (fun j => left - 1 - j) (fun _ => top)
    (fun j => left + j) (fun _ => top) 1 h left (by intro j hj; omega) (by intro j hj; omega)
    (by intro j hj j' hj'; omega) (by intro j hj j' hj' hne; omega)
  have hextent := @Raster.extent_foldl _ _
    (fun d j => d.blit (left - 1 - j) top 1 h d (left + j) top) (fun _ _ => ⟨rfl, rfl⟩)
    (List.range left) d
  generalize (List.range left).foldl
    (fun d j => d.blit (left - 1 - j) top 1 h d (left + j) top) d = pixl at hcopy hextent ⊢
  have hleftward : ∀ x, x < left + w → pixl.pixel x y = f (mirror left w x) y := by
    intro x hx
    unfold mirror
    by_cases hborder : x < left
    · rw [if_pos hborder, hcopy.1 (left - 1 - x) (by omega) x y (by omega) (by omega) hy hy',
        hd _ _ (by omega) (by omega) (by omega) (by omega)]
      congr 1 <;> omega
    · rw [if_neg hborder, if_pos hx, hcopy.2 x y fun j hj => by omega,
        hd x y (by omega) hx hy hy']
  have hcopy' := @Raster.pixel_foldl_blit _ pixl (fun j => left + w + j) (fun _ => top)
    (fun j => left + w - 1 - j) (fun _ => top) 1 h right (by intro j hj; omega)
    (by intro j hj; omega) (by intro j hj j' hj'; omega) (by intro j hj j' hj' hne; omega)
  by_cases hborder : x < left + w
  · rw [hcopy'.2 x y fun j hj => by omega, hleftward x hborder]
  · rw [hcopy'.1 (x - (left + w)) (by omega) x y (by omega) (by omega) hy hy',
      Nat.add_sub_cancel' hy, hleftward _ (by omega)]
    unfold mirror
    congr 1
    split_ifs <;> omega

/-- The rows above and below, as wide as the border makes them.  None that is
copied from has been written to. -/
theorem pixel_mirror_rows (hwidth : d.width = w) (hheight : d.height = top + h + bot)
    (htop : top ≤ h) (hbot : bot ≤ h)
    (hd : ∀ x y, x < w → top ≤ y → y < top + h → d.pixel x y = f x (y - top))
    {x y : ℕ} (hx : x < w) (hy : y < top + h + bot) :
    ((List.range bot).foldl (fun d i => d.blit 0 (top + h + i) w 1 d 0 (top + h - 1 - i))
      ((List.range top).foldl (fun d i => d.blit 0 (top - 1 - i) w 1 d 0 (top + i))
        d)).pixel x y = f x (mirror top h y) := by
  have hcopy := @Raster.pixel_foldl_blit _ d (fun _ => 0) (fun i => top - 1 - i) (fun _ => 0)
    (fun i => top + i) w 1 top (by intro i hi; omega) (by intro i hi; omega)
    (by intro i hi i' hi'; omega) (by intro i hi i' hi' hne; omega)
  have hextent := @Raster.extent_foldl _ _
    (fun d i => d.blit 0 (top - 1 - i) w 1 d 0 (top + i)) (fun _ _ => ⟨rfl, rfl⟩)
    (List.range top) d
  generalize (List.range top).foldl (fun d i => d.blit 0 (top - 1 - i) w 1 d 0 (top + i)) d = pixt
    at hcopy hextent ⊢
  have hupward : ∀ y, y < top + h → pixt.pixel x y = f x (mirror top h y) := by
    intro y hy
    unfold mirror
    by_cases hborder : y < top
    · rw [if_pos hborder, hcopy.1 (top - 1 - y) (by omega) x y (by omega) (by omega) (by omega)
        (by omega), hd _ _ (by omega) (by omega) (by omega)]
      congr 1 <;> omega
    · rw [if_neg hborder, if_pos hy, hcopy.2 x y fun i hi => by omega,
        hd x y hx (by omega) hy]
  have hcopy' := @Raster.pixel_foldl_blit _ pixt (fun _ => 0) (fun i => top + h + i) (fun _ => 0)
    (fun i => top + h - 1 - i) w 1 bot (by intro i hi; omega) (by intro i hi; omega)
    (by intro i hi i' hi'; omega) (by intro i hi i' hi' hne; omega)
  by_cases hborder : y < top + h
  · rw [hcopy'.2 x y fun i hi => by omega, hupward y hborder]
  · rw [hcopy'.1 (y - (top + h)) (by omega) x y (by omega) (by omega) (by omega) (by omega),
      Nat.zero_add, Nat.sub_zero, hupward _ (by omega)]
    unfold mirror
    congr 1
    split_ifs <;> omega

end Border

/-- **A mirrored border** goes around the whole picture: left and right
columns first, then lines above and below, taken from the widened picture, so
that the corners are mirrored both ways. -/
theorem pixAddMirroredBorder_spec {pixs : Raster α} {left right top bot : ℕ}
    (hleft : left ≤ pixs.width) (hright : right ≤ pixs.width) (htop : top ≤ pixs.height)
    (hbot : bot ≤ pixs.height) :
    ∃ pixd, pixAddMirroredBorder pixs left right top bot = some pixd ∧
      pixd.width = left + pixs.width + right ∧ pixd.height = top + pixs.height + bot ∧
      ∀ x < left + pixs.width + right, ∀ y < top + pixs.height + bot,
        pixd.pixel x y = pixs.pixel (mirror left pixs.width x) (mirror top pixs.height y) := by
  have hloop : ∀ (paint : Raster α → ℕ → Raster α),
      (∀ d j, (paint d j).width = d.width ∧ (paint d j).height = d.height) → ∀ k d,
      ((List.range k).foldl paint d).width = d.width ∧
        ((List.range k).foldl paint d).height = d.height :=
    fun paint hpaint k d => Raster.extent_foldl hpaint _ d
  unfold pixAddMirroredBorder
  rw [if_neg (by omega)]
  simp only
  generalize hframed : (Raster.blank default (left + pixs.width + right)
    (top + pixs.height + bot)).blit left top pixs.width pixs.height pixs 0 0 = framed
  have hwidth : framed.width = left + pixs.width + right := hframed ▸ rfl
  have hheight : framed.height = top + pixs.height + bot := hframed ▸ rfl
  have hinner : ∀ x y, left ≤ x → x < left + pixs.width → top ≤ y → y < top + pixs.height →
      framed.pixel x y = pixs.pixel (x - left) (y - top) := by
    intro x y hx hx' hy hy'
    rw [← hframed, Raster.pixel_blit_inside ⟨hx, hx', by simp only [Raster.blank]; omega, by omega⟩
      ⟨hy, hy', by simp only [Raster.blank]; omega, by omega⟩, Nat.zero_add, Nat.zero_add]
  have hcolumns := @pixel_mirror_columns _ _ _ _ _ right _ (fun x y => pixs.pixel x (y - top))
    hwidth (by omega) hleft hright hinner
  have hl := hloop (fun d j => d.blit (left - 1 - j) top 1 pixs.height d (left + j) top)
    (fun _ _ => ⟨rfl, rfl⟩) left framed
  generalize (List.range left).foldl _ framed = pixl at hcolumns hl ⊢
  have hr := hloop (fun d j => d.blit (left + pixs.width + j) top 1 pixs.height d
    (left + pixs.width - 1 - j) top) (fun _ _ => ⟨rfl, rfl⟩) right pixl
  generalize (List.range right).foldl _ pixl = pixr at hcolumns hr ⊢
  have hw : pixr.width = left + pixs.width + right := by omega
  have hh : pixr.height = top + pixs.height + bot := by omega
  have hrows := @pixel_mirror_rows _ _ _ _ _ _
    (fun x y => pixs.pixel (mirror left pixs.width x) y) hw hh htop hbot
    fun x y hx hy hy' => hcolumns hx hy hy'
  have ht := hloop (fun d i => d.blit 0 (top - 1 - i) (left + pixs.width + right) 1 d 0 (top + i))
    (fun _ _ => ⟨rfl, rfl⟩) top pixr
  generalize (List.range top).foldl _ pixr = pixt at hrows ht ⊢
  have hb := hloop (fun d i => d.blit 0 (top + pixs.height + i) (left + pixs.width + right) 1 d 0
    (top + pixs.height - 1 - i)) (fun _ _ => ⟨rfl, rfl⟩) bot pixt
  exact ⟨_, rfl, by omega, by omega, fun x hx y hy => hrows hx hy⟩

theorem mirror_inner {border n x : ℕ} (hx : x < n) : mirror border n (border + x) = x := by
  unfold mirror
  rw [if_neg (by omega), if_pos (by omega), Nat.add_sub_cancel_left]

/-- No border changes nothing of a picture. -/
theorem pixAddMirroredBorder_zero (pixs : Raster α) :
    ∃ pixd, pixAddMirroredBorder pixs 0 0 0 0 = some pixd ∧ pixd.width = pixs.width ∧
      pixd.height = pixs.height ∧
      ∀ x < pixs.width, ∀ y < pixs.height, pixd.pixel x y = pixs.pixel x y := by
  obtain ⟨pixd, hborder, hw, hh, hpixel⟩ := @pixAddMirroredBorder_spec _ _ pixs 0 0 0 0
    (Nat.zero_le _) (Nat.zero_le _) (Nat.zero_le _) (Nat.zero_le _)
  refine ⟨pixd, hborder, by omega, by omega, fun x hx y hy => ?_⟩
  have hx' := @mirror_inner 0 _ _ hx
  have hy' := @mirror_inner 0 _ _ hy
  rw [Nat.zero_add] at hx' hy'
  rw [hpixel x (by omega) y (by omega), hx', hy']

/-- What is clipped for a tile is the picture's own rectangle, with as much of
the overlap as there is. -/
theorem PixTiling.clip_spec (pt : PixTiling α) (hw : 0 < pt.w) (hh : 0 < pt.h) {i j : ℕ}
    (hi : i < pt.ny) (hj : j < pt.nx) :
    ∃ pixt, pt.clip i j = some pixt ∧
      pixt.width = tileExtent pt.pix.width pt.nx pt.w pt.xoverlap j ∧
      pixt.height = tileExtent pt.pix.height pt.ny pt.h pt.yoverlap i ∧
      ∀ x < pixt.width, ∀ y < pixt.height,
        pixt.pixel x y =
          pt.pix.pixel (tileStart pt.w pt.xoverlap j + x) (tileStart pt.h pt.yoverlap i + y) := by
  obtain ⟨hwidth, hright⟩ := tileExtent_inside pt.nx_pos hw pt.xfits hj
  obtain ⟨hheight, hbottom⟩ := tileExtent_inside pt.ny_pos hh pt.yfits hi
  refine ⟨_, pixClipRectangle_inside hwidth hheight hright hbottom, rfl, rfl, ?_⟩
  intro x hx y hy
  simp only [Raster.width_blit, Raster.height_blit, Raster.blank] at hx hy
  have hxin := (Nat.add_lt_add_left hx _).trans_le hright
  have hyin := (Nat.add_lt_add_left hy _).trans_le hbottom
  simp only [Raster.blit, Raster.blank, Nat.zero_le, Nat.zero_add, Nat.sub_zero, true_and]
  exact if_pos ⟨⟨hx, hx, hxin⟩, hy, hy, hyin⟩

/-- **A tile without overlap** is the picture's own rectangle, since whichever
border it touches, nothing is added there. -/
theorem getTile_plain {pt : PixTiling α} (hx : pt.xoverlap = 0) (hy : pt.yoverlap = 0)
    (hw : 0 < pt.w) (hh : 0 < pt.h) {i j : ℕ} (hi : i < pt.ny) (hj : j < pt.nx) :
    ∃ pixt, pixTilingGetTile pt i j = some pixt ∧
      pixt.width = tileExtent pt.pix.width pt.nx pt.w 0 j ∧
      pixt.height = tileExtent pt.pix.height pt.ny pt.h 0 i ∧
      ∀ x < pixt.width, ∀ y < pixt.height,
        pixt.pixel x y = pt.pix.pixel (j * pt.w + x) (i * pt.h + y) := by
  obtain ⟨pixt, hclip, hwidth, hheight, hpixel⟩ := pt.clip_spec hw hh hi hj
  obtain ⟨pixd, hborder, hwidth', hheight', hpixel'⟩ := pixAddMirroredBorder_zero pixt
  rw [hx] at hwidth hpixel
  rw [hy] at hheight hpixel
  have hin : ¬ (i ≥ pt.ny ∨ j ≥ pt.nx) := by omega
  have htile : pixTilingGetTile pt i j = some pixd ∨ pixTilingGetTile pt i j = some pixt := by
    simp only [pixTilingGetTile, if_neg hin, hclip, Option.bind_some, hx, hy, ite_self, hborder]
    split_ifs <;> simp
  rcases htile with htile | htile
  · refine ⟨pixd, htile, hwidth'.trans hwidth, hheight'.trans hheight, fun x hxlt y hylt => ?_⟩
    rw [hwidth'] at hxlt
    rw [hheight'] at hylt
    rw [hpixel' x hxlt y hylt]
    exact hpixel x hxlt y hylt
  · exact ⟨pixt, htile, hwidth, hheight, hpixel⟩

/-! ## What is read for a tile -/

/-- What is clipped depends on the clipped rectangle only. -/
theorem pixClipRectangle_congr {pixs pixs' : Raster α} (hwidth : pixs.width = pixs'.width)
    (hheight : pixs.height = pixs'.height) {left top width height : ℕ}
    (hagree : ∀ x y, left ≤ x → top ≤ y → x < left + width → y < top + height →
      pixs.pixel x y = pixs'.pixel x y) :
    pixClipRectangle pixs left top width height = pixClipRectangle pixs' left top width height := by
  simp only [pixClipRectangle, hwidth, hheight]
  split_ifs
  all_goals first
    | rfl
    | refine congrArg some (Raster.blit_congr hwidth hheight (fun x y hx hy hxlt hylt => ?_) _ _ _)
      exact hagree x y hx hy (by omega) (by omega)

/-- **A tile is determined by its surroundings**: pictures of one extent that
agree on its rectangle and the overlap around it have the same tile. -/
theorem getTile_congr {pt pt' : PixTiling α} (hwidth : pt.pix.width = pt'.pix.width)
    (hheight : pt.pix.height = pt'.pix.height) (hnx : pt.nx = pt'.nx) (hny : pt.ny = pt'.ny)
    (hxo : pt.xoverlap = pt'.xoverlap) (hyo : pt.yoverlap = pt'.yoverlap) {i j : ℕ}
    (hagree : ∀ x y, tileStart pt.w pt.xoverlap j ≤ x → tileStart pt.h pt.yoverlap i ≤ y →
      x < tileStart pt.w pt.xoverlap j + tileExtent pt.pix.width pt.nx pt.w pt.xoverlap j →
      y < tileStart pt.h pt.yoverlap i + tileExtent pt.pix.height pt.ny pt.h pt.yoverlap i →
      pt.pix.pixel x y = pt'.pix.pixel x y) :
    pixTilingGetTile pt i j = pixTilingGetTile pt' i j := by
  have hclip : pt.clip i j = pt'.clip i j := by
    refine (pixClipRectangle_congr hwidth hheight hagree).trans ?_
    simp only [PixTiling.clip, PixTiling.w, PixTiling.h, hwidth, hheight, hnx, hny, hxo, hyo]
  simp only [pixTilingGetTile, hclip, hnx, hny, hxo, hyo]

end CardScanner
