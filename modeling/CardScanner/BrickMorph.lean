import CardScanner.Morphology
import CardScanner.Raster
import Mathlib.Algebra.Order.Ring.Int
import Mathlib.Data.List.Basic
import Mathlib.Data.Set.Insert
import Mathlib.Tactic.Push

/-!
# Openings and closings by bricks

Leptonica dilates a picture by painting it over itself, once for each hit of a structuring
element (a `SEL`), and erodes it by masking it with itself; a brick is done by a row and
then by a column.  All painting is by `pixRasterop`, which clips what it copies to both
pictures.

On the plane, the picture being OFF outside of its extent, an erosion is exact, since the
code clears what the shifted pictures leave standing at the border (`onPlane_pixErode`); a
dilation is cut to the extent (`onPlane_pixDilate`).  So an opening comes out exact, and a
closing does if there is room enough around the picture, which `pixCloseSafeBrick` provides.
-/

namespace CardScanner

open Morphology
open scoped Pointwise

/-! ## Copies -/

/-- `rasteropLow` along one axis, "clip to max rectangle within both src and
dest": where the rectangle begins in both pictures, and its size. -/
def clipSpan (dpix spix d s dw : ℤ) : ℤ × ℤ × ℤ :=
  let (d, s, dw) := if d < 0 then (0, s - d, dw + d) else (d, s, dw)
  let (d, s, dw) := if s < 0 then (d - s, 0, dw + s) else (d, s, dw)
  let dhang := d + dw - dpix
  let dw := if dhang > 0 then dw - dhang else dw
  let shang := s + dw - spix
  let dw := if shang > 0 then dw - shang else dw
  (d, s, dw)

/-- `pixRasterop` from one picture into another; `op` gets the source first. -/
def pixRasterop (pixd : Raster Bool) (dx dy dw dh : ℤ) (op : Bool → Bool → Bool)
    (pixs : Raster Bool) (sx sy : ℤ) : Raster Bool :=
  let (dx, sx, dw) := clipSpan pixd.width pixs.width dx sx dw
  let (dy, sy, dh) := clipSpan pixd.height pixs.height dy sy dh
  { width := pixd.width
    height := pixd.height
    pixel := fun x y =>
      if (dx ≤ x ∧ x < dx + dw) ∧ dy ≤ y ∧ y < dy + dh then
        op (pixs.pixel (sx + (x - dx)).toNat (sy + (y - dy)).toNat) (pixd.pixel x y)
      else pixd.pixel x y }

/-- `rasteropUniLow` along one axis, "clip rectangle to dest image". -/
def clipUniSpan (dpix d dw : ℤ) : ℤ × ℤ :=
  let (d, dw) := if d < 0 then (0, dw + d) else (d, dw)
  let dhang := d + dw - dpix
  let dw := if dhang > 0 then dw - dhang else dw
  (d, dw)

/-- `pixRasterop` on one picture alone. -/
def pixRasteropUni (pixd : Raster Bool) (dx dy dw dh : ℤ) (op : Bool → Bool) : Raster Bool :=
  let (dx, dw) := clipUniSpan pixd.width dx dw
  let (dy, dh) := clipUniSpan pixd.height dy dh
  { width := pixd.width
    height := pixd.height
    pixel := fun x y =>
      if (dx ≤ x ∧ x < dx + dw) ∧ dy ≤ y ∧ y < dy + dh then op (pixd.pixel x y)
      else pixd.pixel x y }

/-- `pixAddBorder` with OFF pixels. -/
def pixAddBorder (pixs : Raster Bool) (npix : ℕ) : Raster Bool :=
  if npix = 0 then pixs
  else
    pixRasterop (Raster.blank false (pixs.width + npix + npix) (pixs.height + npix + npix))
      npix npix pixs.width pixs.height (fun src _ => src) pixs 0 0

/-- `pixRemoveBorder`.  It fails if nothing would be left inside of the
border. -/
def pixRemoveBorder (pixs : Raster Bool) (npix : ℕ) : Option (Raster Bool) :=
  if npix = 0 then some pixs
  else if pixs.width ≤ npix + npix ∨ pixs.height ≤ npix + npix then none
  else
    let wd := pixs.width - npix - npix
    let hd := pixs.height - npix - npix
    some (pixRasterop (Raster.blank false wd hd) 0 0 wd hd (fun src _ => src) pixs npix npix)

/-! ## Structuring elements -/

inductive SelElement where
  | dontCare
  | hit
  | miss
deriving DecidableEq

/-- `SEL`; `data` is by row and column, and the origin is at row `cy` and
column `cx`. -/
structure Sel where
  sy : ℕ
  sx : ℕ
  cy : ℕ
  cx : ℕ
  data : ℕ → ℕ → SelElement

/-- The hits, from the origin, in the order in which the loops come to them. -/
def Sel.hits (sel : Sel) : List (ℤ × ℤ) :=
  (List.range sel.sy).flatMap fun i => (List.range sel.sx).filterMap fun j =>
    if sel.data i j = .hit then some ((j : ℤ) - sel.cx, (i : ℤ) - sel.cy) else none

/-- `selCreateBrick`: an element all of whose places are of one type. -/
def selCreateBrick (h w cy cx : ℕ) (type : SelElement) : Sel := ⟨h, w, cy, cx, fun _ _ => type⟩

/-- `selFindMaxTranslations`: how far the hits are to the left and above the
origin, and to the right and below it. -/
def selFindMaxTranslations (sel : Sel) : (ℤ × ℤ) × ℤ × ℤ :=
  sel.hits.foldl (fun m b =>
    ((max m.1.1 (-b.1), max m.1.2 (-b.2)), max m.2.1 b.1, max m.2.2 b.2)) ((0, 0), 0, 0)

/-- `pixDilate`: the picture is painted over an empty one, once for each hit
of the element. -/
def pixDilate (pixs : Raster Bool) (sel : Sel) : Raster Bool :=
  sel.hits.foldl (fun pixd b =>
      pixRasterop pixd b.1 b.2 pixs.width pixs.height (fun src dst => src || dst) pixs 0 0)
    (Raster.blank false pixs.width pixs.height)

/-- `pixErode`, with the boundary condition that is set: all is OFF outside of
the picture. -/
def pixErode (pixs : Raster Bool) (sel : Sel) : Raster Bool :=
  let w : ℤ := pixs.width
  let h : ℤ := pixs.height
  let pixd := sel.hits.foldl (fun pixd b =>
      pixRasterop pixd (-b.1) (-b.2) w h (fun src dst => src && dst) pixs 0 0)
    (Raster.blank true pixs.width pixs.height)
  let ((xp, yp), xn, yn) := selFindMaxTranslations sel
  let clear := fun _ => false
  let pixd := if xp > 0 then pixRasteropUni pixd 0 0 xp h clear else pixd
  let pixd := if xn > 0 then pixRasteropUni pixd (w - xn) 0 xn h clear else pixd
  let pixd := if yp > 0 then pixRasteropUni pixd 0 0 w yp clear else pixd
  if yn > 0 then pixRasteropUni pixd 0 (h - yn) w yn clear else pixd

/-- `pixOpen`. -/
def pixOpen (pixs : Raster Bool) (sel : Sel) : Raster Bool := pixDilate (pixErode pixs sel) sel

/-- `pixClose`. -/
def pixClose (pixs : Raster Bool) (sel : Sel) : Raster Bool := pixErode (pixDilate pixs sel) sel

/-- `pixOpenBrick`: a brick with two sides longer than 1 is taken apart into a
row and a column. -/
def pixOpenBrick (pixs : Raster Bool) (hsize vsize : ℕ) : Option (Raster Bool) :=
  if hsize < 1 ∨ vsize < 1 then none
  else if hsize = 1 ∧ vsize = 1 then some pixs
  else if hsize = 1 ∨ vsize = 1 then
    some (pixOpen pixs (selCreateBrick vsize hsize (vsize / 2) (hsize / 2) .hit))
  else
    let selh := selCreateBrick 1 hsize 0 (hsize / 2) .hit
    let selv := selCreateBrick vsize 1 (vsize / 2) 0 .hit
    let pixt := pixErode pixs selh
    let pixd := pixErode pixt selv
    let pixt := pixDilate pixd selh
    some (pixDilate pixt selv)

/-- `pixCloseSafeBrick`: the picture is given a border of whole words that no
translation of the brick reaches across, and loses it again in the end. -/
def pixCloseSafeBrick (pixs : Raster Bool) (hsize vsize : ℕ) : Option (Raster Bool) :=
  if hsize < 1 ∨ vsize < 1 then none
  else if hsize = 1 ∧ vsize = 1 then some pixs
  else
    let maxtrans := max (hsize / 2) (vsize / 2)
    let bordsize := 32 * ((maxtrans + 31) / 32)
    let pixsb := pixAddBorder pixs bordsize
    let pixdb :=
      if hsize = 1 ∨ vsize = 1 then
        pixClose pixsb (selCreateBrick vsize hsize (vsize / 2) (hsize / 2) .hit)
      else
        let selh := selCreateBrick 1 hsize 0 (hsize / 2) .hit
        let selv := selCreateBrick vsize 1 (vsize / 2) 0 .hit
        let pixt := pixDilate pixsb selh
        let pixdb := pixDilate pixt selv
        let pixt := pixErode pixdb selh
        pixErode pixt selv
    pixRemoveBorder pixdb bordsize

/-! ## Pictures on the plane -/

/-- The places of a picture. -/
def frame (w h : ℕ) : Set (ℤ × ℤ) := {p | (0 ≤ p.1 ∧ p.1 < w) ∧ 0 ≤ p.2 ∧ p.2 < h}

instance (w h : ℕ) (p : ℤ × ℤ) : Decidable (p ∈ frame w h) :=
  inferInstanceAs (Decidable ((0 ≤ p.1 ∧ p.1 < w) ∧ 0 ≤ p.2 ∧ p.2 < h))

/-- The ON pixels of a picture, as a set of the plane. -/
def onPlane (pixs : Raster Bool) : Set (ℤ × ℤ) :=
  {p | p ∈ frame pixs.width pixs.height ∧ pixs.pixel p.1.toNat p.2.toNat = true}

theorem onPlane_subset (pixs : Raster Bool) : onPlane pixs ⊆ frame pixs.width pixs.height :=
  fun _ h => h.1

/-- On the plane a pixel of the picture is ON exactly if it is in the picture. -/
theorem mem_onPlane_cast {pixs : Raster Bool} {x y : ℕ} (hx : x < pixs.width)
    (hy : y < pixs.height) : ((x : ℤ), (y : ℤ)) ∈ onPlane pixs ↔ pixs.pixel x y = true := by
  have hframe : ((x : ℤ), (y : ℤ)) ∈ frame pixs.width pixs.height :=
    ⟨⟨by omega, by omega⟩, by omega, by omega⟩
  exact ⟨fun h => h.2, fun h => ⟨hframe, h⟩⟩

section Clip

variable {dpix spix d s dw x : ℤ}

/-- The part of a row that is copied after clipping: what the copy asks for,
as far as source and target both have it. -/
theorem mem_clipSpan (hx : 0 ≤ x) (hx' : x < dpix) :
    ((clipSpan dpix spix d s dw).1 ≤ x ∧
        x < (clipSpan dpix spix d s dw).1 + (clipSpan dpix spix d s dw).2.2) ↔
      (d ≤ x ∧ x < d + dw) ∧ 0 ≤ s + (x - d) ∧ s + (x - d) < spix := by
  unfold clipSpan
  by_cases hd : d < 0
  · by_cases hs : s - d < 0
    · simp only [if_pos hd, if_pos hs]
      split_ifs <;> omega
    · simp only [if_pos hd, if_neg hs]
      split_ifs <;> omega
  · by_cases hs : s < 0
    · simp only [if_neg hd, if_pos hs]
      split_ifs <;> omega
    · simp only [if_neg hd, if_neg hs]
      split_ifs <;> omega

/-- What is clipped away is clipped from both pictures, so they stay at one
distance. -/
theorem clipSpan_shift :
    (clipSpan dpix spix d s dw).2.1 - (clipSpan dpix spix d s dw).1 = s - d := by
  unfold clipSpan
  by_cases hd : d < 0
  · by_cases hs : s - d < 0
    · simp only [if_pos hd, if_pos hs]
      omega
    · simp only [if_pos hd, if_neg hs]
      omega
  · by_cases hs : s < 0
    · simp only [if_neg hd, if_pos hs]
      omega
    · simp only [if_neg hd, if_neg hs]

/-- The part of a row that is changed in place, clipped at one picture only. -/
theorem mem_clipUniSpan (hx : 0 ≤ x) (hx' : x < dpix) :
    ((clipUniSpan dpix d dw).1 ≤ x ∧
        x < (clipUniSpan dpix d dw).1 + (clipUniSpan dpix d dw).2) ↔ d ≤ x ∧ x < d + dw := by
  unfold clipUniSpan
  by_cases hd : d < 0
  · simp only [if_pos hd]
    split_ifs <;> omega
  · simp only [if_neg hd]
    split_ifs <;> omega

end Clip

section Copy

variable {pixd pixs : Raster Bool} {dx dy dw dh sx sy : ℤ} {op : Bool → Bool → Bool}

@[simp] theorem width_pixRasterop :
    (pixRasterop pixd dx dy dw dh op pixs sx sy).width = pixd.width := rfl

@[simp] theorem height_pixRasterop :
    (pixRasterop pixd dx dy dw dh op pixs sx sy).height = pixd.height := rfl

/-- A copy, at one place.  What the clipping leaves of the rectangle is what
lies in both pictures, so the operation is done where the source has a pixel. -/
theorem mem_onPlane_pixRasterop {p : ℤ × ℤ} :
    p ∈ onPlane (pixRasterop pixd dx dy dw dh op pixs sx sy) ↔
      p ∈ frame pixd.width pixd.height ∧
        (if ((dx ≤ p.1 ∧ p.1 < dx + dw) ∧ dy ≤ p.2 ∧ p.2 < dy + dh) ∧
            (sx + (p.1 - dx), sy + (p.2 - dy)) ∈ frame pixs.width pixs.height then
          op (pixs.pixel (sx + (p.1 - dx)).toNat (sy + (p.2 - dy)).toNat)
            (pixd.pixel p.1.toNat p.2.toNat)
        else pixd.pixel p.1.toNat p.2.toNat) = true := by
  refine and_congr_right fun hp => ?_
  obtain ⟨⟨hx, hx'⟩, hy, hy'⟩ : p ∈ frame pixd.width pixd.height := hp
  have hcolumn := @mem_clipSpan _ pixs.width dx sx dw _ hx hx'
  have hrow := @mem_clipSpan _ pixs.height dy sy dh _ hy hy'
  have hshift := @clipSpan_shift pixd.width pixs.width dx sx dw
  have hshift' := @clipSpan_shift pixd.height pixs.height dy sy dh
  have hsame : (clipSpan pixd.width pixs.width dx sx dw).2.1 +
      (p.1 - (clipSpan pixd.width pixs.width dx sx dw).1) = sx + (p.1 - dx) := by omega
  have hsame' : (clipSpan pixd.height pixs.height dy sy dh).2.1 +
      (p.2 - (clipSpan pixd.height pixs.height dy sy dh).1) = sy + (p.2 - dy) := by omega
  simp only [pixRasterop, Int.toNat_of_nonneg hx, Int.toNat_of_nonneg hy, hcolumn, hrow, hsame,
    hsame', frame, Set.mem_ofPred_eq]
  exact iff_of_eq (congrArg (· = true) (if_congr and_and_and_comm rfl rfl))

/-- An operation on one picture changes the pixels of its rectangle and leaves
the others. -/
theorem mem_onPlane_pixRasteropUni {op : Bool → Bool} {p : ℤ × ℤ} :
    p ∈ onPlane (pixRasteropUni pixd dx dy dw dh op) ↔
      p ∈ frame pixd.width pixd.height ∧
        (if (dx ≤ p.1 ∧ p.1 < dx + dw) ∧ dy ≤ p.2 ∧ p.2 < dy + dh then
          op (pixd.pixel p.1.toNat p.2.toNat)
        else pixd.pixel p.1.toNat p.2.toNat) = true := by
  refine and_congr_right fun hp => ?_
  obtain ⟨⟨hx, hx'⟩, hy, hy'⟩ : p ∈ frame pixd.width pixd.height := hp
  simp only [pixRasteropUni, Int.toNat_of_nonneg hx, Int.toNat_of_nonneg hy,
    mem_clipUniSpan hx hx', mem_clipUniSpan hy hy']

/-- Painting over a picture of the same extent, at a step from it: what is ON
stays ON, and the source is added, moved by the step. -/
theorem mem_onPlane_paint {b p : ℤ × ℤ} (hw : pixd.width = pixs.width)
    (hh : pixd.height = pixs.height) :
    p ∈ onPlane (pixRasterop pixd b.1 b.2 pixs.width pixs.height (fun src dst => src || dst)
        pixs 0 0) ↔
      p ∈ onPlane pixd ∨ p ∈ frame pixs.width pixs.height ∧ p - b ∈ onPlane pixs := by
  have hsource : ((0 : ℤ) + (p.1 - b.1), (0 : ℤ) + (p.2 - b.2)) = p - b := by
    ext <;> simp
  have hdest : p ∈ onPlane pixd ↔
      p ∈ frame pixs.width pixs.height ∧ pixd.pixel p.1.toNat p.2.toNat = true := by
    rw [← hw, ← hh]
    exact Iff.rfl
  rw [mem_onPlane_pixRasterop, hsource, hw, hh, hdest]
  by_cases hin : p - b ∈ frame pixs.width pixs.height
  · have hon : p - b ∈ onPlane pixs ↔ pixs.pixel (p.1 - b.1).toNat (p.2 - b.2).toNat = true :=
      ⟨fun h => h.2, fun h => ⟨hin, h⟩⟩
    obtain ⟨⟨hx, hx'⟩, hy, hy'⟩ := hin
    simp only [Prod.fst_sub, Prod.snd_sub] at hx hx' hy hy'
    rw [if_pos (by simp only [frame, Set.mem_ofPred_eq, Prod.fst_sub, Prod.snd_sub]; omega), hon]
    simp only [zero_add, Bool.or_eq_true, and_or_left]
    exact or_comm
  · have hoff : p - b ∉ onPlane pixs := fun h => hin h.1
    rw [if_neg fun h => hin h.2]
    exact ⟨Or.inl, fun h => h.resolve_right fun h' => hoff h'.2⟩

/-- Masking with a picture of the same extent, at a step from it: a pixel goes
OFF only where the source has one there that is OFF. -/
theorem mem_onPlane_mask {b p : ℤ × ℤ} (hw : pixd.width = pixs.width)
    (hh : pixd.height = pixs.height) :
    p ∈ onPlane (pixRasterop pixd (-b.1) (-b.2) pixs.width pixs.height
        (fun src dst => src && dst) pixs 0 0) ↔
      p ∈ onPlane pixd ∧ (p + b ∈ frame pixs.width pixs.height → p + b ∈ onPlane pixs) := by
  have hsource : ((0 : ℤ) + (p.1 - -b.1), (0 : ℤ) + (p.2 - -b.2)) = p + b := by
    ext <;> simp
  have hdest : p ∈ onPlane pixd ↔
      p ∈ frame pixs.width pixs.height ∧ pixd.pixel p.1.toNat p.2.toNat = true := by
    rw [← hw, ← hh]
    exact Iff.rfl
  rw [mem_onPlane_pixRasterop, hsource, hw, hh, hdest]
  by_cases hin : p + b ∈ frame pixs.width pixs.height
  · have hon : p + b ∈ onPlane pixs ↔ pixs.pixel (p.1 + b.1).toNat (p.2 + b.2).toNat = true :=
      ⟨fun h => h.2, fun h => ⟨hin, h⟩⟩
    obtain ⟨⟨hx, hx'⟩, hy, hy'⟩ := id hin
    simp only [Prod.fst_add, Prod.snd_add] at hx hx' hy hy'
    rw [if_pos (by simp only [frame, Set.mem_ofPred_eq, Prod.fst_add, Prod.snd_add]; omega), hon]
    simp only [zero_add, sub_neg_eq_add, Bool.and_eq_true]
    exact ⟨fun h => ⟨⟨h.1, h.2.2⟩, fun _ => h.2.1⟩, fun h => ⟨h.1.1, h.2 hin, h.1.2⟩⟩
  · rw [if_neg fun h => hin h.2]
    exact ⟨fun h => ⟨h, fun h' => absurd h' hin⟩, fun h => h.1⟩

/-- A rectangle is cleared, if it is not empty. -/
theorem mem_onPlane_clear {n : ℤ} {p : ℤ × ℤ} :
    p ∈ onPlane (if n > 0 then pixRasteropUni pixd dx dy dw dh fun _ => false else pixd) ↔
      p ∈ onPlane pixd ∧ ¬ (n > 0 ∧ (dx ≤ p.1 ∧ p.1 < dx + dw) ∧ dy ≤ p.2 ∧ p.2 < dy + dh) := by
  by_cases hn : n > 0
  · rw [if_pos hn, mem_onPlane_pixRasteropUni]
    by_cases hin : (dx ≤ p.1 ∧ p.1 < dx + dw) ∧ dy ≤ p.2 ∧ p.2 < dy + dh
    · simp [hin, hn]
    · rw [if_neg hin]
      exact ⟨fun h => ⟨h, fun h' => hin h'.2⟩, fun h => h.1⟩
  · rw [if_neg hn]
    exact ⟨fun h => ⟨h, fun h' => hn h'.1⟩, fun h => h.1⟩

end Copy

/-! ## Dilation and erosion -/

section Loops

variable {pixs pixd : Raster Bool} {sel : Sel} {p : ℤ × ℤ}

/-- The loop of `pixDilate`. -/
theorem mem_onPlane_paints {bs : List (ℤ × ℤ)} (hw : pixd.width = pixs.width)
    (hh : pixd.height = pixs.height) :
    p ∈ onPlane (bs.foldl (fun pixd b => pixRasterop pixd b.1 b.2 pixs.width pixs.height
        (fun src dst => src || dst) pixs 0 0) pixd) ↔
      p ∈ onPlane pixd ∨ p ∈ frame pixs.width pixs.height ∧ ∃ b ∈ bs, p - b ∈ onPlane pixs := by
  induction bs generalizing pixd with
  | nil => simp
  | cons b bs ih =>
      rw [List.foldl_cons, ih (width_pixRasterop.trans hw) (height_pixRasterop.trans hh),
        mem_onPlane_paint hw hh, List.exists_mem_cons_iff, or_assoc, ← and_or_left]

/-- The loop of `pixErode`. -/
theorem mem_onPlane_masks {bs : List (ℤ × ℤ)} (hw : pixd.width = pixs.width)
    (hh : pixd.height = pixs.height) :
    p ∈ onPlane (bs.foldl (fun pixd b => pixRasterop pixd (-b.1) (-b.2) pixs.width pixs.height
        (fun src dst => src && dst) pixs 0 0) pixd) ↔
      p ∈ onPlane pixd ∧
        ∀ b ∈ bs, p + b ∈ frame pixs.width pixs.height → p + b ∈ onPlane pixs := by
  induction bs generalizing pixd with
  | nil => simp
  | cons b bs ih =>
      rw [List.foldl_cons, ih (width_pixRasterop.trans hw) (height_pixRasterop.trans hh),
        mem_onPlane_mask hw hh, List.forall_mem_cons, and_assoc]

theorem extent_pixDilate (pixs : Raster Bool) (sel : Sel) :
    (pixDilate pixs sel).width = pixs.width ∧ (pixDilate pixs sel).height = pixs.height := by
  unfold pixDilate
  exact Raster.extent_foldl (fun _ _ => ⟨width_pixRasterop, height_pixRasterop⟩) _ _

/-- **A dilation** is cut to the extent of the picture.  It is the union of
the shifted copies that are painted one over the other, each clipped by
itself. -/
theorem onPlane_pixDilate (pixs : Raster Bool) (sel : Sel) :
    onPlane (pixDilate pixs sel) =
      dilate (onPlane pixs) {b | b ∈ sel.hits} ∩ frame pixs.width pixs.height := by
  ext p
  have hblank : p ∉ onPlane (Raster.blank false pixs.width pixs.height) := by
    intro h
    simpa [Raster.blank] using h.2
  have hpaints := @mem_onPlane_paints pixs (Raster.blank false pixs.width pixs.height) p sel.hits
    rfl rfl
  refine hpaints.trans ?_
  constructor
  · rintro (h | ⟨hin, hhit⟩)
    · exact absurd h hblank
    · exact ⟨hhit, hin⟩
  · rintro ⟨hhit, hin⟩
    exact Or.inr ⟨hin, hhit⟩

/-- A loop that keeps the maximum is bounded by what bounds all it has seen. -/
theorem foldl_max_le {β : Type*} {f : β → ℤ} {bs : List β} {m x : ℤ} :
    bs.foldl (fun m b => max m (f b)) m ≤ x ↔ m ≤ x ∧ ∀ b ∈ bs, f b ≤ x := by
  induction bs generalizing m with
  | nil => simp
  | cons b bs ih => rw [List.foldl_cons, ih, max_le_iff, List.forall_mem_cons, and_assoc]

/-- Each of the four translations is the largest of its kind, over the hits of
the element. -/
theorem selFindMaxTranslations_eq (sel : Sel) :
    selFindMaxTranslations sel =
      ((sel.hits.foldl (fun m b => max m (-b.1)) 0, sel.hits.foldl (fun m b => max m (-b.2)) 0),
        sel.hits.foldl (fun m b => max m b.1) 0, sel.hits.foldl (fun m b => max m b.2) 0) := by
  have hall : ∀ (bs : List (ℤ × ℤ)) (xp yp xn yn : ℤ),
      bs.foldl (fun m b => ((max m.1.1 (-b.1), max m.1.2 (-b.2)), max m.2.1 b.1, max m.2.2 b.2))
          ((xp, yp), xn, yn) =
        ((bs.foldl (fun m b => max m (-b.1)) xp, bs.foldl (fun m b => max m (-b.2)) yp),
          bs.foldl (fun m b => max m b.1) xn, bs.foldl (fun m b => max m b.2) yn) := by
    intro bs
    induction bs with
    | nil => exact fun _ _ _ _ => rfl
    | cons b bs ih => exact fun _ _ _ _ => ih _ _ _ _
  exact hall sel.hits 0 0 0 0

/-- The largest translations have room around a pixel where no step leaves the
extent. -/
theorem translations_le_iff {w h : ℕ} (hp : p ∈ frame w h) {bs : List (ℤ × ℤ)} :
    (bs.foldl (fun m b => max m (-b.1)) 0 ≤ p.1 ∧
      bs.foldl (fun m b => max m (-b.2)) 0 ≤ p.2 ∧
      bs.foldl (fun m b => max m b.1) 0 ≤ w - 1 - p.1 ∧
      bs.foldl (fun m b => max m b.2) 0 ≤ h - 1 - p.2) ↔ ∀ b ∈ bs, p + b ∈ frame w h := by
  obtain ⟨⟨hx, hx'⟩, hy, hy'⟩ := hp
  simp only [foldl_max_le]
  constructor
  · intro hroom b hb
    obtain ⟨⟨-, hleft⟩, ⟨-, habove⟩, ⟨-, hright⟩, -, hbelow⟩ := hroom
    have h1 := hleft b hb
    have h2 := habove b hb
    have h3 := hright b hb
    have h4 := hbelow b hb
    exact ⟨⟨by simp only [Prod.fst_add]; omega, by simp only [Prod.fst_add]; omega⟩,
      by simp only [Prod.snd_add]; omega, by simp only [Prod.snd_add]; omega⟩
  · intro hroom
    have hinside : ∀ b ∈ bs, (0 ≤ p.1 + b.1 ∧ p.1 + b.1 < w) ∧ 0 ≤ p.2 + b.2 ∧ p.2 + b.2 < h :=
      hroom
    refine ⟨⟨hx, fun b hb => ?_⟩, ⟨hy, fun b hb => ?_⟩, ⟨by omega, fun b hb => ?_⟩, by omega,
      fun b hb => ?_⟩
    all_goals
      have hstep := hinside b hb
      omega

/-- **An erosion** is exact: what is cleared along the border is where the
shifted pictures leave the extent.  Pixels beyond the border count as OFF, in
the intersection of the copies and by the clearing alike. -/
theorem onPlane_pixErode (pixs : Raster Bool) (sel : Sel) :
    onPlane (pixErode pixs sel) =
      erode (onPlane pixs) {b | b ∈ sel.hits} ∩ frame pixs.width pixs.height := by
  ext p
  have hblank : p ∈ onPlane (Raster.blank true pixs.width pixs.height) ↔
      p ∈ frame pixs.width pixs.height := ⟨fun h => h.1, fun h => ⟨h, rfl⟩⟩
  unfold pixErode
  rw [selFindMaxTranslations_eq]
  have hmasks := @mem_onPlane_masks pixs (Raster.blank true pixs.width pixs.height) p sel.hits
    rfl rfl
  simp only [mem_onPlane_clear, hmasks, hblank]
  by_cases hin : p ∈ frame pixs.width pixs.height
  · have hroom := @translations_le_iff p _ _ hin sel.hits
    obtain ⟨⟨hx, hx'⟩, hy, hy'⟩ := id hin
    constructor
    · intro h
      obtain ⟨⟨⟨⟨⟨-, hon⟩, hxp⟩, hxn⟩, hyp⟩, hyn⟩ := h
      have hinside := hroom.mp (by omega)
      exact ⟨fun b hb => hon b hb (hinside b hb), hin⟩
    · intro h
      obtain ⟨hon, -⟩ := h
      obtain ⟨h1, h2, h3, h4⟩ := hroom.mpr fun b hb => onPlane_subset pixs (hon b hb)
      exact ⟨⟨⟨⟨⟨hin, fun b hb _ => hon b hb⟩, by omega⟩, by omega⟩, by omega⟩, by omega⟩
  · exact ⟨fun h => absurd h.1.1.1.1.1 hin, fun h => absurd h.2 hin⟩

theorem extent_pixErode (pixs : Raster Bool) (sel : Sel) :
    (pixErode pixs sel).width = pixs.width ∧ (pixErode pixs sel).height = pixs.height := by
  have hmasks : ∀ (bs : List (ℤ × ℤ)) (pixd : Raster Bool),
      (bs.foldl (fun pixd b => pixRasterop pixd (-b.1) (-b.2) pixs.width pixs.height
        (fun src dst => src && dst) pixs 0 0) pixd).width = pixd.width ∧
      (bs.foldl (fun pixd b => pixRasterop pixd (-b.1) (-b.2) pixs.width pixs.height
        (fun src dst => src && dst) pixs 0 0) pixd).height = pixd.height :=
    Raster.extent_foldl fun _ _ => ⟨width_pixRasterop, height_pixRasterop⟩
  obtain ⟨hw, hh⟩ := hmasks sel.hits (Raster.blank true pixs.width pixs.height)
  unfold pixErode
  constructor
  · simp only
    split_ifs <;> exact hw
  · simp only
    split_ifs <;> exact hh

end Loops

/-! ## Bricks -/

/-- The brick of `hsize` by `vsize` steps around the origin. -/
def brick (hsize vsize : ℕ) : Set (ℤ × ℤ) :=
  {b | (-((hsize / 2 : ℕ) : ℤ) ≤ b.1 ∧ b.1 < hsize - (hsize / 2 : ℕ)) ∧
    -((vsize / 2 : ℕ) : ℤ) ≤ b.2 ∧ b.2 < vsize - (vsize / 2 : ℕ)}

theorem mem_hits_selCreateBrick {h w cy cx : ℕ} {b : ℤ × ℤ} :
    b ∈ (selCreateBrick h w cy cx .hit).hits ↔
      (-(cx : ℤ) ≤ b.1 ∧ b.1 < w - cx) ∧ -(cy : ℤ) ≤ b.2 ∧ b.2 < h - cy := by
  simp only [Sel.hits, selCreateBrick, List.mem_flatMap, List.mem_range, List.mem_filterMap,
    if_true, Option.some.injEq]
  constructor
  · rintro ⟨i, hi, j, hj, rfl⟩
    exact ⟨⟨by simp only; omega, by simp only; omega⟩, by simp only; omega, by simp only; omega⟩
  · rintro ⟨⟨hx, hx'⟩, hy, hy'⟩
    refine ⟨(b.2 + cy).toNat, by omega, (b.1 + cx).toNat, by omega, Prod.ext ?_ ?_⟩
    · simp only
      omega
    · simp only
      omega

section Bricks

variable {hsize vsize : ℕ}

/-- A brick with its origin in the middle has the hits of the `brick` of the
plane. -/
theorem hits_brick (hsize vsize : ℕ) :
    {b | b ∈ (selCreateBrick vsize hsize (vsize / 2) (hsize / 2) .hit).hits} =
      brick hsize vsize := Set.ext fun _ => mem_hits_selCreateBrick

/-- So has a brick of one row, with which the first of two passes is made. -/
theorem hits_row (hsize : ℕ) :
    {b | b ∈ (selCreateBrick 1 hsize 0 (hsize / 2) .hit).hits} = brick hsize 1 :=
  Set.ext fun _ => mem_hits_selCreateBrick

theorem hits_column (vsize : ℕ) :
    {b | b ∈ (selCreateBrick vsize 1 (vsize / 2) 0 .hit).hits} = brick 1 vsize :=
  Set.ext fun _ => mem_hits_selCreateBrick

/-- The origin belongs to a brick that is not empty, so nothing is lost by a
dilation. -/
theorem zero_mem_brick (hh : 0 < hsize) (hv : 0 < vsize) : (0 : ℤ × ℤ) ∈ brick hsize vsize :=
  ⟨⟨by simp only [Prod.fst_zero]; omega, by simp only [Prod.fst_zero]; omega⟩,
    by simp only [Prod.snd_zero]; omega, by simp only [Prod.snd_zero]; omega⟩

/-- A brick of one pixel is the origin, and its passes are left out by the
code. -/
theorem brick_one : brick 1 1 = {0} := by
  ext b
  simp only [brick, Set.mem_ofPred_eq, Set.mem_singleton_iff, Prod.ext_iff, Prod.fst_zero,
    Prod.snd_zero]
  omega

/-- A brick is a row of columns. -/
theorem brick_add : brick hsize 1 + brick 1 vsize = brick hsize vsize := by
  ext b
  constructor
  · rintro ⟨r, ⟨hr, hr'⟩, c, ⟨hc, hc'⟩, rfl⟩
    exact ⟨by simp only [Prod.fst_add]; omega, by simp only [Prod.snd_add]; omega⟩
  · rintro ⟨hx, hy⟩
    refine ⟨(b.1, 0), ⟨hx, by simp⟩, (0, b.2), ⟨by simp, hy⟩, ?_⟩
    ext <;> simp

variable (pixs : Raster Bool) {sel : Sel}

/-- An erosion by a brick stays inside of the picture. -/
theorem onPlane_pixErode_of_zero (h : (0 : ℤ × ℤ) ∈ {b | b ∈ sel.hits}) :
    onPlane (pixErode pixs sel) = erode (onPlane pixs) {b | b ∈ sel.hits} := by
  rw [onPlane_pixErode]
  exact Set.inter_eq_left.mpr ((erode_subset h).trans (onPlane_subset pixs))

/-- Where the dilated set stays within the picture, nothing is cut off, and the
picture's dilation is that of the plane. -/
theorem onPlane_pixDilate_of_subset
    (h : dilate (onPlane pixs) {b | b ∈ sel.hits} ⊆ frame pixs.width pixs.height) :
    onPlane (pixDilate pixs sel) = dilate (onPlane pixs) {b | b ∈ sel.hits} := by
  rw [onPlane_pixDilate]
  exact Set.inter_eq_left.mpr h

/-- An erosion and a dilation by two sets of steps, one after the other. -/
theorem onPlane_dilate_erode {sel' : Sel} {B B' : Set (ℤ × ℤ)} (hhits : {b | b ∈ sel.hits} = B)
    (hhits' : {b | b ∈ sel'.hits} = B') (hzero : (0 : ℤ × ℤ) ∈ B) (hzero' : (0 : ℤ × ℤ) ∈ B') :
    (pixDilate (pixDilate (pixErode (pixErode pixs sel) sel') sel) sel').width = pixs.width ∧
      (pixDilate (pixDilate (pixErode (pixErode pixs sel) sel') sel) sel').height =
        pixs.height ∧
      onPlane (pixDilate (pixDilate (pixErode (pixErode pixs sel) sel') sel) sel') =
        opening (onPlane pixs) (B + B') := by
  obtain ⟨hw1, hh1⟩ := extent_pixErode pixs sel
  obtain ⟨hw2, hh2⟩ := extent_pixErode (pixErode pixs sel) sel'
  obtain ⟨hw3, hh3⟩ := extent_pixDilate (pixErode (pixErode pixs sel) sel') sel
  obtain ⟨hw4, hh4⟩ := extent_pixDilate (pixDilate (pixErode (pixErode pixs sel) sel') sel) sel'
  have heroded : onPlane (pixErode (pixErode pixs sel) sel') =
      erode (onPlane pixs) (B + B') := by
    rw [onPlane_pixErode_of_zero _ (hhits' ▸ hzero'),
      onPlane_pixErode_of_zero _ (hhits ▸ hzero), hhits, hhits', ← erode_add]
  have hfirst : onPlane (pixDilate (pixErode (pixErode pixs sel) sel') sel) =
      dilate (erode (onPlane pixs) (B + B')) B := by
    rw [onPlane_pixDilate_of_subset _, heroded, hhits]
    rw [heroded, hhits, hw2, hh2, hw1, hh1, add_comm, erode_add]
    exact (opening_subset _ _).trans ((erode_subset hzero').trans (onPlane_subset pixs))
  refine ⟨by omega, by omega, ?_⟩
  rw [onPlane_pixDilate_of_subset _, hfirst, hhits', ← dilate_add, opening]
  rw [hfirst, hhits', ← dilate_add, hw3, hh3, hw2, hh2, hw1, hh1]
  exact (opening_subset _ _).trans (onPlane_subset pixs)

/-- **An opening by a brick** is exact: in no pass is anything painted outside
of the picture.  A brick of more than one row and column takes four passes,
the row's and the column's of the erosion before those of the dilation. -/
theorem onPlane_pixOpenBrick (hh : 0 < hsize) (hv : 0 < vsize) :
    ∃ pixd, pixOpenBrick pixs hsize vsize = some pixd ∧ pixd.width = pixs.width ∧
      pixd.height = pixs.height ∧ onPlane pixd = opening (onPlane pixs) (brick hsize vsize) := by
  have hsize' : ¬ (hsize < 1 ∨ vsize < 1) := by omega
  unfold pixOpenBrick
  rw [if_neg hsize']
  by_cases hone : hsize = 1 ∧ vsize = 1
  · rw [if_pos hone, hone.1, hone.2, brick_one]
    exact ⟨pixs, rfl, rfl, rfl, by rw [opening, erode_zero, dilate_zero]⟩
  rw [if_neg hone]
  by_cases hline : hsize = 1 ∨ vsize = 1
  · rw [if_pos hline]
    generalize hsel : selCreateBrick vsize hsize (vsize / 2) (hsize / 2) .hit = sel
    have hhits : {b | b ∈ sel.hits} = brick hsize vsize := hsel ▸ hits_brick hsize vsize
    have herode := onPlane_pixErode_of_zero pixs (hhits ▸ zero_mem_brick hh hv)
    obtain ⟨hw', hh'⟩ := extent_pixErode pixs sel
    obtain ⟨hw'', hh''⟩ := extent_pixDilate (pixErode pixs sel) sel
    refine ⟨_, rfl, hw''.trans hw', hh''.trans hh', ?_⟩
    rw [pixOpen, onPlane_pixDilate_of_subset _, herode, hhits, opening]
    rw [herode, hw', hh']
    exact (opening_subset _ _).trans (onPlane_subset pixs)
  · rw [if_neg hline]
    have hpasses := onPlane_dilate_erode pixs (hits_row hsize) (hits_column vsize)
      (zero_mem_brick hh Nat.one_pos) (zero_mem_brick Nat.one_pos hv)
    rw [brick_add] at hpasses
    exact ⟨_, rfl, hpasses⟩

theorem onPlane_pixAddBorder {n : ℕ} (hn : n ≠ 0) :
    (pixAddBorder pixs n).width = pixs.width + n + n ∧
      (pixAddBorder pixs n).height = pixs.height + n + n ∧
      onPlane (pixAddBorder pixs n) = {p | p - ((n : ℤ), (n : ℤ)) ∈ onPlane pixs} := by
  unfold pixAddBorder
  rw [if_neg hn]
  refine ⟨rfl, rfl, ?_⟩
  ext p
  rw [mem_onPlane_pixRasterop]
  simp only [Raster.blank, zero_add, onPlane, frame, Set.mem_ofPred_eq, Prod.fst_sub,
    Prod.snd_sub]
  constructor
  · rintro ⟨-, hon⟩
    split_ifs at hon with hin
    exact ⟨hin.2, hon⟩
  · rintro ⟨hin, hon⟩
    refine ⟨by omega, ?_⟩
    rwa [if_pos ⟨by omega, hin⟩]

/-- Taking the frame off moves the picture back and keeps what was inside. -/
theorem onPlane_pixRemoveBorder {n : ℕ} (hn : n ≠ 0) (hw : n + n < pixs.width)
    (hh : n + n < pixs.height) :
    ∃ pixd, pixRemoveBorder pixs n = some pixd ∧ pixd.width = pixs.width - n - n ∧
      pixd.height = pixs.height - n - n ∧
      onPlane pixd = {p | p ∈ frame (pixs.width - n - n) (pixs.height - n - n) ∧
        p + ((n : ℤ), (n : ℤ)) ∈ onPlane pixs} := by
  unfold pixRemoveBorder
  rw [if_neg hn, if_neg (by omega)]
  refine ⟨_, rfl, rfl, rfl, ?_⟩
  ext p
  rw [mem_onPlane_pixRasterop]
  refine and_congr_right fun hp => ?_
  have hin : p + ((n : ℤ), (n : ℤ)) ∈ frame pixs.width pixs.height := by
    obtain ⟨⟨hx, hx'⟩, hy, hy'⟩ := hp
    simp only [Raster.blank] at hx' hy'
    exact ⟨⟨by simp only [Prod.fst_add]; omega, by simp only [Prod.fst_add]; omega⟩,
      by simp only [Prod.snd_add]; omega, by simp only [Prod.snd_add]; omega⟩
  have hsource : ((n : ℤ) + (p.1 - 0), (n : ℤ) + (p.2 - 0)) = p + ((n : ℤ), (n : ℤ)) := by
    ext <;> simp [add_comm]
  obtain ⟨⟨hx, hx'⟩, hy, hy'⟩ := hp
  simp only [Raster.blank] at hx' hy'
  rw [if_pos ⟨⟨⟨hx, by omega⟩, hy, by omega⟩, hsource ▸ hin⟩, sub_zero, sub_zero]
  simp only [onPlane, Set.mem_ofPred_eq, hin, true_and, Prod.fst_add, Prod.snd_add,
    add_comm (n : ℤ)]

/-- A closing by a brick stays inside of a rectangle: for a point outside of
it there is a copy of the brick over that point that lies as far outside as it
can. -/
theorem closing_subset_frame {S : Set (ℤ × ℤ)} {w h : ℕ} (hh : 0 < hsize) (hv : 0 < vsize)
    (hS : S ⊆ frame w h) : closing S (brick hsize vsize) ⊆ frame w h := by
  intro p hp
  by_contra hout
  refine notMem_closing.mpr ?_ hp
  refine ⟨(if p.1 < 0 then p.1 - (hsize / 2 : ℕ) else p.1 + (hsize - 1 - (hsize / 2 : ℕ)),
    if p.2 < 0 then p.2 - (vsize / 2 : ℕ) else p.2 + (vsize - 1 - (vsize / 2 : ℕ))), ?_, ?_⟩
  · simp only [brick, Set.mem_ofPred_eq, Prod.fst_sub, Prod.snd_sub]
    split_ifs <;> omega
  · intro b hb hin
    have hframe := hS hin
    simp only [frame, Set.mem_ofPred_eq, Prod.fst_sub, Prod.snd_sub] at hframe hout
    simp only [brick, Set.mem_ofPred_eq] at hb
    split_ifs at hframe <;> omega

/-- A dilation and an erosion, where the dilation has room in the picture.
Done in two passes each, they close by the sum of both bricks. -/
theorem onPlane_erode_dilate {sel' : Sel} {B B' : Set (ℤ × ℤ)} (hhits : {b | b ∈ sel.hits} = B)
    (hhits' : {b | b ∈ sel'.hits} = B') (hzero : (0 : ℤ × ℤ) ∈ B) (hzero' : (0 : ℤ × ℤ) ∈ B')
    (hroom : dilate (onPlane pixs) (B + B') ⊆ frame pixs.width pixs.height) :
    (pixErode (pixErode (pixDilate (pixDilate pixs sel) sel') sel) sel').width = pixs.width ∧
      (pixErode (pixErode (pixDilate (pixDilate pixs sel) sel') sel) sel').height =
        pixs.height ∧
      onPlane (pixErode (pixErode (pixDilate (pixDilate pixs sel) sel') sel) sel') =
        closing (onPlane pixs) (B + B') := by
  obtain ⟨hw1, hh1⟩ := extent_pixDilate pixs sel
  obtain ⟨hw2, hh2⟩ := extent_pixDilate (pixDilate pixs sel) sel'
  obtain ⟨hw3, hh3⟩ := extent_pixErode (pixDilate (pixDilate pixs sel) sel') sel
  obtain ⟨hw4, hh4⟩ := extent_pixErode (pixErode (pixDilate (pixDilate pixs sel) sel') sel) sel'
  have hfirst : onPlane (pixDilate pixs sel) = dilate (onPlane pixs) B := by
    rw [onPlane_pixDilate_of_subset pixs, hhits]
    rw [hhits]
    refine Set.Subset.trans ?_ hroom
    rw [dilate_add]
    exact subset_dilate hzero'
  have hsecond : onPlane (pixDilate (pixDilate pixs sel) sel') =
      dilate (onPlane pixs) (B + B') := by
    rw [onPlane_pixDilate_of_subset _, hfirst, hhits', dilate_add]
    rw [hfirst, hhits', ← dilate_add, hw1, hh1]
    exact hroom
  refine ⟨by omega, by omega, ?_⟩
  rw [onPlane_pixErode_of_zero _ (hhits' ▸ hzero'), onPlane_pixErode_of_zero _ (hhits ▸ hzero),
    hsecond, hhits, hhits', ← erode_add, closing]

/-- A closing on the picture with its border added is one on the picture, when
the border is removed. -/
theorem onPlane_pixRemoveBorder_closing {n : ℕ} {pixdb : Raster Bool} (hn : n ≠ 0)
    (hw : 0 < pixs.width) (hheight : 0 < pixs.height) (hh : 0 < hsize) (hv : 0 < vsize)
    (hwd : pixdb.width = (pixAddBorder pixs n).width)
    (hhd : pixdb.height = (pixAddBorder pixs n).height)
    (hon : onPlane pixdb = closing (onPlane (pixAddBorder pixs n)) (brick hsize vsize)) :
    ∃ pixd, pixRemoveBorder pixdb n = some pixd ∧ pixd.width = pixs.width ∧
      pixd.height = pixs.height ∧ onPlane pixd = closing (onPlane pixs) (brick hsize vsize) := by
  obtain ⟨hwb, hhb, hplane⟩ := onPlane_pixAddBorder pixs hn
  obtain ⟨pixd, hremove, hwr, hhr, honr⟩ :=
    onPlane_pixRemoveBorder pixdb hn (by omega) (by omega)
  have hwidth : pixdb.width - n - n = pixs.width := by omega
  have hheight' : pixdb.height - n - n = pixs.height := by omega
  refine ⟨pixd, hremove, hwr.trans hwidth, hhr.trans hheight', ?_⟩
  rw [honr, hwidth, hheight', hon, hplane, closing_move]
  simp only [Set.mem_ofPred_eq, add_sub_cancel_right]
  exact Set.inter_eq_right.mpr (closing_subset_frame hh hv (onPlane_subset pixs))

/-- **A safe closing by a brick** is exact: the border that is added is as
wide as the brick reaches, so that nothing of the dilation is cut off before
the erosion, and it is taken off again. -/
theorem onPlane_pixCloseSafeBrick (hw : 0 < pixs.width) (hheight : 0 < pixs.height)
    (hh : 0 < hsize) (hv : 0 < vsize) :
    ∃ pixd, pixCloseSafeBrick pixs hsize vsize = some pixd ∧ pixd.width = pixs.width ∧
      pixd.height = pixs.height ∧ onPlane pixd = closing (onPlane pixs) (brick hsize vsize) := by
  have hsize' : ¬ (hsize < 1 ∨ vsize < 1) := by omega
  unfold pixCloseSafeBrick
  rw [if_neg hsize']
  by_cases hone : hsize = 1 ∧ vsize = 1
  · rw [if_pos hone, hone.1, hone.2, brick_one]
    exact ⟨pixs, rfl, rfl, rfl, by rw [closing, dilate_zero, erode_zero]⟩
  rw [if_neg hone]
  simp only
  generalize hbord : 32 * ((max (hsize / 2) (vsize / 2) + 31) / 32) = bordsize
  have hwide : hsize / 2 ≤ bordsize ∧ vsize / 2 ≤ bordsize ∧ bordsize ≠ 0 := by omega
  have hclosed := fun pixdb => @onPlane_pixRemoveBorder_closing hsize vsize pixs bordsize pixdb
    hwide.2.2 hw hheight hh hv
  obtain ⟨hwb, hhb, hplane⟩ := onPlane_pixAddBorder pixs hwide.2.2
  generalize pixAddBorder pixs bordsize = pixsb at hwb hhb hplane hclosed ⊢
  have hroom : dilate (onPlane pixsb) (brick hsize vsize) ⊆ frame pixsb.width pixsb.height := by
    intro p hp
    obtain ⟨b, ⟨hbx, hby⟩, hp⟩ := hp
    rw [hplane] at hp
    obtain ⟨⟨hx, hx'⟩, hy, hy'⟩ := onPlane_subset pixs hp
    simp only [Prod.fst_sub, Prod.snd_sub] at hx hx' hy hy'
    exact ⟨⟨by omega, by omega⟩, by omega, by omega⟩
  by_cases hline : hsize = 1 ∨ vsize = 1
  · rw [if_pos hline]
    generalize hsel : selCreateBrick vsize hsize (vsize / 2) (hsize / 2) .hit = sel
    have hhits : {b | b ∈ sel.hits} = brick hsize vsize := hsel ▸ hits_brick hsize vsize
    obtain ⟨hw1, hh1⟩ := extent_pixDilate pixsb sel
    obtain ⟨hw2, hh2⟩ := extent_pixErode (pixDilate pixsb sel) sel
    refine hclosed _ (hw2.trans hw1) (hh2.trans hh1) ?_
    rw [pixClose, onPlane_pixErode_of_zero _ (hhits ▸ zero_mem_brick hh hv),
      onPlane_pixDilate_of_subset _ (by rwa [hhits]), hhits, closing]
  · rw [if_neg hline]
    have hpasses := onPlane_erode_dilate pixsb (hits_row hsize) (hits_column vsize)
      (zero_mem_brick hh Nat.one_pos) (zero_mem_brick Nat.one_pos hv) (by rwa [brick_add])
    rw [brick_add] at hpasses
    exact hclosed _ hpasses.1 hpasses.2.1 hpasses.2.2

/-! ## In rectangles -/

/-- The rectangle of `hsize` by `vsize` places with its corner at `c`. -/
def block (hsize vsize : ℕ) (c : ℤ × ℤ) : Set (ℤ × ℤ) :=
  {p | (c.1 ≤ p.1 ∧ p.1 < c.1 + hsize) ∧ c.2 ≤ p.2 ∧ p.2 < c.2 + vsize}

/-- An opening by a brick, in terms of blocks: what lies in a block that is ON
throughout. -/
theorem opening_brick (S : Set (ℤ × ℤ)) (hsize vsize : ℕ) :
    opening S (brick hsize vsize) =
      {p | ∃ c, p ∈ block hsize vsize c ∧ block hsize vsize c ⊆ S} := by
  ext p
  rw [mem_opening]
  constructor
  · rintro ⟨t, ⟨hx, hy⟩, hfits⟩
    simp only [Prod.fst_sub, Prod.snd_sub] at hx hy
    refine ⟨⟨t.1 - (hsize / 2 : ℕ), t.2 - (vsize / 2 : ℕ)⟩, ?_, ?_⟩
    · simp only [block, Set.mem_ofPred_eq]
      omega
    · rintro q ⟨hqx, hqy⟩
      simp only at hqx hqy
      have hin := hfits (q - t) (by
        simp only [brick, Set.mem_ofPred_eq, Prod.fst_sub, Prod.snd_sub]
        omega)
      rwa [add_sub_cancel] at hin
  · rintro ⟨c, ⟨hx, hy⟩, hfits⟩
    refine ⟨⟨c.1 + (hsize / 2 : ℕ), c.2 + (vsize / 2 : ℕ)⟩, ?_, ?_⟩
    · simp only [brick, Set.mem_ofPred_eq, Prod.fst_sub, Prod.snd_sub]
      omega
    · rintro b ⟨hbx, hby⟩
      apply hfits
      simp only [block, Set.mem_ofPred_eq, Prod.fst_add, Prod.snd_add]
      omega

/-- A closing by a brick: what lies in no block that is OFF throughout. -/
theorem closing_brick (S : Set (ℤ × ℤ)) (hsize vsize : ℕ) :
    closing S (brick hsize vsize) =
      {p | ∀ c, p ∈ block hsize vsize c → ∃ q ∈ block hsize vsize c, q ∈ S} := by
  ext p
  rw [← not_iff_not, notMem_closing]
  simp only [Set.mem_ofPred_eq, not_forall, not_exists, not_and]
  constructor
  · rintro ⟨t, ⟨hx, hy⟩, hfree⟩
    simp only [Prod.fst_sub, Prod.snd_sub] at hx hy
    refine ⟨⟨t.1 + (hsize / 2 : ℕ) + 1 - hsize, t.2 + (vsize / 2 : ℕ) + 1 - vsize⟩, ?_, ?_⟩
    · simp only [block, Set.mem_ofPred_eq]
      omega
    · rintro q ⟨hqx, hqy⟩
      simp only at hqx hqy
      have hout := hfree (t - q) (by
        simp only [brick, Set.mem_ofPred_eq, Prod.fst_sub, Prod.snd_sub]
        omega)
      rwa [sub_sub_cancel] at hout
  · rintro ⟨c, ⟨hx, hy⟩, hfree⟩
    refine ⟨⟨c.1 - (hsize / 2 : ℕ) - 1 + hsize, c.2 - (vsize / 2 : ℕ) - 1 + vsize⟩, ?_, ?_⟩
    · simp only [brick, Set.mem_ofPred_eq, Prod.fst_sub, Prod.snd_sub]
      omega
    · rintro b ⟨hbx, hby⟩
      apply hfree
      simp only [block, Set.mem_ofPred_eq, Prod.fst_sub, Prod.snd_sub]
      omega

/-- **What the passes come to.**  An opening keeps the pixels of the
rectangles of its size that are ON throughout; a safe closing clears those of
no rectangle but the ones that are OFF throughout, wherever on the plane.  To
do either again changes nothing. -/
theorem brickMorph_blocks (hw : 0 < pixs.width) (hheight : 0 < pixs.height) (hh : 0 < hsize)
    (hv : 0 < vsize) :
    ∃ opened closed opened' closed', pixOpenBrick pixs hsize vsize = some opened ∧
      pixCloseSafeBrick pixs hsize vsize = some closed ∧
      onPlane opened =
        {p | ∃ c, p ∈ block hsize vsize c ∧ block hsize vsize c ⊆ onPlane pixs} ∧
      onPlane closed = {p | ∀ c, p ∈ block hsize vsize c →
        ∃ q ∈ block hsize vsize c, q ∈ onPlane pixs} ∧
      pixOpenBrick opened hsize vsize = some opened' ∧ onPlane opened' = onPlane opened ∧
      pixCloseSafeBrick closed hsize vsize = some closed' ∧ onPlane closed' = onPlane closed := by
  obtain ⟨opened, hopen, -, -, hon⟩ := onPlane_pixOpenBrick pixs hh hv
  obtain ⟨closed, hclose, hwc, hhc, hon'⟩ := onPlane_pixCloseSafeBrick pixs hw hheight hh hv
  obtain ⟨opened', hopen', -, -, hagain⟩ := onPlane_pixOpenBrick opened hh hv
  obtain ⟨closed', hclose', -, -, hagain'⟩ :=
    onPlane_pixCloseSafeBrick closed (by omega) (by omega) hh hv
  refine ⟨opened, closed, opened', closed', hopen, hclose, ?_, ?_, hopen', ?_, hclose', ?_⟩
  · rw [hon, opening_brick]
  · rw [hon', closing_brick]
  · rw [hagain, hon, opening_opening]
  · rw [hagain', hon', closing_closing]

end Bricks

/-- A bar of five by four pixels with a hole in it. -/
def barWithHole : Raster Bool :=
  ⟨7, 6, fun x y => x != 0 && x != 6 && y != 0 && y != 5 && !(x == 3 && y == 2)⟩

/-- Bricks of two by three pixels, which are a row and a column. -/
theorem brickMorph_blocks_bar :
    ∃ opened closed opened' closed', pixOpenBrick barWithHole 2 3 = some opened ∧
      pixCloseSafeBrick barWithHole 2 3 = some closed ∧
      onPlane opened = {p | ∃ c, p ∈ block 2 3 c ∧ block 2 3 c ⊆ onPlane barWithHole} ∧
      onPlane closed =
        {p | ∀ c, p ∈ block 2 3 c → ∃ q ∈ block 2 3 c, q ∈ onPlane barWithHole} ∧
      pixOpenBrick opened 2 3 = some opened' ∧ onPlane opened' = onPlane opened ∧
      pixCloseSafeBrick closed 2 3 = some closed' ∧ onPlane closed' = onPlane closed :=
  brickMorph_blocks _ (by decide) (by decide) (by decide) (by decide)

end CardScanner
