import CardScanner.ComponentFill
import CardScanner.Tiling

/-!
# The components of a picture

`pixConnCompBB` looks for the next ON pixel in raster order, clears its component and
notes the component's box; `pixConnCompPixa` cuts the component out as well, by comparing
the picture with what is left of it.  The blur detection takes the components of four
neighbours, the page segmentation those of eight.

The pixel that is found is the first one of its line that is left, as the fill of four
neighbours needs it.  So every component is found, once, with its own box and pixels
(`pixConnComp_components`).
-/

namespace CardScanner

open Components

/-- The positions from a place on, line by line. -/
def rasterFrom (width height xstart ystart : ℕ) : List (ℕ × ℕ) :=
  (List.range' xstart (width - xstart)).map (fun x => (x, ystart)) ++
    (List.range' (ystart + 1) (height - (ystart + 1))).flatMap
      fun y => (List.range width).map fun x => (x, y)

/-- The first ON pixel in raster order from a place on, that place included. -/
def nextOnPixelInRaster (pixs : Raster Bool) (xstart ystart : ℕ) : Option (ℕ × ℕ) :=
  (rasterFrom pixs.width pixs.height xstart ystart).find? fun q => pixs.pixel q.1 q.2

/-- `pixZero`: no pixel is ON. -/
def pixZero (pixs : Raster Bool) : Bool :=
  (List.range pixs.height).all fun y => (List.range pixs.width).all fun x => !pixs.pixel x y

/-- `pixXor` into the first picture. -/
def pixXor (pixs1 pixs2 : Raster Bool) : Raster Bool where
  width := pixs1.width
  height := pixs1.height
  pixel x y :=
    xor (pixs1.pixel x y) (decide (x < pixs2.width ∧ y < pixs2.height) && pixs2.pixel x y)

/-- `pixRasterop` of the whole second picture with `PIX_SRC ^ PIX_DST`, at a
place of the first. -/
def pixXorAt (pixd : Raster Bool) (left top : ℕ) (pixs : Raster Bool) : Raster Bool where
  width := pixd.width
  height := pixd.height
  pixel x y :=
    xor (pixd.pixel x y)
      (decide ((left ≤ x ∧ x < left + pixs.width) ∧ top ≤ y ∧ y < top + pixs.height) &&
        pixs.pixel (x - left) (y - top))

section Loops

variable (connectivity : Connectivity)

/-- The loop of `pixConnCompBB`; every turn clears a pixel. -/
def connCompBB : ℕ → Raster Bool → ℕ → ℕ → Option (List Box)
  | 0, _, _, _ => none
  | k + 1, pixt, xstart, ystart =>
      match nextOnPixelInRaster pixt xstart ystart with
      | none => some []
      | some (x, y) => do
          let (pixt, box) ← pixSeedfillBB pixt x y connectivity
          let boxa ← connCompBB k pixt x y
          some (box :: boxa)

/-- The loop of `pixConnCompPixa`: the boxes and what stands in them. -/
def connCompPixa : ℕ → Raster Bool → Raster Bool → ℕ → ℕ → Option (List (Box × Raster Bool))
  | 0, _, _, _, _ => none
  | k + 1, pixt1, pixt2, xstart, ystart =>
      match nextOnPixelInRaster pixt1 xstart ystart with
      | none => some []
      | some (x, y) => do
          let (pixt1, box) ← pixSeedfillBB pixt1 x y connectivity
          let pixt3 ← pixClipRectangle pixt1 box.x.toNat box.y.toNat box.w.toNat box.h.toNat
          let pixt4 ← pixClipRectangle pixt2 box.x.toNat box.y.toNat box.w.toNat box.h.toNat
          let pixt3 := pixXor pixt3 pixt4
          let pixt2 := pixXorAt pixt2 box.x.toNat box.y.toNat pixt3
          let pixa ← connCompPixa k pixt1 pixt2 x y
          some ((box, pixt3) :: pixa)

/-- `pixConnCompBB`: the boxes of the components. -/
def pixConnCompBB (pixs : Raster Bool) : Option (List Box) :=
  if pixZero pixs then some []
  else connCompBB connectivity (pixs.width * pixs.height + 1) pixs 0 0

/-- `pixConnCompPixa`: their boxes and their pixels. -/
def pixConnCompPixa (pixs : Raster Bool) : Option (List (Box × Raster Bool)) :=
  if pixZero pixs then some []
  else connCompPixa connectivity (pixs.width * pixs.height + 1) pixs pixs 0 0

end Loops

/-! ## The next pixel -/

/-- Raster order. -/
def RasterLt (p q : ℕ × ℕ) : Prop := p.2 < q.2 ∨ p.2 = q.2 ∧ p.1 < q.1

/-- The search looks at every place that is not before its start, in raster
order. -/
theorem mem_rasterFrom {width height xstart ystart : ℕ} (hystart : ystart < height) {q : ℕ × ℕ} :
    q ∈ rasterFrom width height xstart ystart ↔
      q.1 < width ∧ q.2 < height ∧ ¬ RasterLt q (xstart, ystart) := by
  obtain ⟨x, y⟩ := q
  simp only [rasterFrom, List.mem_append, List.mem_map, List.mem_range'_1, List.mem_flatMap,
    List.mem_range, Prod.mk.injEq, RasterLt]
  constructor
  · rintro (⟨x', hx, rfl, rfl⟩ | ⟨y', hy, x', hx, rfl, rfl⟩)
    · omega
    · omega
  · rintro ⟨hx, hy, hbehind⟩
    by_cases hline : y = ystart
    · exact Or.inl ⟨x, by omega, rfl, hline.symm⟩
    · exact Or.inr ⟨y, by omega, x, hx, rfl, rfl⟩

theorem pairwise_rasterFrom (width height xstart ystart : ℕ) :
    (rasterFrom width height xstart ystart).Pairwise RasterLt := by
  have hline : ∀ y, ((List.range width).map fun x => (x, y)).Pairwise RasterLt := fun y =>
    List.pairwise_map.mpr (List.pairwise_lt_range.imp fun hlt => Or.inr ⟨rfl, hlt⟩)
  unfold rasterFrom
  rw [List.pairwise_append]
  refine ⟨?_, ?_, ?_⟩
  · exact List.pairwise_map.mpr ((List.pairwise_lt_range' 1 (by omega)).imp fun hlt =>
      Or.inr ⟨rfl, hlt⟩)
  · rw [List.pairwise_flatMap]
    refine ⟨fun y _ => hline y, (List.pairwise_lt_range' 1 (by omega)).imp ?_⟩
    intro y y' hlt p hp q hq
    obtain ⟨x, _, rfl⟩ := List.mem_map.mp hp
    obtain ⟨x', _, rfl⟩ := List.mem_map.mp hq
    exact Or.inl hlt
  · intro p hp q hq
    obtain ⟨x, _, rfl⟩ := List.mem_map.mp hp
    obtain ⟨y, hy, hq⟩ := List.mem_flatMap.mp hq
    obtain ⟨x', _, rfl⟩ := List.mem_map.mp hq
    rw [List.mem_range'_1] at hy
    exact Or.inl hy.1

/-- If nothing is ON before the place where the search begins, it finds the
first ON pixel. -/
theorem nextOnPixelInRaster_some {pixs : Raster Bool} {xstart ystart : ℕ} {q : ℕ × ℕ}
    (hystart : ystart < pixs.height)
    (hbehind : ∀ p ∈ onPixels pixs, ¬ RasterLt p (xstart, ystart))
    (h : nextOnPixelInRaster pixs xstart ystart = some q) :
    q ∈ onPixels pixs ∧ ∀ p ∈ onPixels pixs, ¬ RasterLt p q := by
  obtain ⟨hon, before, after, hlist, hoff⟩ := List.find?_eq_some_iff_append.mp h
  have hmem : q ∈ rasterFrom pixs.width pixs.height xstart ystart := by
    rw [hlist]
    simp
  obtain ⟨hx, hy, -⟩ := (mem_rasterFrom hystart).mp hmem
  refine ⟨⟨hx, hy, hon⟩, fun p hp hlt => ?_⟩
  have hsorted := pairwise_rasterFrom pixs.width pixs.height xstart ystart
  have hin := (mem_rasterFrom hystart).mpr ⟨hp.1, hp.2.1, hbehind p hp⟩
  rw [hlist] at hin hsorted
  rcases List.mem_append.mp hin with hfound | hrest
  · have := hoff p hfound
    simp [hp.2.2] at this
  · rcases List.mem_cons.mp hrest with rfl | hafter
    · unfold RasterLt at hlt
      omega
    · have hgt := List.rel_of_pairwise_cons (List.pairwise_append.mp hsorted).2.1 hafter
      unfold RasterLt at hlt hgt
      omega

/-- When the search finds nothing, and there is nothing behind it, the picture
is empty and the loop is right to end. -/
theorem nextOnPixelInRaster_none {pixs : Raster Bool} {xstart ystart : ℕ}
    (hystart : ystart < pixs.height)
    (hbehind : ∀ p ∈ onPixels pixs, ¬ RasterLt p (xstart, ystart))
    (h : nextOnPixelInRaster pixs xstart ystart = none) : onPixels pixs = ∅ := by
  refine Set.eq_empty_of_forall_notMem fun p hp => ?_
  have hin := (mem_rasterFrom hystart).mpr ⟨hp.1, hp.2.1, hbehind p hp⟩
  exact List.find?_eq_none.mp h p hin hp.2.2

/-! ## One component -/

/-- A box and a mask show the component of a pixel, the first one of it. -/
structure ShowsComponent (reach : ℕ) (pixels : Set (ℕ × ℕ)) (seed : ℕ × ℕ) (box : Box)
    (mask : Raster Bool) : Prop where
  mem : seed ∈ pixels
  first : ∀ q ∈ component (Touching reach) pixels seed, ¬ RasterLt q seed
  bounding : BoundingBox box (component (Touching reach) pixels seed)
  width : (mask.width : ℤ) = box.w
  height : (mask.height : ℤ) = box.h
  shows : ∀ q, q ∈ component (Touching reach) pixels seed ↔
    ∃ p ∈ onPixels mask, (q.1 : ℤ) = box.x + p.1 ∧ (q.2 : ℤ) = box.y + p.2

/-- The picture's own rectangle is clipped as it is. -/
theorem pixel_clipRectangle {α : Type*} [Inhabited α] {pixs : Raster α} {left top w h : ℕ}
    (hw : 0 < w) (hh : 0 < h)
    (hright : left + w ≤ pixs.width) (hbottom : top + h ≤ pixs.height) :
    ∃ pixt, pixClipRectangle pixs left top w h = some pixt ∧ pixt.width = w ∧ pixt.height = h ∧
      ∀ x < w, ∀ y < h, pixt.pixel x y = pixs.pixel (left + x) (top + y) := by
  refine ⟨_, pixClipRectangle_inside hw hh hright hbottom, rfl, rfl, ?_⟩
  intro x hx y hy
  have hx' : left + x < pixs.width := by omega
  have hy' : top + y < pixs.height := by omega
  simp [Raster.blank, Raster.blit, hx, hy, hx', hy']

/-- What `pixXorAt` changes, by the ON pixels of the picture that is put
there. -/
theorem placed_iff {pixs : Raster Bool} {left top : ℕ} {q : ℕ × ℕ} :
    (decide ((left ≤ q.1 ∧ q.1 < left + pixs.width) ∧ top ≤ q.2 ∧ q.2 < top + pixs.height) &&
      pixs.pixel (q.1 - left) (q.2 - top)) = true ↔
      ∃ p ∈ onPixels pixs, q.1 = left + p.1 ∧ q.2 = top + p.2 := by
  rw [Bool.and_eq_true, decide_eq_true_eq]
  constructor
  · intro h
    obtain ⟨⟨⟨hx, hx'⟩, hy, hy'⟩, hpixel⟩ := h
    exact ⟨(q.1 - left, q.2 - top), ⟨by simp only; omega, by simp only; omega, hpixel⟩,
      by simp only; omega, by simp only; omega⟩
  · intro h
    obtain ⟨p, ⟨hpx, hpy, hpixel⟩, hx, hy⟩ := h
    have hx' : q.1 - left = p.1 := by omega
    have hy' : q.2 - top = p.2 := by omega
    exact ⟨by omega, by rw [hx', hy']; exact hpixel⟩

/-- Putting ON pixels over ON pixels takes them away. -/
theorem onPixels_pixXorAt {pixd pixs : Raster Bool} {left top : ℕ} {part : Set (ℕ × ℕ)}
    (hpart : part ⊆ onPixels pixd)
    (hshows : ∀ q, q ∈ part ↔ ∃ p ∈ onPixels pixs, q.1 = left + p.1 ∧ q.2 = top + p.2) :
    onPixels (pixXorAt pixd left top pixs) = onPixels pixd \ part := by
  ext q
  have hin : q ∈ part → q ∈ onPixels pixd := fun hq => hpart hq
  rw [Set.mem_sdiff, hshows q, ← placed_iff]
  rw [hshows q, ← placed_iff] at hin
  simp only [onPixels, pixXorAt, Set.mem_ofPred_eq] at hin ⊢
  grind

/-- A mask over the extent of a set shows the set if it does so position by
position. -/
theorem shows_of_pixel {mask : Raster Bool} {part : Set (ℕ × ℕ)} {minx maxx miny maxy : ℕ}
    (hwithin : ∀ q ∈ part, minx ≤ q.1 ∧ q.1 ≤ maxx ∧ miny ≤ q.2 ∧ q.2 ≤ maxy)
    (hwidth : mask.width = maxx + 1 - minx) (hheight : mask.height = maxy + 1 - miny)
    (hpixel : ∀ x < mask.width, ∀ y < mask.height,
      (mask.pixel x y = true ↔ (minx + x, miny + y) ∈ part)) (q : ℕ × ℕ) :
    q ∈ part ↔ ∃ p ∈ onPixels mask, q.1 = minx + p.1 ∧ q.2 = miny + p.2 := by
  constructor
  · intro hq
    obtain ⟨hq1, hq2, hq3, hq4⟩ := hwithin q hq
    have hq' : (minx + (q.1 - minx), miny + (q.2 - miny)) = q := by
      rw [Nat.add_sub_cancel' hq1, Nat.add_sub_cancel' hq3]
    have hx : q.1 - minx < mask.width := by omega
    have hy : q.2 - miny < mask.height := by omega
    exact ⟨(q.1 - minx, q.2 - miny), ⟨hx, hy, (hpixel _ hx _ hy).mpr (hq'.symm ▸ hq)⟩,
      by simp only; omega, by simp only; omega⟩
  · intro h
    obtain ⟨p, hp, hx, hy⟩ := h
    have hq := (hpixel p.1 hp.1 p.2 hp.2.1).mp hp.2.2
    rwa [← hx, ← hy] at hq

/-- What differs between a picture and the rest of it is cut out of a box
around it, and taken from the copy as well. -/
theorem cut_component {pixs rest copy : Raster Bool} {part : Set (ℕ × ℕ)}
    {minx maxx miny maxy : ℕ}
    (hwidth : rest.width = pixs.width) (hheight : rest.height = pixs.height)
    (hwidth' : copy.width = pixs.width) (hheight' : copy.height = pixs.height)
    (hcopy : onPixels copy = onPixels pixs) (hrest : onPixels rest = onPixels pixs \ part)
    (hpart : part ⊆ onPixels pixs) (hspans : Spans part minx maxx miny maxy) :
    ∃ pixt3 pixt4,
      pixClipRectangle rest minx miny (maxx + 1 - minx) (maxy + 1 - miny) = some pixt3 ∧
      pixClipRectangle copy minx miny (maxx + 1 - minx) (maxy + 1 - miny) = some pixt4 ∧
      (pixXor pixt3 pixt4).width = maxx + 1 - minx ∧
      (pixXor pixt3 pixt4).height = maxy + 1 - miny ∧
      (∀ q, q ∈ part ↔ ∃ p ∈ onPixels (pixXor pixt3 pixt4), q.1 = minx + p.1 ∧ q.2 = miny + p.2) ∧
      onPixels (pixXorAt copy minx miny (pixXor pixt3 pixt4)) = onPixels rest := by
  obtain ⟨⟨a, ha, hax⟩, hminx⟩ := hspans.left
  obtain ⟨⟨b, hb, hbx⟩, hmaxx⟩ := hspans.right
  obtain ⟨⟨c, hc, hcy⟩, hminy⟩ := hspans.top
  obtain ⟨⟨d, hd, hdy⟩, hmaxy⟩ := hspans.bottom
  have hwithin : ∀ q ∈ part, minx ≤ q.1 ∧ q.1 ≤ maxx ∧ miny ≤ q.2 ∧ q.2 ≤ maxy := fun q hq =>
    ⟨hminx ⟨q, hq, rfl⟩, hmaxx ⟨q, hq, rfl⟩, hminy ⟨q, hq, rfl⟩, hmaxy ⟨q, hq, rfl⟩⟩
  have hright : maxx < pixs.width := hbx ▸ (hpart hb).1
  have hbottom : maxy < pixs.height := hdy ▸ (hpart hd).2.1
  have hx := hwithin a ha
  obtain ⟨pixt3, hclip3, hw3, hh3, hpixel3⟩ := @pixel_clipRectangle _ _ rest minx miny
    (maxx + 1 - minx) (maxy + 1 - miny) (by omega) (by omega) (by omega) (by omega)
  obtain ⟨pixt4, hclip4, hw4, hh4, hpixel4⟩ := @pixel_clipRectangle _ _ copy minx miny
    (maxx + 1 - minx) (maxy + 1 - miny) (by omega) (by omega) (by omega) (by omega)
  have hmask : ∀ x < maxx + 1 - minx, ∀ y < maxy + 1 - miny,
      ((pixXor pixt3 pixt4).pixel x y = true ↔ (minx + x, miny + y) ∈ part) := by
    intro x hx y hy
    have hin : minx + x < pixs.width ∧ miny + y < pixs.height := by omega
    have hleft : (minx + x, miny + y) ∈ onPixels rest ↔ pixt3.pixel x y = true := by
      rw [hpixel3 x hx y hy, mem_onPixels, hwidth, hheight]
      simp [hin]
    have hall : (minx + x, miny + y) ∈ onPixels pixs ↔ pixt4.pixel x y = true := by
      rw [hpixel4 x hx y hy, ← hcopy, mem_onPixels, hwidth', hheight']
      simp [hin]
    rw [hrest, Set.mem_sdiff, hall] at hleft
    have hsub : (minx + x, miny + y) ∈ part → pixt4.pixel x y = true := fun hq =>
      hall.mp (hpart hq)
    simp only [pixXor, hw4, hh4, hx, hy, and_self, decide_true, Bool.true_and]
    cases h3 : pixt3.pixel x y <;> cases h4 : pixt4.pixel x y <;> simp_all
  have hshows := @shows_of_pixel (pixXor pixt3 pixt4) _ _ _ _ _ hwithin hw3 hh3 fun x hx y hy =>
    hmask x (hw3 ▸ hx) y (hh3 ▸ hy)
  refine ⟨pixt3, pixt4, hclip3, hclip4, hw3, hh3, hshows, ?_⟩
  rw [onPixels_pixXorAt (hcopy.symm ▸ hpart) hshows, hcopy, hrest]

/-! ## All components -/

/-- With four neighbours or eight, a run touches those at most one pixel
beyond its ends. -/
theorem Connectivity.reach_le (connectivity : Connectivity) : connectivity.reach ≤ 1 := by
  cases connectivity with
  | four => exact Nat.zero_le 1
  | eight => exact le_rfl

/-- What the loops find from a place on: for each component its first pixel,
its box and its mask, in raster order. -/
structure Finds (reach : ℕ) (pixels : Set (ℕ × ℕ))
    (found : List ((ℕ × ℕ) × Box × Raster Bool)) : Prop where
  peels : Peels (Touching reach) pixels (found.map (·.1))
  sorted : (found.map (·.1)).Pairwise RasterLt
  shows : ∀ f ∈ found, ShowsComponent reach pixels f.1 f.2.1 f.2.2

/-- The rest of the components is found in what one component leaves. -/
theorem Finds.cons {reach : ℕ} {pixels : Set (ℕ × ℕ)} {seed : ℕ × ℕ} {box : Box}
    {mask : Raster Bool} {found : List ((ℕ × ℕ) × Box × Raster Bool)}
    (hbefore : ∀ q ∈ pixels, ¬ RasterLt q seed) (h : ShowsComponent reach pixels seed box mask)
    (hrest : Finds reach (pixels \ component (Touching reach) pixels seed) found) :
    Finds reach pixels ((seed, box, mask) :: found) := by
  refine ⟨Peels.cons h.mem hrest.peels, List.pairwise_cons.mpr ⟨?_, hrest.sorted⟩, ?_⟩
  · intro q hq
    obtain ⟨f, hf, rfl⟩ := List.mem_map.mp hq
    obtain ⟨hmem, hout⟩ := (hrest.shows f hf).mem
    have hne : f.1 ≠ seed := fun heq => hout (heq.symm ▸ mem_component_self h.mem)
    have hpair : ¬ (f.1.1 = seed.1 ∧ f.1.2 = seed.2) := fun heq => hne (Prod.ext heq.1 heq.2)
    have hafter := hbefore f.1 hmem
    unfold RasterLt at hafter ⊢
    dsimp only
    omega
  · intro f hf
    rcases List.mem_cons.mp hf with rfl | hf
    · exact h
    · have hshows := hrest.shows f hf
      have hsame := component_diff (fun p q => Touching.symm p q) hshows.mem
      refine ⟨hshows.mem.1, ?_, hsame ▸ hshows.bounding, hshows.width, hshows.height, ?_⟩
      · exact hsame ▸ hshows.first
      · exact hsame ▸ hshows.shows

/-- **One turn** of the loops, at the first ON pixel: its component is
cleared, shown, and taken from the copy.  The pixels that are left are those
of the other components. -/
theorem connComp_turn (connectivity : Connectivity) {pixt1 pixt2 : Raster Bool} {x y : ℕ}
    (hwidth : pixt2.width = pixt1.width) (hheight : pixt2.height = pixt1.height)
    (hcopy : onPixels pixt2 = onPixels pixt1) (hseed : (x, y) ∈ onPixels pixt1)
    (hfirst : ∀ p ∈ onPixels pixt1, ¬ RasterLt p (x, y)) :
    ∃ rest box pixt3 pixt4, pixSeedfillBB pixt1 x y connectivity = some (rest, box) ∧
      pixClipRectangle rest box.x.toNat box.y.toNat box.w.toNat box.h.toNat = some pixt3 ∧
      pixClipRectangle pixt2 box.x.toNat box.y.toNat box.w.toNat box.h.toNat = some pixt4 ∧
      (rest.width = pixt1.width ∧ rest.height = pixt1.height) ∧
      onPixels rest = onPixels pixt1 \ pixelComponent connectivity.reach pixt1 (x, y) ∧
      onPixels (pixXorAt pixt2 box.x.toNat box.y.toNat (pixXor pixt3 pixt4)) = onPixels rest ∧
      ShowsComponent connectivity.reach (onPixels pixt1) (x, y) box (pixXor pixt3 pixt4) := by
  have hleft : ∀ x', x' + 1 = x → (x', y) ∉ onPixels pixt1 := fun x' hx' hon =>
    hfirst (x', y) hon (Or.inr ⟨rfl, by simp only; omega⟩)
  obtain ⟨rest, box, hfill, hw, hh, hon, hbox⟩ :=
    seedfillBB_component connectivity.reach_le hseed hleft
  have hbounding := hbox
  obtain ⟨minx, maxx, miny, maxy, hspans, rfl⟩ := hbox
  obtain ⟨pixt3, pixt4, hclip3, hclip4, hw3, hh3, hshows, hnext2⟩ :=
    cut_component hw hh hwidth hheight hcopy hon component_subset hspans
  obtain ⟨⟨a, ha, hax⟩, hminx⟩ := hspans.left
  obtain ⟨⟨c, hc, hcy⟩, hminy⟩ := hspans.top
  have hx : minx ≤ maxx := hax ▸ hspans.right.2 ⟨a, ha, rfl⟩
  have hy : miny ≤ maxy := hcy ▸ hspans.bottom.2 ⟨c, hc, rfl⟩
  have hextent : (maxx - minx + 1 : ℤ).toNat = maxx + 1 - minx ∧
      (maxy - miny + 1 : ℤ).toNat = maxy + 1 - miny := by omega
  refine ⟨rest, _, pixt3, pixt4, (pixSeedfillBB_eq ..).trans hfill, ?_, ?_, ⟨hw, hh⟩, hon, ?_,
    hseed, fun q hq => hfirst q (component_subset hq), hbounding, ?_, ?_, ?_⟩
  · simpa only [Int.toNat_natCast, hextent] using hclip3
  · simpa only [Int.toNat_natCast, hextent] using hclip4
  · simpa only [Int.toNat_natCast] using hnext2
  · simp only [hw3]
    omega
  · simp only [hh3]
    omega
  · intro q
    rw [hshows q]
    refine exists_congr fun p => and_congr_right fun _ => ?_
    simp only
    omega

/-- **The loops.**  They end, since each turn clears a pixel, and find every
component: a turn finds one and leaves the pixels of the others. -/
theorem connComp_spec (connectivity : Connectivity) {k : ℕ} {pixt1 pixt2 : Raster Bool}
    {xstart ystart : ℕ} (hk : onCount pixt1 < k) (hwidth : pixt2.width = pixt1.width)
    (hheight : pixt2.height = pixt1.height) (hcopy : onPixels pixt2 = onPixels pixt1)
    (hystart : ystart < pixt1.height)
    (hbehind : ∀ p ∈ onPixels pixt1, ¬ RasterLt p (xstart, ystart)) :
    ∃ found, Finds connectivity.reach (onPixels pixt1) found ∧
      connCompPixa connectivity k pixt1 pixt2 xstart ystart = some (found.map (·.2)) ∧
      connCompBB connectivity k pixt1 xstart ystart = some (found.map (·.2.1)) := by
  induction k generalizing pixt1 pixt2 xstart ystart with
  | zero => exact absurd hk (Nat.not_lt_zero _)
  | succ k ih =>
      unfold connCompPixa connCompBB
      cases hnext : nextOnPixelInRaster pixt1 xstart ystart with
      | none =>
          have hempty := nextOnPixelInRaster_none hystart hbehind hnext
          exact ⟨[], ⟨hempty ▸ Peels.nil, List.Pairwise.nil, by simp⟩, rfl, rfl⟩
      | some q =>
          obtain ⟨x, y⟩ := q
          obtain ⟨hseed, hfirst⟩ := nextOnPixelInRaster_some hystart hbehind hnext
          obtain ⟨rest, box, pixt3, pixt4, hfill, hclip3, hclip4, ⟨hw, hh⟩, hon, hnext2, hshows⟩ :=
            connComp_turn connectivity hwidth hheight hcopy hseed hfirst
          have hcount : onCount rest < onCount pixt1 := by
            refine onCount_lt (hon ▸ Set.sdiff_subset) hseed ?_
            exact hon ▸ fun hin => hin.2 (mem_component_self hseed)
          obtain ⟨found, hfinds, hpixa, hboxa⟩ := @ih rest
            (pixXorAt pixt2 box.x.toNat box.y.toNat (pixXor pixt3 pixt4)) x y (by omega)
            (hwidth.trans hw.symm) (hheight.trans hh.symm) hnext2
            (hh ▸ hseed.2.1) (fun p hp => hfirst p (Set.sdiff_subset (hon ▸ hp)))
          refine ⟨((x, y), box, pixXor pixt3 pixt4) :: found,
            (hon ▸ hfinds).cons hfirst hshows, ?_, ?_⟩
          · simp only [hfill, Option.bind_eq_bind, Option.bind_some, hclip3, hclip4, hpixa,
              List.map_cons]
          · simp only [hfill, Option.bind_eq_bind, Option.bind_some, hboxa, List.map_cons]

theorem pixZero_iff {pixs : Raster Bool} : pixZero pixs = true ↔ onPixels pixs = ∅ := by
  simp only [pixZero, List.all_eq_true, List.mem_range, Set.eq_empty_iff_forall_notMem]
  constructor
  · intro h q hq
    have hoff := h q.2 hq.2.1 q.1 hq.1
    simp [hq.2.2] at hoff
  · intro h y hy x hx
    by_contra hon
    exact h (x, y) ⟨hx, hy, by simpa using hon⟩

/-- Both functions find the same components; the one keeps their boxes and the
other their pixels too. -/
theorem pixConnComp_finds (connectivity : Connectivity) (pixs : Raster Bool) :
    ∃ found, Finds connectivity.reach (onPixels pixs) found ∧
      pixConnCompPixa connectivity pixs = some (found.map (·.2)) ∧
      pixConnCompBB connectivity pixs = some (found.map (·.2.1)) := by
  unfold pixConnCompPixa pixConnCompBB
  by_cases hzero : pixZero pixs = true
  · have hempty := pixZero_iff.mp hzero
    rw [if_pos hzero, if_pos hzero]
    exact ⟨[], ⟨hempty ▸ Peels.nil, List.Pairwise.nil, by simp⟩, rfl, rfl⟩
  · rw [if_neg hzero, if_neg hzero]
    obtain ⟨q, hq⟩ : (onPixels pixs).Nonempty :=
      Set.nonempty_iff_ne_empty.mpr fun hempty => hzero (pixZero_iff.mpr hempty)
    have hcount := onCount_le pixs
    exact @connComp_spec connectivity (pixs.width * pixs.height + 1) pixs pixs 0 0 (by omega)
      rfl rfl rfl (Nat.zero_lt_of_lt hq.2.1) (fun p _ hlt => by unfold RasterLt at hlt; omega)

/-- **The components of a picture.**  `pixConnCompPixa` and `pixConnCompBB`
always have a result: in raster order of their first pixels, the box and the
pixels of every component, and each ON pixel is in exactly one of them. -/
theorem pixConnComp_components (connectivity : Connectivity) (pixs : Raster Bool) :
    ∃ found : List ((ℕ × ℕ) × Box × Raster Bool),
      pixConnCompPixa connectivity pixs = some (found.map (·.2)) ∧
      pixConnCompBB connectivity pixs = some (found.map (·.2.1)) ∧
      (found.map (·.1)).Pairwise RasterLt ∧
      (∀ f ∈ found, ShowsComponent connectivity.reach (onPixels pixs) f.1 f.2.1 f.2.2) ∧
      ∀ q ∈ onPixels pixs, ∃! seed, seed ∈ found.map (·.1) ∧
        q ∈ pixelComponent connectivity.reach pixs seed := by
  obtain ⟨found, hfinds, hpixa, hboxa⟩ := pixConnComp_finds connectivity pixs
  exact ⟨found, hpixa, hboxa, hfinds.sorted, hfinds.shows,
    (hfinds.peels.partition fun p q => Touching.symm p q).2⟩

-- A fill of four neighbours from another pixel of the line may leave pixels behind.
example : (pixSeedfill4BB ⟨2, 2, fun x y => x == 0 || y == 0⟩ 1 0).map
    (fun filled => filled.1.pixel 0 1) = some true := by decide

end CardScanner
