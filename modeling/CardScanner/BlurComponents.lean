import CardScanner.BlurIndicator
import CardScanner.BlockFilter
import CardScanner.ConnComp
import Mathlib.Algebra.BigOperators.Group.Finset.Piecewise

/-!
# The components of a blur value

`makeBlurIndicator` splits the edges of a picture into components, cuts the blur measure
out around each of them and averages it under the component's mask.  The cut and the mask
undo each other: what is averaged are the measured pixels of the component, wherever it is
in the picture (`measureComponent_spec`).  So the blur value is told by the connected
parts of the edges alone (`makeBlurIndicator_page`), and it stays between the measures.
-/

namespace CardScanner

open Components Medians

/-- A picture of a `Pixa`, as one of the extent `width` by `height`. -/
def pixaPix {α : Type*} (pix : Raster α) (width height : ℕ) : Pix α width height :=
  ⟨fun x y => pix.pixel x y⟩

/-- `pixaCreateFromBoxa` and the loop over it, for one component; both
pictures have the extent of its box. -/
def measureComponent (blurMeasure : Raster UInt8) (component : Box × Raster Bool) :
    Option EdgeComponent :=
  let (box, pixEdgeMask) := component
  (pixClipRectangle blurMeasure box.x.toNat box.y.toNat box.w.toNat box.h.toNat).bind
    fun pixBlurComp =>
      if h : 0 < pixEdgeMask.width ∧ 0 < pixEdgeMask.height then
        some (edgeComponent (pixaPix pixBlurComp pixEdgeMask.width pixEdgeMask.height)
          (pixaPix pixEdgeMask pixEdgeMask.width pixEdgeMask.height) h.1 h.2)
      else none

/-- `makeBlurIndicator`, from the blur mask to the components. -/
def blurComponents (blurMeasure : Raster UInt8) (pixBinaryEdges : Raster Bool) :
    Option (List EdgeComponent) :=
  (pixConnCompPixa .four (pixInvert pixBinaryEdges)).bind fun componentEdgeMask =>
    componentEdgeMask.mapM (measureComponent blurMeasure)

/-! ## Averages -/

section Average

open Finset

variable {width height : ℕ} (pixs : Pix UInt8 width height) (pixm : Pix Bool width height)

/-- The positions that the average counts. -/
def masked : Finset (ℕ × ℕ) :=
  (range width ×ˢ range height).filter fun p =>
    pixGetPixel pixm p.1 p.2 = true ∧ 0 < (grayAt pixs p.1 p.2).toNat

/-- The inner loop of the average adds, for each measured pixel under the
mask, its value to the sum and one to the count.  By induction on the number
of columns. -/
theorem foldl_addMasked (i : ℕ) (s : ℕ × ℕ) (k : ℕ) :
    (List.range k).foldl (addMasked pixs pixm i) s =
      (s.1 + ∑ j ∈ range k, if pixGetPixel pixm j i = true ∧ 0 < (grayAt pixs j i).toNat then
          (grayAt pixs j i).toNat else 0,
        s.2 + ∑ j ∈ range k, if pixGetPixel pixm j i = true ∧ 0 < (grayAt pixs j i).toNat then
          1 else 0) := by
  induction k with
  | zero => rfl
  | succ k ih =>
      rw [List.range_succ, List.foldl_append, ih, List.foldl_cons, List.foldl_nil,
        sum_range_succ, sum_range_succ, addMasked]
      grind

/-- The average is that of the counted positions, and 0 where there is none. -/
theorem pixGetAverageMasked_eq :
    pixGetAverageMasked pixs pixm =
      (∑ p ∈ masked pixs pixm, ((grayAt pixs p.1 p.2).toNat : ℚ)) / (masked pixs pixm).card := by
  have hrows : ∀ k, (List.range k).foldl
      (fun s i => (List.range width).foldl (addMasked pixs pixm i) s) (0, 0) =
      (∑ i ∈ range k, ∑ j ∈ range width,
        if pixGetPixel pixm j i = true ∧ 0 < (grayAt pixs j i).toNat then
          (grayAt pixs j i).toNat else 0,
        ∑ i ∈ range k, ∑ j ∈ range width,
        if pixGetPixel pixm j i = true ∧ 0 < (grayAt pixs j i).toNat then 1 else 0) := by
    intro k
    induction k with
    | zero => rfl
    | succ k ih =>
        rw [List.range_succ, List.foldl_append, ih, List.foldl_cons, List.foldl_nil,
          foldl_addMasked, sum_range_succ, sum_range_succ]
  have hsum : ∑ i ∈ range height, ∑ j ∈ range width,
      (if pixGetPixel pixm j i = true ∧ 0 < (grayAt pixs j i).toNat then
        (grayAt pixs j i).toNat else 0) =
      ∑ p ∈ masked pixs pixm, (grayAt pixs p.1 p.2).toNat := by
    rw [masked, sum_filter, sum_product_right]
  have hcard : ∑ i ∈ range height, ∑ j ∈ range width,
      (if pixGetPixel pixm j i = true ∧ 0 < (grayAt pixs j i).toNat then 1 else 0) =
      (masked pixs pixm).card := by
    rw [masked, card_filter, sum_product_right]
  unfold pixGetAverageMasked
  rw [hrows, hsum, hcard]
  simp only
  split_ifs with hzero
  · rw [hzero, Nat.cast_zero, div_zero]
  · push_cast
    rfl

end Average

theorem get_pixaPix {α : Type*} {pix : Raster α} {w h x y : ℕ} (hx : x < w) (hy : y < h) :
    (pixaPix pix w h).get x y = some (pix.pixel x y) := dif_pos ⟨hx, hy⟩

/-! ## Components -/

section Component

open Finset

/-- The measured pixels of a part of the picture. -/
noncomputable def measured (blurMeasure : Raster UInt8) (part : Set (ℕ × ℕ)) : Finset (ℕ × ℕ) :=
  open Classical in
  (range blurMeasure.width ×ˢ range blurMeasure.height).filter fun q =>
    q ∈ part ∧ 0 < (blurMeasure.pixel q.1 q.2).toNat

/-- The measured pixels of a part: those in it to which the measure gives a
value that is not zero. -/
theorem mem_measured {blurMeasure : Raster UInt8} {part : Set (ℕ × ℕ)} {q : ℕ × ℕ} :
    q ∈ measured blurMeasure part ↔ (q.1 < blurMeasure.width ∧ q.2 < blurMeasure.height) ∧
      q ∈ part ∧ 0 < (blurMeasure.pixel q.1 q.2).toNat := by
  simp [measured]

/-- The place of a position of a picture that is cut out. -/
def placeAt (left top : ℕ) : ℕ × ℕ ↪ ℕ × ℕ where
  toFun p := (left + p.1, top + p.2)
  inj' p p' hsame := by
    obtain ⟨hx, hy⟩ := Prod.mk.injEq .. ▸ hsame
    exact Prod.ext (Nat.add_left_cancel hx) (Nat.add_left_cancel hy)

@[simp] theorem placeAt_apply (left top : ℕ) (p : ℕ × ℕ) :
    placeAt left top p = (left + p.1, top + p.2) := rfl

section Cut

variable {blurMeasure pixt : Raster UInt8} {mask : Raster Bool} {part : Set (ℕ × ℕ)}
  {left top : ℕ}

/-- What is counted in a picture cut out under a mask that shows a part of the
picture. -/
theorem measured_eq_map
    (hshows : ∀ q, q ∈ part ↔ ∃ p ∈ onPixels mask, q.1 = left + p.1 ∧ q.2 = top + p.2)
    (hright : left + mask.width ≤ blurMeasure.width)
    (hbottom : top + mask.height ≤ blurMeasure.height)
    (hpixel : ∀ x < mask.width, ∀ y < mask.height,
      pixt.pixel x y = blurMeasure.pixel (left + x) (top + y)) :
    measured blurMeasure part = (masked (pixaPix pixt mask.width mask.height)
      (pixaPix mask mask.width mask.height)).map (placeAt left top) := by
  ext q
  simp only [mem_measured, mem_map, masked, mem_filter, mem_product, mem_range,
    placeAt_apply]
  constructor
  · intro hq
    obtain ⟨-, hpart, hpos⟩ := hq
    obtain ⟨p, ⟨hpx, hpy, hon⟩, hqx, hqy⟩ := (hshows q).mp hpart
    refine ⟨p, ⟨⟨hpx, hpy⟩, ?_, ?_⟩, Prod.ext hqx.symm hqy.symm⟩
    · rw [pixGetPixel, get_pixaPix hpx hpy]
      exact hon
    · rw [grayAt, get_pixaPix hpx hpy, Option.getD_some, hpixel p.1 hpx p.2 hpy, ← hqx, ← hqy]
      exact hpos
  · intro hp
    obtain ⟨p, ⟨⟨hpx, hpy⟩, hon, hpos⟩, rfl⟩ := hp
    rw [pixGetPixel, get_pixaPix hpx hpy, Option.getD_some] at hon
    rw [grayAt, get_pixaPix hpx hpy, Option.getD_some, hpixel p.1 hpx p.2 hpy] at hpos
    exact ⟨⟨by simp only; omega, by simp only; omega⟩,
      (hshows _).mpr ⟨p, ⟨hpx, hpy, hon⟩, rfl, rfl⟩, hpos⟩

/-- The average under the mask of a cut-out part is the one over the measured
pixels of the part in the whole picture.  What is counted in the small picture
is counted in the large one, shifted by the corner of the box. -/
theorem average_measured
    (hshows : ∀ q, q ∈ part ↔ ∃ p ∈ onPixels mask, q.1 = left + p.1 ∧ q.2 = top + p.2)
    (hright : left + mask.width ≤ blurMeasure.width)
    (hbottom : top + mask.height ≤ blurMeasure.height)
    (hpixel : ∀ x < mask.width, ∀ y < mask.height,
      pixt.pixel x y = blurMeasure.pixel (left + x) (top + y)) :
    pixGetAverageMasked (pixaPix pixt mask.width mask.height)
        (pixaPix mask mask.width mask.height) =
      (∑ q ∈ measured blurMeasure part, ((blurMeasure.pixel q.1 q.2).toNat : ℚ)) /
        (measured blurMeasure part).card := by
  rw [pixGetAverageMasked_eq, measured_eq_map hshows hright hbottom hpixel, sum_map, card_map]
  congr 1
  refine sum_congr rfl fun p hp => ?_
  obtain ⟨hpx, hpy⟩ := mem_product.mp (mem_filter.mp hp).1
  rw [mem_range] at hpx hpy
  rw [grayAt, get_pixaPix hpx hpy, Option.getD_some, hpixel p.1 hpx p.2 hpy]
  rfl

end Cut

/-- What `makeBlurIndicator` knows of a connected part of the edges: how far
it extends, and the average of its measured pixels, 0 if there is none. -/
structure Measures (blurMeasure : Raster UInt8) (part : Set (ℕ × ℕ)) (comp : EdgeComponent) :
    Prop where
  extent : ∃ minx maxx miny maxy, Spans part minx maxx miny maxy ∧ minx + comp.w = maxx + 1 ∧
    miny + comp.h = maxy + 1
  mean : comp.mean = (∑ q ∈ measured blurMeasure part, ((blurMeasure.pixel q.1 q.2).toNat : ℚ)) /
    (measured blurMeasure part).card

/-- **One component.**  Its pixels are counted wherever it is: the picture
that is cut out for it has the component's pixels under the mask, and what
else lies in its box is taken out by the xor. -/
theorem measureComponent_spec {blurMeasure : Raster UInt8} {reach : ℕ} {pixels : Set (ℕ × ℕ)}
    {seed : ℕ × ℕ} {box : Box} {mask : Raster Bool} (h : ShowsComponent reach pixels seed box mask)
    (hin : ∀ q ∈ pixels, q.1 < blurMeasure.width ∧ q.2 < blurMeasure.height) :
    ∃ comp, measureComponent blurMeasure (box, mask) = some comp ∧
      Measures blurMeasure (component (Touching reach) pixels seed) comp := by
  obtain ⟨minx, maxx, miny, maxy, hspans, rfl⟩ := h.bounding
  have hwidth := h.width
  have hheight := h.height
  have hshows := h.shows
  have hinside : ∀ q ∈ component (Touching reach) pixels seed,
      q.1 < blurMeasure.width ∧ q.2 < blurMeasure.height :=
    fun q hq => hin q (component_subset hq)
  generalize component (Touching reach) pixels seed = part at hspans hshows hinside ⊢
  obtain ⟨⟨a, ha, hax⟩, hminx⟩ := hspans.left
  obtain ⟨⟨b, hb, hbx⟩, hmaxx⟩ := hspans.right
  obtain ⟨⟨c, hc, hcy⟩, hminy⟩ := hspans.top
  obtain ⟨⟨d, hd, hdy⟩, hmaxy⟩ := hspans.bottom
  have hx : minx ≤ maxx := hminx ⟨b, hb, hbx⟩
  have hy : miny ≤ maxy := hminy ⟨d, hd, hdy⟩
  have hright : maxx < blurMeasure.width := hbx ▸ (hinside b hb).1
  have hbottom : maxy < blurMeasure.height := hdy ▸ (hinside d hd).2
  simp only at hwidth hheight hshows
  have hw : mask.width = maxx + 1 - minx := by omega
  have hh : mask.height = maxy + 1 - miny := by omega
  obtain ⟨pixt, hclip, -, -, hpixel⟩ := @pixel_clipRectangle _ _ blurMeasure minx miny mask.width
    mask.height (by omega) (by omega) (by omega) (by omega)
  have hbox : (maxx - minx + 1 : ℤ).toNat = mask.width ∧ (maxy - miny + 1 : ℤ).toNat =
      mask.height := by omega
  refine ⟨edgeComponent (pixaPix pixt mask.width mask.height)
    (pixaPix mask mask.width mask.height) (by omega) (by omega), ?_, ?_, ?_⟩
  · unfold measureComponent
    simp only [Int.toNat_natCast, hbox, hclip, Option.bind_some]
    exact dif_pos ⟨by omega, by omega⟩
  · exact ⟨minx, maxx, miny, maxy, hspans, by simp only [edgeComponent]; omega,
      by simp only [edgeComponent]; omega⟩
  · exact average_measured (fun q => (hshows q).trans <| exists_congr fun p =>
      and_congr_right fun _ => by omega) (by omega) (by omega) hpixel

/-- The mean of measures between two bounds lies between them, if there is a
measure at all. -/
theorem Measures.mean_mem {blurMeasure : Raster UInt8} {part : Set (ℕ × ℕ)} {comp : EdgeComponent}
    (h : Measures blurMeasure part comp) (hne : (measured blurMeasure part).Nonempty) {lo hi : ℕ}
    (hvalue : ∀ q ∈ measured blurMeasure part, lo ≤ (blurMeasure.pixel q.1 q.2).toNat ∧
      (blurMeasure.pixel q.1 q.2).toNat ≤ hi) : lo ≤ comp.mean ∧ comp.mean ≤ hi := by
  have hcard : (0 : ℚ) < (measured blurMeasure part).card := by exact_mod_cast hne.card_pos
  have hlow := card_nsmul_le_sum (measured blurMeasure part)
    (fun q => ((blurMeasure.pixel q.1 q.2).toNat : ℚ)) lo
    fun q hq => by exact_mod_cast (hvalue q hq).1
  have hhigh := sum_le_card_nsmul (measured blurMeasure part)
    (fun q => ((blurMeasure.pixel q.1 q.2).toNat : ℚ)) hi
    fun q hq => by exact_mod_cast (hvalue q hq).2
  rw [nsmul_eq_mul, mul_comm] at hlow hhigh
  rw [h.mean, le_div_iff₀ hcard, div_le_iff₀ hcard]
  exact ⟨hlow, hhigh⟩

end Component

/-! ## The page -/

/-- A loop over a list in which every turn has a result. -/
theorem exists_mapM {α β : Type*} {f : α → Option β} {R : α → β → Prop} {l : List α}
    (h : ∀ a ∈ l, ∃ b, f a = some b ∧ R a b) : ∃ bs, l.mapM f = some bs ∧ List.Forall₂ R l bs := by
  induction l with
  | nil => exact ⟨[], rfl, List.Forall₂.nil⟩
  | cons a l ih =>
      obtain ⟨b, hb, hR⟩ := h a List.mem_cons_self
      obtain ⟨bs, hbs, hall⟩ := ih fun a' ha' => h a' (List.mem_cons_of_mem a ha')
      exact ⟨b :: bs, by simp [List.mapM_cons, hb, hbs], List.Forall₂.cons hR hall⟩

/-- What a successful loop has returned was computed from one of its elements. -/
theorem exists_left_of_mem {α β : Type*} {R : α → β → Prop} {l : List α} {bs : List β}
    (h : List.Forall₂ R l bs) {b : β} (hb : b ∈ bs) : ∃ a ∈ l, R a b := by
  induction h with
  | nil => cases hb
  | @cons a b' l bs hR _ ih =>
      rcases List.mem_cons.mp hb with rfl | hb
      · exact ⟨a, List.mem_cons_self, hR⟩
      · obtain ⟨a', ha', hR'⟩ := ih hb
        exact ⟨a', List.mem_cons_of_mem a ha', hR'⟩

/-- What a blur value is made of, by the first pixels of the connected parts
of the edges, and where it lies. -/
structure BlurOf (blurMeasure : Raster UInt8) (edges : Set (ℕ × ℕ)) (seeds : List (ℕ × ℕ))
    (comps : List EdgeComponent) : Prop where
  sorted : seeds.Pairwise RasterLt
  partition : ∀ q ∈ edges, ∃! seed, seed ∈ seeds ∧ q ∈ component (Touching 0) edges seed
  measures : List.Forall₂ (fun seed comp =>
    Measures blurMeasure (component (Touching 0) edges seed) comp) seeds comps
  /-- There is none if the parts fall into tall ones and wide ones of one number. -/
  reported : comps ≠ [] →
    ((makeBlurIndicator comps).isSome ↔ ¬ Opposed EdgeComponent.w EdgeComponent.h comps)
  between : ∀ lo hi : ℕ,
    (∀ seed ∈ seeds, (measured blurMeasure (component (Touching 0) edges seed)).Nonempty) →
    (∀ q ∈ edges, 0 < (blurMeasure.pixel q.1 q.2).toNat →
      lo ≤ (blurMeasure.pixel q.1 q.2).toNat ∧ (blurMeasure.pixel q.1 q.2).toNat ≤ hi) →
    ∀ v, makeBlurIndicator comps = some v → (lo : ℚ) / 256 ≤ v ∧ v ≤ (hi : ℚ) / 256

/-- **The blur value of a picture.**  From a blur mask and edges of one extent
there are always components; they are the connected parts of the edges, each
with the average of its own measured pixels, and the value lies between the
measures. -/
theorem makeBlurIndicator_page (blurMeasure : Raster UInt8) (pixBinaryEdges : Raster Bool)
    (hwidth : pixBinaryEdges.width = blurMeasure.width)
    (hheight : pixBinaryEdges.height = blurMeasure.height) :
    ∃ seeds comps, blurComponents blurMeasure pixBinaryEdges = some comps ∧
      BlurOf blurMeasure (onPixels (pixInvert pixBinaryEdges)) seeds comps := by
  obtain ⟨found, hfinds, hpixa, -⟩ := pixConnComp_finds .four (pixInvert pixBinaryEdges)
  have hin : ∀ q ∈ onPixels (pixInvert pixBinaryEdges),
      q.1 < blurMeasure.width ∧ q.2 < blurMeasure.height := fun q hq =>
    ⟨hwidth ▸ hq.1, hheight ▸ hq.2.1⟩
  generalize hedges : onPixels (pixInvert pixBinaryEdges) = edges at hfinds hin ⊢
  obtain ⟨comps, hcomps, hall⟩ := exists_mapM fun f hf =>
    measureComponent_spec (hfinds.shows f hf) hin
  have hmeasures : List.Forall₂ (fun seed comp =>
      Measures blurMeasure (component (Touching 0) edges seed) comp) (found.map (·.1)) comps :=
    List.forall₂_map_left_iff.mpr hall
  refine ⟨found.map (·.1), comps, ?_, hfinds.sorted,
    (hfinds.peels.partition fun p q => Touching.symm p q).2, hmeasures,
    isSome_makeBlurIndicator_iff, ?_⟩
  · rw [blurComponents, hpixa, Option.bind_some, List.mapM_map]
    exact hcomps
  · intro lo hi hne hvalue v hv
    have hmean : ∀ c ∈ comps, lo ≤ c.mean ∧ c.mean ≤ hi := by
      intro c hc
      obtain ⟨seed, hseed, hmeasure⟩ := exists_left_of_mem hmeasures hc
      refine hmeasure.mean_mem (hne seed hseed) fun q hq => ?_
      obtain ⟨-, hpart, hpos⟩ := mem_measured.mp hq
      exact hvalue q (component_subset hpart) hpos
    have hkept : keptComponents comps ≠ [] := by
      intro hnil
      rw [makeBlurIndicator_of_nil hnil] at hv
      cases hv
    obtain ⟨v', hv', hbetween⟩ := exists_makeBlurIndicator hkept hmean
    obtain rfl : v' = v := Option.some.inj (hv'.symm.trans hv)
    exact hbetween

/-- Two edge pixels on a diagonal, which are two components for four
neighbours. -/
theorem makeBlurIndicator_page_diagonal :
    ∃ seeds comps, blurComponents ⟨2, 2, fun _ _ => 100⟩ ⟨2, 2, fun x y => x != y⟩ = some comps ∧
      BlurOf ⟨2, 2, fun _ _ => 100⟩ (onPixels (pixInvert ⟨2, 2, fun x y => x != y⟩)) seeds comps :=
  makeBlurIndicator_page ⟨2, 2, fun _ _ => 100⟩ ⟨2, 2, fun x y => x != y⟩ rfl rfl

end CardScanner
