import Mathlib.Data.List.Induction
import Mathlib.Tactic.SplitIfs

/-!
# Pictures and rectangle copies

A picture is its extent and its pixels; what lies outside the extent is of no
meaning.  All painting is by one operation, the copy of a rectangle from one picture
into another, cut to what both hold (`blit`).  A loop that paints many rectangles,
no pixel twice with different values, gives each pixel the value that the rectangle
over it has (`pixel_foldl`).
-/

/-- A picture, by column and row. -/
structure Raster (α : Type*) where
  width : ℕ
  height : ℕ
  pixel : ℕ → ℕ → α

namespace Raster

variable {α β : Type*}

/-- A picture of one value. -/
def blank (value : α) (width height : ℕ) : Raster α := ⟨width, height, fun _ _ => value⟩

/-- The rectangle of `w` times `h` pixels at `(dx, dy)` becomes the one of
`source` at `(sx, sy)`, as far as both pictures reach. -/
def blit (dest : Raster α) (dx dy w h : ℕ) (source : Raster α) (sx sy : ℕ) : Raster α where
  width := dest.width
  height := dest.height
  pixel x y :=
    if (dx ≤ x ∧ x < dx + w ∧ x < dest.width ∧ sx + (x - dx) < source.width) ∧
        dy ≤ y ∧ y < dy + h ∧ y < dest.height ∧ sy + (y - dy) < source.height then
      source.pixel (sx + (x - dx)) (sy + (y - dy))
    else dest.pixel x y

@[simp] theorem width_blit (dest : Raster α) (dx dy w h : ℕ) (source : Raster α) (sx sy : ℕ) :
    (dest.blit dx dy w h source sx sy).width = dest.width := rfl

@[simp] theorem height_blit (dest : Raster α) (dx dy w h : ℕ) (source : Raster α) (sx sy : ℕ) :
    (dest.blit dx dy w h source sx sy).height = dest.height := rfl

theorem pixel_blit_outside {dest source : Raster α} {dx dy w h sx sy x y : ℕ}
    (hout : x < dx ∨ dx + w ≤ x ∨ y < dy ∨ dy + h ≤ y) :
    (dest.blit dx dy w h source sx sy).pixel x y = dest.pixel x y :=
  if_neg (by omega)

/-- In the block are the pixels of the source, as far as both pictures go. -/
theorem pixel_blit_inside {dest source : Raster α} {dx dy w h sx sy x y : ℕ}
    (hx : dx ≤ x ∧ x < dx + w ∧ x < dest.width ∧ sx + (x - dx) < source.width)
    (hy : dy ≤ y ∧ y < dy + h ∧ y < dest.height ∧ sy + (y - dy) < source.height) :
    (dest.blit dx dy w h source sx sy).pixel x y =
      source.pixel (sx + (x - dx)) (sy + (y - dy)) :=
  if_pos ⟨hx, hy⟩

/-- A copy depends on the copied rectangle only. -/
theorem blit_congr {source source' : Raster α} (hwidth : source.width = source'.width)
    (hheight : source.height = source'.height) {w h sx sy : ℕ}
    (hagree : ∀ x y, sx ≤ x → sy ≤ y → x < sx + w → y < sy + h →
      source.pixel x y = source'.pixel x y) (dest : Raster α) (dx dy : ℕ) :
    dest.blit dx dy w h source sx sy = dest.blit dx dy w h source' sx sy := by
  have hpixel : (dest.blit dx dy w h source sx sy).pixel =
      (dest.blit dx dy w h source' sx sy).pixel := by
    funext x y
    simp only [blit, hwidth, hheight]
    split_ifs with hin
    · exact hagree _ _ (Nat.le_add_right _ _) (Nat.le_add_right _ _) (by omega) (by omega)
    · rfl
  exact congrArg (Raster.mk dest.width dest.height) hpixel

/-- A loop that keeps the extent keeps it throughout. -/
theorem extent_foldl {paint : Raster α → β → Raster α}
    (hextent : ∀ d t, (paint d t).width = d.width ∧ (paint d t).height = d.height)
    (tiles : List β) (d : Raster α) :
    (tiles.foldl paint d).width = d.width ∧ (tiles.foldl paint d).height = d.height := by
  induction tiles generalizing d with
  | nil => exact ⟨rfl, rfl⟩
  | cons t tiles ih =>
      obtain ⟨hwidth, hheight⟩ := ih (paint d t)
      obtain ⟨hwidth', hheight'⟩ := hextent d t
      exact ⟨hwidth.trans hwidth', hheight.trans hheight'⟩

/-- **Painting tile by tile.**  If the tiles over a pixel all give it the
value `v`, and the others leave it alone, the loop gives it the value `v` --
provided one is over it. -/
theorem pixel_foldl {paint : Raster α → β → Raster α} (covers : β → Prop) {x y w h : ℕ} {v : α}
    (hextent : ∀ d t, (paint d t).width = d.width ∧ (paint d t).height = d.height)
    {tiles : List β}
    (hown : ∀ t ∈ tiles, ∀ d, d.width = w → d.height = h → covers t → (paint d t).pixel x y = v)
    (hother : ∀ t ∈ tiles, ∀ d, d.width = w → d.height = h → ¬ covers t →
      (paint d t).pixel x y = d.pixel x y)
    (hcovered : ∃ t ∈ tiles, covers t) {d : Raster α} (hwidth : d.width = w)
    (hheight : d.height = h) : (tiles.foldl paint d).pixel x y = v := by
  induction tiles using List.reverseRecOn with
  | nil => simp at hcovered
  | append_singleton tiles t ih =>
      obtain ⟨hwidth', hheight'⟩ := extent_foldl hextent tiles d
      have hlast : t ∈ tiles ++ [t] := by simp
      rw [List.foldl_append, List.foldl_cons, List.foldl_nil]
      by_cases hover : covers t
      · exact hown t hlast _ (hwidth'.trans hwidth) (hheight'.trans hheight) hover
      · rw [hother t hlast _ (hwidth'.trans hwidth) (hheight'.trans hheight) hover]
        obtain ⟨t', hmem, hover'⟩ := hcovered
        refine ih (fun t' hin => hown t' (List.mem_append_left _ hin))
          (fun t' hin => hother t' (List.mem_append_left _ hin)) ⟨t', ?_, hover'⟩
        rcases List.mem_append.mp hmem with hin | heq
        · exact hin
        · rw [List.mem_singleton] at heq
          exact absurd (heq ▸ hover') hover

/-- A loop that copies rectangles of a picture to others in it, none of which
is copied or written again. -/
theorem pixel_foldl_blit {d : Raster α} {dx dy sx sy : ℕ → ℕ} {w h k : ℕ}
    (hdest : ∀ j < k, dx j + w ≤ d.width ∧ dy j + h ≤ d.height)
    (hsource : ∀ j < k, sx j + w ≤ d.width ∧ sy j + h ≤ d.height)
    (hkept : ∀ j < k, ∀ j' < k, sx j + w ≤ dx j' ∨ dx j' + w ≤ sx j ∨ sy j + h ≤ dy j' ∨
      dy j' + h ≤ sy j)
    (hapart : ∀ j < k, ∀ j' < k, j ≠ j' → dx j + w ≤ dx j' ∨ dx j' + w ≤ dx j ∨
      dy j + h ≤ dy j' ∨ dy j' + h ≤ dy j) :
    (∀ j < k, ∀ x y, dx j ≤ x → x < dx j + w → dy j ≤ y → y < dy j + h →
      ((List.range k).foldl (fun d j => d.blit (dx j) (dy j) w h d (sx j) (sy j)) d).pixel x y =
        d.pixel (sx j + (x - dx j)) (sy j + (y - dy j))) ∧
      ∀ x y, (∀ j < k, x < dx j ∨ dx j + w ≤ x ∨ y < dy j ∨ dy j + h ≤ y) →
        ((List.range k).foldl (fun d j => d.blit (dx j) (dy j) w h d (sx j) (sy j)) d).pixel x y =
          d.pixel x y := by
  induction k with
  | zero => exact ⟨fun j hj => absurd hj (Nat.not_lt_zero j), fun _ _ _ => rfl⟩
  | succ k ih =>
      obtain ⟨hinside, houtside⟩ := ih (fun j hj => hdest j (by omega))
        (fun j hj => hsource j (by omega)) (fun j hj j' hj' => hkept j (by omega) j' (by omega))
        (fun j hj j' hj' => hapart j (by omega) j' (by omega))
      have hextent := @extent_foldl _ _ (fun d j => d.blit (dx j) (dy j) w h d (sx j) (sy j))
        (fun _ _ => ⟨rfl, rfl⟩) (List.range k) d
      obtain ⟨hd, hd'⟩ := hdest k (Nat.lt_succ_self k)
      obtain ⟨hs, hs'⟩ := hsource k (Nat.lt_succ_self k)
      simp only [List.range_succ, List.foldl_append, List.foldl_cons, List.foldl_nil]
      generalize (List.range k).foldl (fun d j => d.blit (dx j) (dy j) w h d (sx j) (sy j)) d = e
        at hinside houtside hextent ⊢
      obtain ⟨hwidth, hheight⟩ := hextent
      constructor
      · intro j hj x y hx hx' hy hy'
        rcases Nat.lt_succ_iff_lt_or_eq.mp hj with hlt | rfl
        · have hout := hapart j (by omega) k (by omega) (by omega)
          rw [pixel_blit_outside (by omega)]
          exact hinside j hlt x y hx hx' hy hy'
        · rw [pixel_blit_inside ⟨hx, hx', by omega, by omega⟩ ⟨hy, hy', by omega, by omega⟩]
          apply houtside
          intro j' hj'
          have hout := hkept j (by omega) j' (by omega)
          omega
      · intro x y hout
        have hlast := hout k (Nat.lt_succ_self k)
        rw [pixel_blit_outside (by omega)]
        exact houtside x y fun j hj => hout j (by omega)

end Raster
