import CardScanner.IntervalGrowth
import Mathlib.Data.Fin.VecNotation
import Mathlib.Data.List.Pairwise

/-!
# Recomposing the selected columns

`combineSelectedPixa` gives every selected text column a border of 20 pixels,
one column after another.  Each time the boxes to the right of the new left
edge move 20 pixels to the right and those below the new upper edge 20 pixels
down, those selected before included, since the boxes are shared.  The columns
are then copied into one page in the order of selection, so a column, with its
border, is written over whatever text of an earlier one it meets.

On either axis the boxes are intervals that grow one after another, and a
column keeps off the text of an earlier one iff their intervals are clear on one
of the axes.  Whether they will be can be told from the boxes at the beginning
(`losesNoText_iff`).
-/

namespace CardScanner

open IntervalGrowth

/-! ## Boxes -/

/-- Leptonica's `Box`. -/
structure Box where
  x : ℤ
  y : ℤ
  w : ℤ
  h : ℤ
  deriving DecidableEq, Repr

/-- The boxes of a `Pixa`, which its clones share. -/
abbrev Boxa (n : ℕ) := Fin n → Box

/-- The boxes have a pixel in common. -/
def Box.Meets (a b : Box) : Prop :=
  a.x < b.x + b.w ∧ b.x < a.x + a.w ∧ a.y < b.y + b.h ∧ b.y < a.y + a.h

/-- `b` contains `a`. -/
def Box.Inside (a b : Box) : Prop :=
  b.x ≤ a.x ∧ a.x + a.w ≤ b.x + b.w ∧ b.y ≤ a.y ∧ a.y + a.h ≤ b.y + b.h

instance (a b : Box) : Decidable (a.Meets b) := inferInstanceAs (Decidable (_ ∧ _))

/-- The origin is not negative, and the box is not empty. -/
def Box.Proper (b : Box) : Prop := 0 ≤ b.x ∧ 0 ≤ b.y ∧ 0 < b.w ∧ 0 < b.h

instance (b : Box) : Decidable b.Proper := inferInstanceAs (Decidable (_ ∧ _))

/-- `boxAdjustSides`, in place; a box without area is left as it is. -/
def boxAdjustSides (b : Box) (delleft delright deltop delbot : ℤ) : Box :=
  let xl := max 0 (b.x + delleft)
  let yt := max 0 (b.y + deltop)
  let xr := b.x + b.w + delright
  let yb := b.y + b.h + delbot
  let wnew := xr - xl
  let hnew := yb - yt
  if wnew < 1 ∨ hnew < 1 then b else ⟨xl, yt, wnew, hnew⟩

/-! ## `combineSelectedPixa` -/

section Combine

variable {n : ℕ}

/-- `translateBoxa`: boxes beyond a place are moved away from it, on each axis
by itself. -/
def translateBoxa (boxa : Boxa n) (dx dy left top : ℤ) : Boxa n :=
  let moveDown := dy > 0
  let moveRight := dx > 0
  if moveDown ∨ moveRight then fun j =>
    let b := boxa j
    { b with
      x := if moveRight ∧ b.x > left then b.x + dx else b.x
      y := if moveDown ∧ b.y > top then b.y + dy else b.y }
  else boxa

/-- The border of a column. -/
def columnBorder : ℤ := 20

theorem columnBorder_pos : 0 < columnBorder := by decide

/-- The body of the first loop: the box of a selected column grows, and boxes
make room for it. -/
def selectColumn (boxa : Boxa n) (textIndex : Fin n) : Boxa n :=
  let b := boxAdjustSides (boxa textIndex) (-columnBorder) columnBorder (-columnBorder) columnBorder
  translateBoxa (Function.update boxa textIndex b) columnBorder columnBorder b.x b.y

/-- The first loop. -/
def placeColumns (boxa : Boxa n) (textindexes : List (Fin n)) : Boxa n :=
  textindexes.foldl selectColumn boxa

/-- The extent of the final page. -/
structure Extent where
  left : ℤ
  right : ℤ
  top : ℤ
  bottom : ℤ

/-- The extent when a box is added. -/
def Extent.add (e : Extent) (b : Box) : Extent where
  left := if e.left > b.x then b.x else e.left
  right := if e.right < b.x + b.w then b.x + b.w else e.right
  top := if e.top > b.y then b.y else e.top
  bottom := if e.bottom < b.y + b.h then b.y + b.h else e.bottom

/-- `MAX_INT16` -/
def maxInt16 : ℤ := 0x7fff

/-- The extent of some boxes. -/
def extentOf (boxes : List Box) : Extent :=
  boxes.foldl Extent.add ⟨maxInt16, 0, maxInt16, 0⟩

/-- The border of the page. -/
def pageBorder : ℤ := 60

/-- The size of the final page and the boxes of its columns. -/
structure Combined (n : ℕ) where
  width : ℤ
  height : ℤ
  boxColumn : Fin n → Box

/-- `combineSelectedPixa` where no column can be dewarped, with the boxes of
the selected images. -/
def combineSelectedPixa (boxa : Boxa n) (images : List Box) (textindexes : List (Fin n)) :
    Combined n :=
  let selected := placeColumns boxa textindexes
  let extent := extentOf (images ++ textindexes.map selected)
  let xoffset := extent.left - pageBorder
  let yoffset := extent.top - pageBorder
  { width := extent.right - extent.left + 2 * pageBorder
    height := extent.bottom - extent.top + 2 * pageBorder
    boxColumn := fun i => ⟨(selected i).x - xoffset, (selected i).y - yoffset, (selected i).w,
      (selected i).h⟩ }

/-- Where the text of a column is on the page: behind its border, in its
original size. -/
def textContent (boxa : Boxa n) (combined : Combined n) (i : Fin n) : Box :=
  ⟨(combined.boxColumn i).x + columnBorder, (combined.boxColumn i).y + columnBorder, (boxa i).w,
    (boxa i).h⟩

/-- The page shows the text of every selected column, none of it covered or
cut off. -/
structure LosesNoText (boxa : Boxa n) (images : List Box) (textindexes : List (Fin n)) :
    Prop where
  /-- no two texts have a pixel in common -/
  disjoint : let combined := combineSelectedPixa boxa images textindexes
    textindexes.Pairwise fun i j =>
      ¬ (textContent boxa combined i).Meets (textContent boxa combined j)
  /-- no column is copied over the text of an earlier one -/
  kept : let combined := combineSelectedPixa boxa images textindexes
    textindexes.Pairwise fun i j => ¬ (combined.boxColumn j).Meets (textContent boxa combined i)
  /-- every text lies in its own column -/
  inColumn : let combined := combineSelectedPixa boxa images textindexes
    ∀ i ∈ textindexes, (textContent boxa combined i).Inside (combined.boxColumn i)
  /-- every text lies on the page -/
  inPage : let combined := combineSelectedPixa boxa images textindexes
    ∀ i ∈ textindexes,
      (textContent boxa combined i).Inside ⟨0, 0, combined.width, combined.height⟩

/-! ## Axes -/

/-- The two axes of the page. -/
inductive PageAxis where
  | horizontal
  | vertical

theorem PageAxis.exists_iff {P : PageAxis → Prop} :
    (∃ axis, P axis) ↔ P .horizontal ∨ P .vertical := by
  constructor
  · intro ⟨axis, h⟩
    cases axis with
    | horizontal => exact Or.inl h
    | vertical => exact Or.inr h
  · intro h
    exact h.elim (fun h => ⟨.horizontal, h⟩) fun h => ⟨.vertical, h⟩

theorem PageAxis.forall_iff {P : PageAxis → Prop} :
    (∀ axis, P axis) ↔ P .horizontal ∧ P .vertical := by
  constructor
  · intro h
    exact ⟨h .horizontal, h .vertical⟩
  · intro h axis
    cases axis with
    | horizontal => exact h.1
    | vertical => exact h.2

/-- The box on one of the axes. -/
def Box.span (b : Box) : PageAxis → Span
  | .horizontal => ⟨b.x, b.w⟩
  | .vertical => ⟨b.y, b.h⟩

variable {boxa : Boxa n}

/-- A proper box grows by its border on both axes. -/
theorem boxAdjustSides_of_proper {b : Box} (h : b.Proper) (axis : PageAxis) :
    (boxAdjustSides b (-columnBorder) columnBorder (-columnBorder) columnBorder).span axis =
      grow columnBorder (b.span axis) := by
  obtain ⟨hx, hy, hw, hh⟩ := h
  unfold boxAdjustSides columnBorder
  simp only
  rw [if_neg (by omega)]
  cases axis with
  | horizontal => rfl
  | vertical => rfl

/-- A move by the border, past the upper left corner of a box, shifts every box
that starts behind it. -/
theorem span_translateBoxa (b : Box) (axis : PageAxis) (j : Fin n) :
    (translateBoxa boxa columnBorder columnBorder b.x b.y j).span axis =
      shift columnBorder (b.span axis).start ((boxa j).span axis) := by
  cases axis with
  | horizontal =>
      by_cases hx : (boxa j).x > b.x <;> simp [translateBoxa, columnBorder, Box.span, shift, hx]
  | vertical =>
      by_cases hy : (boxa j).y > b.y <;> simp [translateBoxa, columnBorder, Box.span, shift, hy]

/-- Selecting a column grows it on either axis. -/
theorem span_selectColumn {k : Fin n} (h : (boxa k).Proper) (axis : PageAxis) :
    (fun j => (selectColumn boxa k j).span axis) =
      growAt columnBorder (fun j => (boxa j).span axis) k := by
  funext j
  unfold selectColumn growAt
  rw [span_translateBoxa, boxAdjustSides_of_proper h, Function.update_apply]
  split_ifs
  · rw [boxAdjustSides_of_proper h]
  · rfl

/-- The boxes are proper iff their intervals are. -/
theorem proper_iff_spans :
    (∀ j, (boxa j).Proper) ↔ ∀ axis, Proper fun j => (boxa j).span axis := by
  rw [PageAxis.forall_iff]
  constructor
  · intro h
    exact ⟨fun j => ⟨(h j).1, (h j).2.2.1⟩, fun j => ⟨(h j).2.1, (h j).2.2.2⟩⟩
  · intro h j
    exact ⟨(h.1 j).1, (h.2 j).1, (h.1 j).2, (h.2 j).2⟩

/-- A selected column leaves the boxes proper. -/
theorem proper_selectColumn (h : ∀ j, (boxa j).Proper) (k : Fin n) :
    ∀ j, (selectColumn boxa k j).Proper := by
  apply proper_iff_spans.mpr
  intro axis
  rw [span_selectColumn (h k)]
  exact (proper_iff_spans.mp h axis).growAt columnBorder_pos k

/-- **The first loop** grows the selected columns on both axes, one after
another.  Along each axis it is `growAll` of `IntervalGrowth`, so what is
proved there of intervals holds of columns. -/
theorem span_placeColumns (h : ∀ j, (boxa j).Proper) (textindexes : List (Fin n))
    (axis : PageAxis) :
    (fun j => (placeColumns boxa textindexes j).span axis) =
      growAll columnBorder (fun j => (boxa j).span axis) textindexes := by
  induction textindexes generalizing boxa with
  | nil => rfl
  | cons k rest ih =>
      have hrest := ih (proper_selectColumn h k)
      rwa [span_selectColumn (h k)] at hrest

/-! ## The page -/

/-- A box that is added lies within the extent. -/
def Extent.Covers (e : Extent) (b : Box) : Prop :=
  e.left ≤ b.x ∧ b.x + b.w ≤ e.right ∧ e.top ≤ b.y ∧ b.y + b.h ≤ e.bottom

theorem Extent.covers_add (e : Extent) (b : Box) : (e.add b).Covers b := by
  unfold Extent.Covers Extent.add
  simp only
  refine ⟨?_, ?_, ?_, ?_⟩ <;> split_ifs <;> omega

/-- What is covered stays covered. -/
theorem Extent.Covers.add {e : Extent} {b : Box} (h : e.Covers b) (c : Box) :
    (e.add c).Covers b := by
  obtain ⟨hleft, hright, htop, hbottom⟩ := h
  unfold Extent.Covers Extent.add
  simp only
  refine ⟨?_, ?_, ?_, ?_⟩ <;> split_ifs <;> omega

/-- Adding further boxes uncovers none. -/
theorem Extent.Covers.foldl {e : Extent} {b : Box} (h : e.Covers b) (boxes : List Box) :
    (boxes.foldl Extent.add e).Covers b := by
  induction boxes generalizing e with
  | nil => exact h
  | cons c rest ih => exact ih (h.add c)

theorem covers_foldl_of_mem (e : Extent) {boxes : List Box} {b : Box} (hb : b ∈ boxes) :
    (boxes.foldl Extent.add e).Covers b := by
  induction boxes generalizing e with
  | nil => exact absurd hb List.not_mem_nil
  | cons c rest ih =>
      rcases List.mem_cons.mp hb with rfl | hrest
      · exact (e.covers_add b).foldl rest
      · exact ih (e.add c) hrest

/-- The page covers the box of every selected column. -/
theorem covers_selected (boxa : Boxa n) (images : List Box) {textindexes : List (Fin n)} {i : Fin n}
    (hi : i ∈ textindexes) :
    (extentOf (images ++ textindexes.map (placeColumns boxa textindexes))).Covers
      (placeColumns boxa textindexes i) :=
  covers_foldl_of_mem _ (List.mem_append_right _ (List.mem_map_of_mem hi))

variable (images : List Box) {textindexes : List (Fin n)} {i j : Fin n}

/-- A text lies in its own column, since both are moved by the same distance. -/
theorem textContent_inside_boxColumn (h : ∀ k, (boxa k).Proper) (hnodup : textindexes.Nodup)
    (hi : i ∈ textindexes) :
    let combined := combineSelectedPixa boxa images textindexes
    (textContent boxa combined i).Inside (combined.boxColumn i) := by
  have hextent : ∀ axis, columnBorder + ((boxa i).span axis).extent ≤
      ((placeColumns boxa textindexes i).span axis).extent := by
    intro axis
    have hgrown := text_le_extent columnBorder_pos (proper_iff_spans.mp h axis) hnodup hi
    rwa [← span_placeColumns h] at hgrown
  have hw := hextent .horizontal
  have hh := hextent .vertical
  simp only [Box.span, columnBorder] at hw hh
  simp only [Box.Inside, textContent, combineSelectedPixa, columnBorder]
  omega

/-- A column lies on the page. -/
theorem boxColumn_inside_page (hi : i ∈ textindexes) :
    let combined := combineSelectedPixa boxa images textindexes
    (combined.boxColumn i).Inside ⟨0, 0, combined.width, combined.height⟩ := by
  obtain ⟨hleft, hright, htop, hbottom⟩ := covers_selected boxa images hi
  simp only [Box.Inside, combineSelectedPixa, pageBorder]
  omega

/-- What is inside of a box that is inside of another is inside of that. -/
theorem Box.Inside.trans {a b c : Box} (hab : a.Inside b) (hbc : b.Inside c) : a.Inside c := by
  unfold Box.Inside at *
  omega

/-- What keeps off a box keeps off all that is inside of it. -/
theorem Box.Inside.meets {a b c : Box} (hab : a.Inside b) (h : c.Meets a) : b.Meets c := by
  unfold Box.Inside at hab
  unfold Box.Meets at *
  omega

/-- A column keeps off a text iff their intervals are clear on one of the
axes. -/
theorem not_meets_iff_clear :
    let combined := combineSelectedPixa boxa images textindexes
    ¬ (combined.boxColumn j).Meets (textContent boxa combined i) ↔
      ∃ axis, Clear columnBorder ((boxa i).span axis).extent
        ((placeColumns boxa textindexes i).span axis)
        ((placeColumns boxa textindexes j).span axis) := by
  rw [PageAxis.exists_iff]
  simp only [Box.Meets, Clear, textContent, combineSelectedPixa, Box.span]
  omega

/-- The page shows every text iff no column is copied over an earlier one. -/
theorem losesNoText_iff_kept (h : ∀ k, (boxa k).Proper) (hnodup : textindexes.Nodup) :
    LosesNoText boxa images textindexes ↔
      let combined := combineSelectedPixa boxa images textindexes
      textindexes.Pairwise fun i j =>
        ¬ (combined.boxColumn j).Meets (textContent boxa combined i) := by
  have hinColumn := fun k (hk : k ∈ textindexes) =>
    textContent_inside_boxColumn images h hnodup hk
  constructor
  · intro hloses
    exact hloses.kept
  · intro hkept
    refine ⟨?_, hkept, hinColumn, ?_⟩
    · apply hkept.imp_of_mem
      intro i j _ hj hoff hmeet
      exact hoff ((hinColumn j hj).meets hmeet)
    · intro combined i hi
      exact (hinColumn i hi).trans (boxColumn_inside_page images hi)

/-! ## Which columns keep off each other -/

/-- There is room between two columns, the first of them selected before the
other: on one of the axes the later one starts behind the text of the first
even if the page border pushes that in, or it ends before the first and starts
by the border before it. -/
def RoomBetween (first later : Box) : Prop :=
  ∃ axis, Ready columnBorder (first.span axis) (later.span axis)

instance (d : ℤ) (a b : Span) : Decidable (Ready d a b) := inferInstanceAs (Decidable (_ ∨ _))

instance (first later : Box) : Decidable (RoomBetween first later) :=
  decidable_of_iff' _ PageAxis.exists_iff

/-- Columns with room between them keep off each other, whatever else is
selected. -/
theorem not_meets_of_roomBetween (h : ∀ k, (boxa k).Proper) (hnodup : textindexes.Nodup)
    (horder : [i, j].Sublist textindexes) (hroom : RoomBetween (boxa i) (boxa j)) :
    let combined := combineSelectedPixa boxa images textindexes
    ¬ (combined.boxColumn j).Meets (textContent boxa combined i) := by
  obtain ⟨axis, hready⟩ := hroom
  have hclear := clear_of_ready columnBorder_pos (proper_iff_spans.mp h axis) hnodup horder hready
  rw [← span_placeColumns h] at hclear
  exact (not_meets_iff_clear images).mpr ⟨axis, hclear⟩

/-- Two columns that are selected alone need that room. -/
theorem not_meets_pair_iff (h : ∀ k, (boxa k).Proper) (hne : i ≠ j) :
    (¬ ((combineSelectedPixa boxa images [i, j]).boxColumn j).Meets
        (textContent boxa (combineSelectedPixa boxa images [i, j]) i)) ↔
      RoomBetween (boxa i) (boxa j) := by
  refine (not_meets_iff_clear images).trans (exists_congr fun axis => ?_)
  have hclear := clear_growAll_pair_iff columnBorder_pos (proper_iff_spans.mp h axis) hne
  rwa [← span_placeColumns h] at hclear

/-- A selection loses no text where there is room between its columns. -/
theorem losesNoText_of_roomBetween (h : ∀ k, (boxa k).Proper) (hnodup : textindexes.Nodup)
    (hroom : textindexes.Pairwise fun i j => RoomBetween (boxa i) (boxa j)) :
    LosesNoText boxa images textindexes := by
  apply (losesNoText_iff_kept images h hnodup).mpr
  apply List.pairwise_iff_forall_sublist.mpr
  intro i j horder
  exact not_meets_of_roomBetween images h hnodup horder
    (List.pairwise_iff_forall_sublist.mp hroom horder)

/-- Two columns selected alone lose no text only if there is room between
them. -/
theorem roomBetween_of_losesNoText (h : ∀ k, (boxa k).Proper) (hne : i ≠ j)
    (hloses : LosesNoText boxa images [i, j]) : RoomBetween (boxa i) (boxa j) :=
  (not_meets_pair_iff images h hne).mp (List.pairwise_pair.mp hloses.kept)

/-- **When recomposing loses no text.**  Every selection of a part of the
columns keeps the text of each, in the order they are selected, iff there is
room between any two of them; and all selections from a page do, in every
order, iff there is room between any two of its columns either way. -/
theorem losesNoText_iff (hproper : ∀ k, (boxa k).Proper) (images : List Box) :
    (∀ textindexes : List (Fin n), textindexes.Nodup →
      ((∀ part, part.Sublist textindexes → LosesNoText boxa images part) ↔
        textindexes.Pairwise fun i j => RoomBetween (boxa i) (boxa j))) ∧
    ((∀ textindexes : List (Fin n), textindexes.Nodup → LosesNoText boxa images textindexes) ↔
      Pairwise fun i j => RoomBetween (boxa i) (boxa j)) := by
  constructor
  · intro textindexes hnodup
    constructor
    · intro hparts
      apply List.pairwise_iff_forall_sublist.mpr
      intro i j horder
      have hne : i ≠ j := List.pairwise_pair.mp (hnodup.sublist horder)
      exact roomBetween_of_losesNoText images hproper hne (hparts _ horder)
    · intro hroom part hpart
      exact losesNoText_of_roomBetween images hproper (hnodup.sublist hpart)
        (hroom.sublist hpart)
  · constructor
    · intro hall i j hne
      exact roomBetween_of_losesNoText images hproper hne
        (hall [i, j] (List.nodup_cons.mpr ⟨by simpa using hne, List.nodup_singleton j⟩))
    · intro hroom textindexes hnodup
      exact losesNoText_of_roomBetween images hproper hnodup (hnodup.imp fun hne => hroom hne)

end Combine

/-- Columns away from the page border, and not narrower or lower than their own
border, have room between them where they are disjoint. -/
theorem roomBetween_of_disjoint {first later : Box} (hdisjoint : ¬ first.Meets later)
    (hx : columnBorder < first.x) (hy : columnBorder < first.y) (hw : columnBorder ≤ later.w)
    (hh : columnBorder ≤ later.h) : RoomBetween first later := by
  unfold Box.Meets at hdisjoint
  apply PageAxis.exists_iff.mpr
  simp only [Ready, Box.span]
  omega

/-- So disjoint columns of that kind may be selected in any order. -/
theorem losesNoText_of_disjoint {n : ℕ} {boxa : Boxa n} (images : List Box)
    {textindexes : List (Fin n)} (hnodup : textindexes.Nodup)
    (hdisjoint : Pairwise fun i j => ¬ (boxa i).Meets (boxa j))
    (haway : ∀ k, columnBorder < (boxa k).x ∧ columnBorder < (boxa k).y)
    (hlarge : ∀ k, columnBorder ≤ (boxa k).w ∧ columnBorder ≤ (boxa k).h) :
    LosesNoText boxa images textindexes := by
  have hproper : ∀ k, (boxa k).Proper := by
    intro k
    have hborder := columnBorder_pos
    obtain ⟨hx, hy⟩ := haway k
    obtain ⟨hw, hh⟩ := hlarge k
    unfold Box.Proper
    omega
  apply losesNoText_of_roomBetween images hproper hnodup
  apply hnodup.imp
  intro i j hne
  exact roomBetween_of_disjoint (hdisjoint hne) (haway i).1 (haway i).2 (hlarge j).1 (hlarge j).2

/-- Two columns side by side, in the middle of a page. -/
def centredColumns : Boxa 2 := ![⟨50, 50, 100, 30⟩, ⟨160, 50, 100, 30⟩]

/-- Two columns with room between them lose no text, in whatever order they are
selected. -/
theorem losesNoText_centredColumns :
    (∀ textindexes : List (Fin 2), textindexes.Nodup →
      LosesNoText centredColumns [] textindexes) ∧
    ∀ part : List (Fin 2), part.Sublist [0, 1] → LosesNoText centredColumns [] part :=
  have hproper : ∀ k, (centredColumns k).Proper := by decide
  have h := losesNoText_iff hproper []
  ⟨h.2.mpr (by unfold Pairwise; decide), (h.1 [0, 1] (by decide)).mpr (by decide)⟩

/-- The same two columns at the left border. -/
def borderColumns : Boxa 2 := ![⟨5, 50, 100, 30⟩, ⟨110, 50, 100, 30⟩]

/-- The first column stays at the border, which pushes its text in; the second
one is copied over the end of it. -/
theorem not_losesNoText_borderColumns :
    (∀ k, (borderColumns k).Proper) ∧ ¬ (borderColumns 0).Meets (borderColumns 1) ∧
      ¬ LosesNoText borderColumns [] [0, 1] := by
  refine ⟨by decide, by decide, ?_⟩
  intro hloses
  have hkept := List.pairwise_pair.mp hloses.kept
  revert hkept
  decide

end CardScanner
