import CardScanner.DoublyLinked
import CardScanner.Plane
import CardScanner.TextRect
import Mathlib.Data.Fin.VecNotation
import Mathlib.Data.Fintype.EquivFin

/-!
# Which contours are characters

`findContours` numbers the contours and links them in a table: each row has the
next and the previous contour on the same level, a child and the parent.
`convertGray` keeps a contour if its box has the size and shape of a character
(`keep`), if it is not one of a few characters inside another contour and does
not itself have more than two of them inside (`include_box`).

`count_childs` walks along the siblings of a child in both directions.  The loops
stop at 0, which is a contour; but that is a root, so the walk from a child never
meets it, and the count is right (`countChilds_eq`).  `is_child` makes the same
comparison with the parent, where it does matter: a child of contour 0 is taken
for a root (`selectsRightly_iff`).
-/

namespace CardScanner

open Plane

/-! ## Contours -/

/-- The pixel at a point. -/
def pixelRect (p : Point ℤ) : Rect := ⟨p.x, p.y, 1, 1⟩

/-- `boundingRect` of the image library, which the sources only declare.  What
is relied on is that a box has no negative size and has the pixels of all its
points. -/
structure PointBoxes where
  boundingRect : List (Point ℤ) → Rect
  nonneg : ∀ contour, 0 ≤ (boundingRect contour).width ∧ 0 ≤ (boundingRect contour).height
  pixelRect_le : ∀ contour, ∀ p ∈ contour, pixelRect p ≤ boundingRect contour

/-- The least rectangle with the pixels of all points, which is what the
library documents. -/
def leastRect : List (Point ℤ) → Rect
  | [] => ⟨0, 0, 0, 0⟩
  | p :: rest => rest.foldl (fun rect q => rect ⊔ pixelRect q) (pixelRect p)

theorem pixelRect_le_foldl {rect : Rect} {p : Point ℤ} {rest : List (Point ℤ)}
    (h : pixelRect p ≤ rect ∨ p ∈ rest) :
    pixelRect p ≤ rest.foldl (fun rect q => rect ⊔ pixelRect q) rect := by
  induction rest generalizing rect with
  | nil => exact h.resolve_right List.not_mem_nil
  | cons q rest ih =>
      apply ih
      rcases h with hle | hmem
      · exact Or.inl (hle.trans le_sup_left)
      · rcases List.mem_cons.mp hmem with rfl | hrest
        · exact Or.inl le_sup_right
        · exact Or.inr hrest

/-- The least rectangle has the pixels of all points. -/
theorem pixelRect_le_leastRect {contour : List (Point ℤ)} {p : Point ℤ} (hp : p ∈ contour) :
    pixelRect p ≤ leastRect contour := by
  cases contour with
  | nil => exact absurd hp List.not_mem_nil
  | cons q rest =>
      apply pixelRect_le_foldl
      rcases List.mem_cons.mp hp with rfl | hrest
      · exact Or.inl le_rfl
      · exact Or.inr hrest

theorem leastRect_nonneg (contour : List (Point ℤ)) :
    0 ≤ (leastRect contour).width ∧ 0 ≤ (leastRect contour).height := by
  cases contour with
  | nil => exact ⟨le_rfl, le_rfl⟩
  | cons p rest =>
      have hle := pixelRect_le_leastRect (List.mem_cons_self (a := p) (l := rest))
      rw [Rect.le_iff_nested] at hle
      unfold Rect.Nested pixelRect at hle
      simp only at hle
      omega

/-- Least rectangles are such boxes. -/
def leastBoxes : PointBoxes where
  boundingRect := leastRect
  nonneg := leastRect_nonneg
  pixelRect_le _ _ := pixelRect_le_leastRect

/-- `keep_box`.  No contour is empty, so no division is by zero.  The quotient
and the product are floats in the source and exact here. -/
def keepBox (cv : PointBoxes) (imgX imgY : ℤ) (contour : List (Point ℤ)) : Bool :=
  let rect := cv.boundingRect contour
  let w : ℚ := rect.width
  let h : ℚ := rect.height
  if w / h < 1 / 10 ∨ w / h > 10 then false
  else if w * h > (imgX * imgY : ℤ) / 5 ∨ w * h < 15 then false
  else true

/-- `connected`: the first and the last point are one pixel apart at most, on
either axis. -/
def connected (contour : List (Point ℤ)) : Bool :=
  match contour.head?, contour.getLast? with
  | some first, some last => |first.x - last.x| ≤ 1 && |first.y - last.y| ≤ 1
  | _, _ => false

/-- `keep`: the box is of a letter's size and shape, and the contour is
closed. -/
def keep (cv : PointBoxes) (imgX imgY : ℤ) (contour : List (Point ℤ)) : Bool :=
  keepBox cv imgX imgY contour && connected contour

/-! ## The table -/

/-- A row of the hierarchy; its elements 0 to 3. -/
structure Vec4i where
  next : ℤ
  previous : ℤ
  child : ℤ
  parent : ℤ
  deriving DecidableEq, Repr

/-- The size of the image, and what `findContours` has found in it: two vectors
of one size.  `boxes` has the boxes of the contours. -/
structure ContourTree (n : ℕ) where
  boxes : PointBoxes
  imgX : ℤ
  imgY : ℤ
  contours : Fin n → List (Point ℤ)
  hierarchy : Fin n → Vec4i

/-- The place of an index in a vector, if it is in range. -/
def placeOf (n : ℕ) (index : ℤ) : Option (Fin n) :=
  if h : 0 ≤ index ∧ index < n then some ⟨index.toNat, by omega⟩ else none

namespace ContourTree

variable {n : ℕ} (t : ContourTree n)

/-- `get_contour`; there is no access if the index is out of range. -/
def getContour (index : ℤ) : Option (List (Point ℤ)) := (placeOf n index).map t.contours

/-- `hierarchy[index]` -/
def row (index : ℤ) : Option Vec4i := (placeOf n index).map t.hierarchy

/-- `get_parent`: what the row of a contour has at place 3. -/
def getParent (index : ℤ) : Option ℤ := (t.row index).map Vec4i.parent

/-- `is_child`.  Contour 0 is an index like the others, but it is not taken
for a parent here. -/
def isChild (index : ℤ) : Option Bool := (t.getParent index).map fun parent => parent > 0

/-- The loops of `count_childs`, along the links in one column; at most `fuel`
tests of the condition. -/
def countSiblings (column : Vec4i → ℤ) : ℕ → ℤ → ℤ → Option ℤ
  | 0, _, _ => none
  | fuel + 1, sibling, count =>
    if sibling > 0 then do
      let contour ← t.getContour sibling
      let row ← t.row sibling
      countSiblings column fuel (column row)
        (if keep t.boxes t.imgX t.imgY contour then count + 1 else count)
    else some count

/-- `count_childs`, which makes no use of its second argument. -/
def countChilds (fuel : ℕ) (index : ℤ) : Option ℤ := do
  let row ← t.row index
  let childIndex := row.child
  if childIndex < 0 then pure 0
  else do
    let contour ← t.getContour childIndex
    let childRow ← t.row childIndex
    let count := if keep t.boxes t.imgX t.imgY contour then 1 else 0
    let count ← t.countSiblings Vec4i.previous fuel childRow.previous count
    t.countSiblings Vec4i.next fuel childRow.next count

/-- The first test of `include_box`: a child with few siblings. -/
def hasFewSiblings (fuel : ℕ) (index : ℤ) : Option Bool := do
  if ← t.isChild index then do
    let parent ← t.getParent index
    let _contour ← t.getContour parent
    let count ← t.countChilds fuel parent
    pure (count ≤ 2)
  else pure false

/-- `include_box`: contours with few siblings are left out, and so are those
with more than two kept children. -/
def includeBox (fuel : ℕ) (index : ℤ) : Option Bool := do
  if ← t.hasFewSiblings fuel index then pure false
  else do
    let count ← t.countChilds fuel index
    if count > 2 then pure false else pure true

end ContourTree

/-! ## Well-formed tables -/

/-- An index, or the sentinel. -/
def IsLink (n : ℕ) (index : ℤ) : Prop := index = -1 ∨ 0 ≤ index ∧ index < n

instance (n : ℕ) (index : ℤ) : Decidable (IsLink n index) := by
  unfold IsLink; infer_instance

namespace ContourTree

variable {n : ℕ} (t : ContourTree n)

/-- Where a link leads. -/
def link (column : Vec4i → ℤ) (i : Fin n) : Option (Fin n) := placeOf n (column (t.hierarchy i))

/-- The links describe a forest in which contour 0 is a root.  That the child
of a contour is the first in its list of siblings is not needed. -/
structure WellFormed : Prop where
  next : ∀ i, IsLink n (t.hierarchy i).next
  previous : ∀ i, IsLink n (t.hierarchy i).previous
  child : ∀ i, IsLink n (t.hierarchy i).child
  parent : ∀ i, IsLink n (t.hierarchy i).parent
  /-- siblings are doubly linked, without cycles -/
  siblings : DoublyLinked (t.link Vec4i.next) (t.link Vec4i.previous)
  /-- and have one parent -/
  sameParent : ∀ i j, Follows (t.link Vec4i.next) i j →
    t.link Vec4i.parent i = t.link Vec4i.parent j
  /-- the child of a contour has it for its parent -/
  parentOfChild : ∀ i c, t.link Vec4i.child i = some c → t.link Vec4i.parent c = some i
  /-- a parent has a child -/
  childOfParent : ∀ i j, t.link Vec4i.parent j = some i → t.link Vec4i.child i ≠ none
  /-- all children of a contour are in one list -/
  oneList : ∀ i j k, t.link Vec4i.parent j = some i → t.link Vec4i.parent k = some i →
    t.link Vec4i.previous j = none → t.link Vec4i.previous k = none → j = k
  root : ∀ i, i.val = 0 → t.link Vec4i.parent i = none

/-- Nothing but the links matters for that. -/
theorem WellFormed.of_hierarchy_eq {t t' : ContourTree n} (hwf : t.WellFormed)
    (h : t'.hierarchy = t.hierarchy) : t'.WellFormed := by
  obtain ⟨boxes, imgX, imgY, contours, hierarchy⟩ := t
  obtain ⟨boxes', imgX', imgY', contours', hierarchy'⟩ := t'
  obtain rfl : hierarchy' = hierarchy := h
  exact ⟨hwf.next, hwf.previous, hwf.child, hwf.parent, hwf.siblings, hwf.sameParent,
    hwf.parentOfChild, hwf.childOfParent, hwf.oneList, hwf.root⟩

/-- `keep` of a contour of the table. -/
def keeps (i : Fin n) : Bool := keep t.boxes t.imgX t.imgY (t.contours i)

/-- How many children of a contour are kept. -/
def keptChildren (i : Fin n) : ℕ :=
  (List.finRange n).countP fun j => decide (t.link Vec4i.parent j = some i) && t.keeps j

end ContourTree

/-! ## Accesses -/

section Access

variable {n : ℕ} {t : ContourTree n} {index : ℤ} {i : Fin n}

theorem placeOf_eq_some_iff : placeOf n index = some i ↔ index = i.val := by
  unfold placeOf
  split_ifs with h
  · rw [Option.some.injEq, Fin.ext_iff]
    change index.toNat = i.val ↔ index = i.val
    omega
  · grind

theorem placeOf_eq_none_iff (h : IsLink n index) : placeOf n index = none ↔ index = -1 := by
  unfold placeOf IsLink at *
  split_ifs with hplace
  · grind
  · grind

theorem isSome_placeOf : (placeOf n index).isSome = true ↔ 0 ≤ index ∧ index < n := by
  unfold placeOf
  split_ifs with h <;> simp [h]

@[simp] theorem placeOf_val : placeOf n (i.val : ℤ) = some i := placeOf_eq_some_iff.mpr rfl

end Access

namespace ContourTree

variable {n : ℕ} {t : ContourTree n} {i : Fin n}

@[simp] theorem getContour_val : t.getContour i.val = some (t.contours i) := by
  simp [getContour]

@[simp] theorem row_val : t.row i.val = some (t.hierarchy i) := by
  simp [row]

/-- A link that leads to a contour is its index. -/
theorem link_eq_some_iff {column : Vec4i → ℤ} {j : Fin n} :
    t.link column i = some j ↔ column (t.hierarchy i) = j.val := placeOf_eq_some_iff

/-- A link that leads nowhere is the sentinel. -/
theorem link_eq_none_iff {column : Vec4i → ℤ} (h : IsLink n (column (t.hierarchy i))) :
    t.link column i = none ↔ column (t.hierarchy i) = -1 := placeOf_eq_none_iff h

/-! ## Counting -/

/-- A loop along the links counts the contours of the walk, where contour 0 is
not among them; by induction on the walk. -/
theorem countSiblings_of_walk {column : Vec4i → ℤ} (hlinks : ∀ j, IsLink n (column (t.hierarchy j)))
    {start : ℤ} (hstart : IsLink n start) {l : List (Fin n)}
    (hwalk : Walk (t.link column) (placeOf n start) l) (hpos : ∀ j ∈ l, j.val ≠ 0) {fuel : ℕ}
    (hfuel : l.length < fuel) (count : ℤ) :
    t.countSiblings column fuel start count = some (count + l.countP t.keeps) := by
  generalize hplace : placeOf n start = place at hwalk
  induction hwalk generalizing start fuel count with
  | done =>
      obtain ⟨fuel, rfl⟩ : ∃ k, fuel = k + 1 := ⟨fuel - 1, by grind⟩
      rw [placeOf_eq_none_iff hstart] at hplace
      simp [countSiblings, hplace]
  | @step j l hrest ih =>
      obtain ⟨fuel, rfl⟩ : ∃ k, fuel = k + 1 := ⟨fuel - 1, by grind⟩
      rw [placeOf_eq_some_iff] at hplace
      have hj : 0 < j.val := Nat.pos_of_ne_zero (hpos j List.mem_cons_self)
      have hrun := ih (hlinks j) (fun k hk => hpos k (List.mem_cons_of_mem j hk))
        (Nat.lt_of_succ_lt_succ hfuel) (if t.keeps j then count + 1 else count) rfl
      subst hplace
      unfold countSiblings
      rw [if_pos (by exact_mod_cast hj)]
      simp only [getContour_val, row_val, Option.bind_eq_bind, Option.bind_some]
      refine hrun.trans (congrArg some ?_)
      rw [List.countP_cons]
      split_ifs <;> push_cast <;> ring

/-- The children of a contour are the siblings that are met from one of them. -/
theorem children_perm (hwf : t.WellFormed) {c : Fin n} (hchild : t.link Vec4i.child i = some c)
    {before after : List (Fin n)}
    (hbefore : Walk (t.link Vec4i.previous) (t.link Vec4i.previous c) before)
    (hafter : Walk (t.link Vec4i.next) (t.link Vec4i.next c) after) :
    (before ++ c :: after).Perm
      ((List.finRange n).filter fun j => decide (t.link Vec4i.parent j = some i)) := by
  have hparent := hwf.parentOfChild i c hchild
  have hmem : ∀ j, j ∈ before ++ c :: after ↔ t.link Vec4i.parent j = some i := by
    intro j
    rw [hwf.siblings.mem_both_iff hwf.sameParent _ hbefore hafter, hparent]
    intro j k hj hk
    rw [hparent] at hj hk
    exact hwf.oneList i j k hj hk
  have hnodup := hwf.siblings.nodup_both hbefore hafter
  apply (List.perm_ext_iff_of_nodup hnodup ((List.nodup_finRange n).filter _)).mpr
  intro j
  simp [hmem j]

/-- A child is not contour 0, which is a root. -/
theorem WellFormed.val_ne_zero (hwf : t.WellFormed) {j : Fin n}
    (hj : t.link Vec4i.parent j = some i) : j.val ≠ 0 := by
  intro hzero
  rw [hwf.root j hzero] at hj
  cases hj

/-- A contour without a first child has no children at all, kept or not. -/
theorem keptChildren_of_no_child (hwf : t.WellFormed) (hchild : t.link Vec4i.child i = none) :
    t.keptChildren i = 0 := by
  apply List.countP_eq_zero.mpr
  intro j _ hj
  simp only [Bool.and_eq_true, decide_eq_true_eq] at hj
  exact hwf.childOfParent i j hj.1 hchild

/-- The kept ones among the children, in whatever order these are met. -/
theorem keptChildren_eq_countP {l : List (Fin n)} (hperm : l.Perm
    ((List.finRange n).filter fun j => decide (t.link Vec4i.parent j = some i))) :
    t.keptChildren i = l.countP t.keeps := by
  rw [hperm.countP_eq, List.countP_filter]
  unfold keptChildren
  simp only [Bool.and_comm]

/-- **`count_childs` counts the kept children.**  Contour 0 is a root, so the
loops do not stop early: from the first child they meet the siblings before it
and those behind it, each once, and those are all children. -/
theorem countChilds_eq (hwf : t.WellFormed) (i : Fin n) {fuel : ℕ} (hfuel : n < fuel) :
    t.countChilds fuel i.val = some (t.keptChildren i : ℤ) := by
  unfold countChilds
  simp only [row_val, Option.bind_eq_bind, Option.bind_some]
  cases hchild : t.link Vec4i.child i with
  | none =>
      have hnone := keptChildren_of_no_child hwf hchild
      rw [link_eq_none_iff (hwf.child i)] at hchild
      rw [hnone, if_pos (by omega)]
      rfl
  | some c =>
      obtain ⟨before, hbefore⟩ :=
        Walk.exists_walk hwf.siblings.symm.acyclic (t.link Vec4i.previous c)
      obtain ⟨after, hafter⟩ := Walk.exists_walk hwf.siblings.acyclic (t.link Vec4i.next c)
      have hperm := children_perm hwf hchild hbefore hafter
      have hpos : ∀ j ∈ before ++ c :: after, j.val ≠ 0 := by
        intro j hj
        have hparent := (List.mem_filter.mp (hperm.mem_iff.mp hj)).2
        exact hwf.val_ne_zero (of_decide_eq_true hparent)
      have hlength : (before ++ c :: after).length ≤ n := by
        have hnodup := hwf.siblings.nodup_both hbefore hafter
        simpa using hnodup.length_le_card
      rw [List.length_append, List.length_cons] at hlength
      rw [link_eq_some_iff] at hchild
      rw [hchild, if_neg (by omega)]
      simp only [getContour_val, row_val, Option.bind_some]
      rw [countSiblings_of_walk hwf.previous (hwf.previous c) hbefore
        (fun j hj => hpos j (List.mem_append_left _ hj)) (by omega), Option.bind_some,
        countSiblings_of_walk hwf.next (hwf.next c) hafter
        (fun j hj => hpos j (List.mem_append_right _ (List.mem_cons_of_mem c hj))) (by omega),
        keptChildren_eq_countP hperm, List.countP_append, List.countP_cons]
      change some ((if t.keeps c = true then (1 : ℤ) else 0) + _ + _) = _
      push_cast
      congr 1
      ring

/-- **The number of kept children**, from the table itself: the loops end
after at most as many rounds as there are contours, and what they count are
the rows whose parent is `i` and whose contour is kept. -/
theorem countChilds_counts (hwf : t.WellFormed) (i : Fin n) {fuel : ℕ} (hfuel : n < fuel) :
    t.countChilds fuel i.val =
      some ((Finset.univ.filter fun j => (t.hierarchy j).parent = i.val ∧
        keep t.boxes t.imgX t.imgY (t.contours j) = true).card : ℤ) := by
  have hcard : t.keptChildren i = (Finset.univ.filter fun j => (t.hierarchy j).parent = i.val ∧
      keep t.boxes t.imgX t.imgY (t.contours j) = true).card := by
    have hnodup := (List.nodup_finRange n).filter
      fun j => decide (t.link Vec4i.parent j = some i) && t.keeps j
    unfold keptChildren
    rw [List.countP_eq_length_filter, ← List.toFinset_card_of_nodup hnodup]
    congr 1
    ext j
    simp [link_eq_some_iff, keeps]
  rw [countChilds_eq hwf i hfuel, hcard]

/-- The outline of a square, from its upper left corner downwards. -/
def squareOutline (x y : ℤ) (side : ℕ) : List (Point ℤ) :=
  ((List.range side).map fun i => ⟨x, y + i⟩) ++
  ((List.range side).map fun i => ⟨x + i, y + side⟩) ++
  ((List.range side).map fun i => ⟨x + side, y + side - i⟩) ++
  (List.range side).map fun i => ⟨x + side - i, y⟩

/-- A frame with three letters in it. -/
def frameOfThree : ContourTree 4 where
  boxes := leastBoxes
  imgX := 40
  imgY := 40
  contours := ![squareOutline 2 2 30, squareOutline 5 5 4, squareOutline 12 5 4,
    squareOutline 19 5 4]
  hierarchy := ![⟨-1, -1, 1, -1⟩, ⟨2, -1, -1, 0⟩, ⟨3, 1, -1, 0⟩, ⟨-1, 2, -1, 0⟩]

theorem wellFormed_frameOfThree : frameOfThree.WellFormed where
  next := by decide
  previous := by decide
  child := by decide
  parent := by decide
  siblings := DoublyLinked.of_lt (by decide) (by decide)
  sameParent := by decide
  parentOfChild := by decide
  childOfParent := by decide
  oneList := by decide
  root := by decide

theorem countChilds_counts_frame :
    frameOfThree.countChilds 5 (0 : Fin 4).val =
      some ((Finset.univ.filter fun j => (frameOfThree.hierarchy j).parent = (0 : Fin 4).val ∧
        keep leastBoxes 40 40 (frameOfThree.contours j) = true).card : ℤ) :=
  countChilds_counts wellFormed_frameOfThree 0 (by decide)

/-! ## Selecting -/

/-- A character stands alone or among more than two others, and has at most two
contours inside. -/
def IsCharacter (t : ContourTree n) (i : Fin n) : Prop :=
  (t.link Vec4i.parent i = none ∨
    ∃ p, t.link Vec4i.parent i = some p ∧ 2 < t.keptChildren p) ∧
  t.keptChildren i ≤ 2

/-- `include_box` returns, and with `true` exactly for a character. -/
def SelectsRightly (t : ContourTree n) (i : Fin n) : Prop :=
  ∀ fuel, n < fuel → ∃ b, t.includeBox fuel i.val = some b ∧ (b = true ↔ t.IsCharacter i)

/-- `is_child` tests the parent for being positive, and so passes over parent
0. -/
theorem isChild_val : t.isChild i.val = some (decide (0 < (t.hierarchy i).parent)) := by
  simp [isChild, getParent]

/-- The first test looks at a parent that is not contour 0, and counts that
one's kept children. -/
theorem hasFewSiblings_eq (hwf : t.WellFormed) (i : Fin n) {fuel : ℕ} (hfuel : n < fuel) :
    ∃ b, t.hasFewSiblings fuel i.val = some b ∧ (b = true ↔
      ∃ p, t.link Vec4i.parent i = some p ∧ p.val ≠ 0 ∧ t.keptChildren p ≤ 2) := by
  unfold hasFewSiblings
  simp only [isChild_val, Option.bind_eq_bind, Option.bind_some, decide_eq_true_eq]
  by_cases hchild : 0 < (t.hierarchy i).parent
  · obtain ⟨p, hp⟩ : ∃ p, t.link Vec4i.parent i = some p := by
      rw [← Option.ne_none_iff_exists']
      rw [Ne, link_eq_none_iff (hwf.parent i)]
      omega
    have hindex := link_eq_some_iff.mp hp
    rw [if_pos hchild]
    simp only [getParent, row_val, Option.map_some, Option.bind_some, hindex, getContour_val,
      countChilds_eq hwf p hfuel]
    refine ⟨_, rfl, ?_⟩
    rw [decide_eq_true_eq]
    constructor
    · intro hcount
      exact ⟨p, hp, by omega, by omega⟩
    · intro ⟨q, hq, _, hcount⟩
      obtain rfl : p = q := Option.some.inj (hp.symm.trans hq)
      omega
  · rw [if_neg hchild]
    refine ⟨false, rfl, iff_of_false Bool.false_ne_true ?_⟩
    intro ⟨p, hp, hne, _⟩
    rw [link_eq_some_iff] at hp
    omega

/-- What `include_box` computes: the siblings do not rule the contour out, nor
do its own children. -/
theorem includeBox_eq (hwf : t.WellFormed) (i : Fin n) {fuel : ℕ} (hfuel : n < fuel) :
    ∃ b, t.includeBox fuel i.val = some b ∧ (b = true ↔
      (¬ ∃ p, t.link Vec4i.parent i = some p ∧ p.val ≠ 0 ∧ t.keptChildren p ≤ 2) ∧
        t.keptChildren i ≤ 2) := by
  obtain ⟨few, hrun, hfew⟩ := hasFewSiblings_eq hwf i hfuel
  unfold includeBox
  simp only [hrun, countChilds_eq hwf i hfuel, Option.bind_eq_bind, Option.bind_some]
  cases few with
  | true => exact ⟨false, rfl, iff_of_false Bool.false_ne_true fun h => h.1 (hfew.mp rfl)⟩
  | false =>
      rw [if_neg Bool.false_ne_true]
      have hnot := fun h => Bool.false_ne_true (hfew.mpr h)
      by_cases hcount : (t.keptChildren i : ℤ) > 2
      · rw [if_pos hcount]
        exact ⟨false, rfl, iff_of_false Bool.false_ne_true fun h => by omega⟩
      · rw [if_neg hcount]
        exact ⟨true, rfl, iff_of_true rfl ⟨hnot, by omega⟩⟩

/-- **When a contour is selected rightly.**  Always, unless its parent is
contour 0 and neither of them has more than two kept children: `is_child`
takes such a contour for a root, so its few siblings are not counted. -/
theorem selectsRightly_iff (hwf : t.WellFormed) (i : Fin n) :
    t.SelectsRightly i ↔ ¬ ∃ p, t.link Vec4i.parent i = some p ∧ p.val = 0 ∧
      t.keptChildren p ≤ 2 ∧ t.keptChildren i ≤ 2 := by
  constructor
  · intro hright ⟨p, hp, hzero, hfew, hown⟩
    obtain ⟨b, hb, hcharacter⟩ := hright (n + 1) n.lt_succ_self
    obtain ⟨b', hb', hcode⟩ := includeBox_eq hwf i n.lt_succ_self
    obtain rfl : b = b' := Option.some.inj (hb.symm.trans hb')
    have hselected : b = true := by
      apply hcode.mpr
      refine ⟨fun ⟨q, hq, hne, _⟩ => ?_, hown⟩
      obtain rfl : p = q := Option.some.inj (hp.symm.trans hq)
      exact hne hzero
    rcases (hcharacter.mp hselected).1 with hroot | ⟨q, hq, hmany⟩
    · cases hp.symm.trans hroot
    · obtain rfl : p = q := Option.some.inj (hp.symm.trans hq)
      omega
  · intro hnot fuel hfuel
    obtain ⟨b, hb, hcode⟩ := includeBox_eq hwf i hfuel
    refine ⟨b, hb, hcode.trans ?_⟩
    unfold IsCharacter
    cases hparent : t.link Vec4i.parent i with
    | none => simp
    | some p =>
        have hp := hnot
        simp only [hparent, Option.some.injEq, exists_eq_left', not_and, not_le] at hp ⊢
        grind

/-- Each of the three letters is selected. -/
theorem selectsRightly_letter : frameOfThree.SelectsRightly 1 := by
  apply (selectsRightly_iff wellFormed_frameOfThree 1).mpr
  intro ⟨p, hp, _, hfew, _⟩
  have hframe : frameOfThree.link Vec4i.parent 1 = some 0 := by decide
  obtain rfl : p = 0 := Option.some.inj (hp.symm.trans hframe)
  have hcount : frameOfThree.keptChildren 0 = 3 := by decide +kernel
  omega

/-- A frame with one letter in it. -/
def frameOfOne : ContourTree 2 where
  boxes := leastBoxes
  imgX := 40
  imgY := 40
  contours := ![squareOutline 2 2 30, squareOutline 12 5 4]
  hierarchy := ![⟨-1, -1, 1, -1⟩, ⟨-1, -1, -1, 0⟩]

theorem wellFormed_frameOfOne : frameOfOne.WellFormed where
  next := by decide
  previous := by decide
  child := by decide
  parent := by decide
  siblings := DoublyLinked.of_lt (by decide) (by decide)
  sameParent := by decide
  parentOfChild := by decide
  childOfParent := by decide
  oneList := by decide
  root := by decide

/-- The letter is selected, although it is the only one in its parent: that is
contour 0. -/
theorem not_selectsRightly :
    frameOfOne.WellFormed ∧ ¬ frameOfOne.SelectsRightly 1 := by
  constructor
  · exact wellFormed_frameOfOne
  · intro hright
    obtain ⟨b, hb, hcharacter⟩ := hright 3 (by decide)
    have hselected : frameOfOne.includeBox 3 (1 : Fin 2).val = some true := by decide +kernel
    rw [hselected] at hb
    rcases (hcharacter.mp (Option.some.inj hb).symm).1 with hroot | ⟨p, hp, hmany⟩
    · have hframe : frameOfOne.link Vec4i.parent 1 = some 0 := by decide
      cases hroot.symm.trans hframe
    · have hframe : frameOfOne.link Vec4i.parent 1 = some 0 := by decide
      obtain rfl : p = 0 := Option.some.inj (hp.symm.trans hframe)
      have hcount : frameOfOne.keptChildren 0 = 1 := by decide +kernel
      omega

end ContourTree

end CardScanner
