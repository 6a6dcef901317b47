import CardScanner.LineRuns
import CardScanner.Machine
import CardScanner.RunningStats
import Mathlib.Data.Rat.Floor
import Mathlib.Tactic.IntervalCases

/-!
# The two scanning directions

`pixMakeBlurMask` measures how steep the edges of a gray picture are.  A pixel
of an edge is an OFF pixel of a mask; a run of them is measured by the gray
values just outside its two ends.  From left to right the loop moves its index
behind the run it has measured; from top to bottom it switches the run's pixels
on in the mask it is scanning.

Along one line both loops measure the runs of `LineRuns.starts`, each once.
For the first, a mask pixel at the index is the first of a run, since what lies
before the index is no mask pixel or has been measured (`measureRow_eq`).  For
the second, the mask at or behind the index is the original less the run
measured last (`Erased`, `measureDown_column`), and the columns still to come
are untouched.  So both are one traversal of the same list
(`leftToRight_eq`, `topToBottom_eq`), and one is the other on the transposed
pictures.
-/

namespace CardScanner

open LineRuns Machine

/-! ## Pictures -/

/-- A picture's pixels, by column and row. -/
structure Pix (α : Type*) (width height : Nat) where
  pixel : Fin width → Fin height → α

namespace Pix

variable {α : Type*} {width height : Nat}

/-- A read of the pixel in column `x` and row `y`, if the picture has it. -/
def get (pix : Pix α width height) (x y : Nat) : Option α :=
  if h : x < width ∧ y < height then some (pix.pixel ⟨x, h.1⟩ ⟨y, h.2⟩) else none

/-- `SET_DATA_BIT`, `SET_DATA_BYTE`. -/
def set (pix : Pix α width height) (x y : Nat) (v : α) : Pix α width height where
  pixel := fun i j => if i.val = x ∧ j.val = y then v else pix.pixel i j

/-- The picture with rows and columns exchanged. -/
def transpose (pix : Pix α width height) : Pix α height width where
  pixel := fun i j => pix.pixel j i

/-- Reading a transposed picture is reading the picture with the coordinates
exchanged, outside of it as well. -/
@[simp] theorem get_transpose (pix : Pix α width height) (x y : Nat) :
    pix.transpose.get y x = pix.get x y := by
  simp only [get, transpose]
  by_cases h : x < width ∧ y < height
  · rw [dif_pos h, dif_pos h.symm]
  · rw [dif_neg h, dif_neg fun h' => h h'.symm]

theorem get_eq_some (pix : Pix α width height) {x y : Nat} (hx : x < width) (hy : y < height) :
    ∃ v, pix.get x y = some v :=
  ⟨_, dif_pos ⟨hx, hy⟩⟩

theorem get_eq_none {pix : Pix α width height} {x y : Nat} :
    pix.get x y = none ↔ width ≤ x ∨ height ≤ y := by
  rw [get, dite_eq_right_iff]
  constructor
  · intro h
    by_contra hin
    exact absurd (h ⟨by omega, by omega⟩) (by simp)
  · intro h hin
    omega

/-- A write changes the one pixel. -/
theorem get_set {pix : Pix α width height} {x y : Nat} (v : α) (x' y' : Nat) :
    (pix.set x y v).get x' y' =
      if x' = x ∧ y' = y ∧ x < width ∧ y < height then some v else pix.get x' y' := by
  unfold get set
  by_cases hin : x' < width ∧ y' < height
  · rw [dif_pos hin, dif_pos hin]
    by_cases hhere : x' = x ∧ y' = y
    · rw [if_pos (by omega)]
      exact congrArg some (if_pos hhere)
    · rw [if_neg (by omega)]
      exact congrArg some (if_neg hhere)
  · rw [dif_neg hin, dif_neg hin, if_neg (by omega)]

end Pix

/-! ## The source -/

section Source

variable {width height : Nat}

/-- `pixGetPixel` of a picture of one bit: outside, the value is 0. -/
def pixGetPixel (pixs : Pix Bool width height) (x y : Nat) : Bool := (pixs.get x y).getD false

/-- The OFF pixels of a row. -/
def offRow (pixs : Pix Bool width height) (y : Nat) : Nat → Bool := fun x => !pixGetPixel pixs x y

/-- The OFF pixels of a column. -/
def offColumn (pixs : Pix Bool width height) (x : Nat) : Nat → Bool :=
  fun y => !pixGetPixel pixs x y

inductive Direction where
  | L_FROM_LEFT
  | L_FROM_TOP

/-- `pixGetLastOffPixelInRun`: the walk stops at the first ON pixel or at the
end of the picture, and the pixel before is the last of the run. -/
def pixGetLastOffPixelInRun (pixs : Pix Bool width height) (x y : Nat) : Direction → Nat
  | .L_FROM_LEFT => skip (offRow pixs y) (width - x) x - 1
  | .L_FROM_TOP => skip (offColumn pixs x) (height - y) y - 1

/-- What is computed of one run: where it lies, `edgeWidth` and the slope that
is pushed. -/
structure EdgeMeasure where
  line : Nat
  first : Nat
  last : Nat
  edgeWidth : UInt8
  slope : ℚ
  deriving DecidableEq, Repr

/-- The arithmetic of both passes.  `edgeWidth` is an `l_uint8`; the division
by it is one of `int`s, undefined for 0. -/
def measureEdge (line first last : Nat) (leftColor rightColor : UInt8) : Option EdgeMeasure :=
  let edgeWidth := UInt8.ofNat (last - first + 1)
  let intensity := ((rightColor.toNat : ℤ) - leftColor.toNat).natAbs
  if edgeWidth = 0 then none
  else
    let slope : ℚ := (intensity / edgeWidth.toNat : ℕ) / 255
    some { line, first, last, edgeWidth, slope }

/-- The run from `x` to `right` of row `y`, with the reads of its neighbours. -/
def edgeOfRow (pixMedian : Pix UInt8 width height) (y x right : Nat) : Option EdgeMeasure := do
  let leftColor ← pixMedian.get (right + 1) y
  let rightColor ← pixMedian.get (x - 1) y
  measureEdge y x right leftColor rightColor

/-- The run from `y` to `bottom` of column `x`, with the reads of its
neighbours. -/
def edgeOfColumn (pixMedian : Pix UInt8 width height) (x y bottom : Nat) :
    Option EdgeMeasure := do
  let leftColor ← pixMedian.get x (y - 1)
  let rightColor ← pixMedian.get x (bottom + 1)
  measureEdge x y bottom leftColor rightColor

/-- The inner loop of the first pass, over `x`: `none` where a read is outside
the picture or a division by zero, and when the fuel runs out. -/
def measureRow (pixMedian : Pix UInt8 width height) (pixBinaryy : Pix Bool width height)
    (y : Nat) : Nat → Nat → List EdgeMeasure → Option (List EdgeMeasure)
  | 0, _, _ => none
  | fuel + 1, x, stats =>
      if x < width - 1 then
        match pixBinaryy.get x y with
        | none => none
        | some true => measureRow pixMedian pixBinaryy y fuel (x + 1) stats
        | some false => do
            let right := pixGetLastOffPixelInRun pixBinaryy x y .L_FROM_LEFT
            let m ← edgeOfRow pixMedian y x right
            -- `x = right`, and the loop's own `x++`
            measureRow pixMedian pixBinaryy y fuel (right + 1) (stats ++ [m])
      else some stats

/-- The first pass: what it pushes, in order. -/
def leftToRight (pixMedian : Pix UInt8 width height) (pixBinaryy : Pix Bool width height) :
    Option (List EdgeMeasure) :=
  (List.range' 1 (height - 2)).foldlM
    (fun stats y => measureRow pixMedian pixBinaryy y (width + 1) 1 stats) []

/-- The body of the second pass at `(x, y)`, on the mask as it is by then. -/
def measureDown (pixMedian : Pix UInt8 width height) (x : Nat)
    (s : Pix Bool width height × List EdgeMeasure) (y : Nat) :
    Option (Pix Bool width height × List EdgeMeasure) :=
  match s.1.get x y with
  | none => none
  | some true => some s
  | some false => do
      let bottom := pixGetLastOffPixelInRun s.1 x y .L_FROM_TOP
      let m ← edgeOfColumn pixMedian x y bottom
      let pixBinaryx := (List.range' y (bottom + 1 - y)).foldl (fun p i => p.set x i true) s.1
      some (pixBinaryx, s.2 ++ [m])

/-- The second pass: what it pushes, in order. -/
def topToBottom (pixMedian : Pix UInt8 width height) (pixBinaryx : Pix Bool width height) :
    Option (List EdgeMeasure) :=
  ((List.range' 1 (width - 2)).foldlM
    (fun s x => (List.range' 1 (height - 2)).foldlM (measureDown pixMedian x) s)
    (pixBinaryx, [])).map Prod.snd

end Source

section Scans

variable {width height : Nat}

/-! ## One line -/

/-- A place of a row at which the mask is OFF, and there is one. -/
theorem offRow_eq_true {pixs : Pix Bool width height} {x y : Nat} (hx : x < width)
    (hy : y < height) : offRow pixs y x = true ↔ pixs.get x y = some false := by
  obtain ⟨v, hv⟩ := Pix.get_eq_some pixs hx hy
  simp [offRow, pixGetPixel, hv]

theorem offColumn_eq_true {pixs : Pix Bool width height} {x y : Nat} (hx : x < width)
    (hy : y < height) : offColumn pixs x y = true ↔ pixs.get x y = some false := by
  obtain ⟨v, hv⟩ := Pix.get_eq_some pixs hx hy
  simp [offColumn, pixGetPixel, hv]

/-- The rows of the transposed mask are the columns of the mask: this is how
one pass is compared with the other. -/
theorem offRow_transpose (pixs : Pix Bool width height) (x : Nat) :
    offRow pixs.transpose x = offColumn pixs x := by
  funext y
  simp [offColumn, offRow, pixGetPixel]

/-- Measuring on the transposed picture is the same: the two neighbours are
read in the other order, which their distance does not see. -/
theorem edgeOfColumn_transpose (pixMedian : Pix UInt8 width height) (y x right : Nat) :
    edgeOfColumn pixMedian.transpose y x right = edgeOfRow pixMedian y x right := by
  unfold edgeOfColumn edgeOfRow
  rw [Pix.get_transpose, Pix.get_transpose]
  cases pixMedian.get (x - 1) y with
  | none => cases pixMedian.get (right + 1) y <;> rfl
  | some before =>
      cases pixMedian.get (right + 1) y with
      | none => rfl
      | some behind =>
          have hdist : ((behind.toNat : ℤ) - before.toNat).natAbs =
              ((before.toNat : ℤ) - behind.toNat).natAbs := by omega
          simp only [Option.bind_eq_bind, Option.bind_some, measureEdge, hdist]

/-- The run that begins at a place, measured. -/
def edgeFrom (pixMedian : Pix UInt8 width height) (pixs : Pix Bool width height)
    (p : Nat × Nat) : Option EdgeMeasure :=
  edgeOfRow pixMedian p.1 p.2 (skip (offRow pixs p.1) (width - p.2) p.2 - 1)

/-- The places, by line and position on it, where the runs of the interior
begin. -/
def interiorStarts (pixs : Pix Bool width height) : List (Nat × Nat) :=
  (List.range' 1 (height - 2)).flatMap fun y =>
    (starts (offRow pixs y) 1 1 (width - 2)).map (Prod.mk y)

/-- The first pass along a row.  A mask pixel at the index is the first of a
run, since no run goes on from before it; behind that pixel the rest of its
run is passed over, and nothing of it lies further on. -/
theorem measureRow_eq (pixMedian : Pix UInt8 width height) {pixs : Pix Bool width height}
    {y : Nat} (hy : y < height) {fuel x : Nat} (hfuel : 0 < fuel) (hwidth : width ≤ fuel + x)
    (hx : 1 ≤ x)
    (hstart : x < width → offRow pixs y x = true → isStart (offRow pixs y) 1 x = true)
    (stats : List EdgeMeasure) :
    measureRow pixMedian pixs y fuel x stats =
      collect (edgeFrom pixMedian pixs)
        ((starts (offRow pixs y) 1 x (width - 1 - x)).map (Prod.mk y)) stats := by
  induction fuel generalizing x stats with
  | zero => omega
  | succ fuel ih =>
      unfold measureRow
      by_cases hin : x < width - 1
      · obtain ⟨k, hk⟩ : ∃ k, width - 1 - x = k + 1 := ⟨width - 1 - x - 1, by omega⟩
        have hxw : x < width := by omega
        obtain ⟨v, hv⟩ := Pix.get_eq_some pixs hxw hy
        rw [if_pos hin, hk]
        cases v with
        | true =>
            have hoff : offRow pixs y x = false := by
              rw [← Bool.not_eq_true, offRow_eq_true hxw hy, hv]
              simp
            have hnot : isStart (offRow pixs y) 1 x = false := by simp [isStart, hoff]
            rw [starts_succ, hnot, if_neg Bool.false_ne_true]
            simp only [hv]
            rw [ih (by omega) (by omega) (by omega) (fun _ => isStart_succ hoff),
              show width - 1 - (x + 1) = k by omega]
        | false =>
            have hfirst := hstart hxw ((offRow_eq_true hxw hy).mpr hv)
            have hrun := isRun_of_isStart hx hxw hfirst
            have hle := hrun.le
            have hlt := hrun.lt
            simp only [hv, pixGetLastOffPixelInRun]
            rw [hrun.starts_eq, List.map_cons, collect_cons]
            set right := skip (offRow pixs y) (width - x) x - 1
            have hedge : edgeFrom pixMedian pixs (y, x) = edgeOfRow pixMedian y x right := rfl
            rw [hedge, show x + k - right = width - 1 - (right + 1) by omega]
            exact congrArg _ (funext fun m => ih (by omega) (by omega) (by omega)
              hrun.isStart_behind (stats ++ [m]))
      · rw [if_neg hin, Nat.sub_eq_zero_of_le (by omega), starts_zero, List.map_nil,
          collect_nil]

/-- **The first pass** measures the run at each of the places, in order.  Rows
are taken one after the other, and what a row appends does not depend on the
rows before it. -/
theorem leftToRight_eq (pixMedian : Pix UInt8 width height) (pixs : Pix Bool width height) :
    leftToRight pixMedian pixs = (interiorStarts pixs).mapM (edgeFrom pixMedian pixs) := by
  unfold leftToRight interiorStarts
  rw [← collect_empty]
  refine foldlM_eq_collect _ _ (fun y hy stats => ?_) []
  rw [List.mem_range'_1] at hy
  rw [measureRow_eq pixMedian (by omega) (Nat.succ_pos width) (by omega) le_rfl
    (fun _ h => isStart_iff.mpr ⟨h, Or.inl rfl⟩), Nat.sub_sub]

/-! ## The second pass -/

/-- Switching on pixels of a column. -/
theorem get_foldl_set {pixs : Pix Bool width height} {x : Nat} {l : List Nat} (x' y' : Nat) :
    (l.foldl (fun p i => p.set x i true) pixs).get x' y' =
      if x' = x ∧ y' ∈ l ∧ x < width ∧ y' < height then some true else pixs.get x' y' := by
  induction l generalizing pixs with
  | nil => simp
  | cons i l ih =>
      rw [List.foldl_cons, ih, Pix.get_set]
      grind

/-- The column is scanned without touching the others: only pixels of its own
are erased. -/
theorem measureDown_frame {pixMedian : Pix UInt8 width height} {x : Nat}
    {s t : Pix Bool width height × List EdgeMeasure} {y : Nat}
    (h : measureDown pixMedian x s y = some t) {x' : Nat} (hx' : x' ≠ x) :
    offColumn t.1 x' = offColumn s.1 x' := by
  unfold measureDown at h
  cases hv : s.1.get x y with
  | none => simp [hv] at h
  | some v =>
      cases v with
      | true =>
          simp only [hv, Option.some.injEq] at h
          rw [h]
      | false =>
          simp only [hv, Option.bind_eq_bind, Option.bind_eq_some_iff, Option.some.injEq] at h
          obtain ⟨m, _, rfl⟩ := h
          funext q
          simp [offColumn, pixGetPixel, get_foldl_set, hx']

/-- Setting the pixels of a run ends the run, and changes no other place of its
column. -/
theorem offColumn_foldl_set {pixs : Pix Bool width height} {x y bottom q : Nat} (hx : x < width)
    (hq : q < height) :
    offColumn ((List.range' y (bottom + 1 - y)).foldl (fun p i => p.set x i true) pixs) x q =
      (offColumn pixs x q && !decide (y ≤ q ∧ q ≤ bottom)) := by
  have hmem : q ∈ List.range' y (bottom + 1 - y) ↔ y ≤ q ∧ q ≤ bottom := by
    rw [List.mem_range'_1]
    omega
  simp only [offColumn, pixGetPixel, get_foldl_set, hmem, hx, hq, and_self, and_true, true_and]
  by_cases h : y ≤ q ∧ q ≤ bottom <;> simp [h]

/-- One step of the second pass, at a pixel of the mask. -/
theorem measureDown_off {pixMedian : Pix UInt8 width height} {x y : Nat}
    {s : Pix Bool width height × List EdgeMeasure} (hv : s.1.get x y = some false) :
    measureDown pixMedian x s y =
      (edgeOfColumn pixMedian x y (pixGetLastOffPixelInRun s.1 x y .L_FROM_TOP)).map fun m =>
        ((List.range' y (pixGetLastOffPixelInRun s.1 x y .L_FROM_TOP + 1 - y)).foldl
          (fun p i => p.set x i true) s.1, s.2 ++ [m]) := by
  unfold measureDown
  simp only [hv]
  cases edgeOfColumn pixMedian x y (pixGetLastOffPixelInRun s.1 x y .L_FROM_TOP) with
  | none => rfl
  | some m => rfl

/-- The edge that begins at a place of a column. -/
theorem edgeFrom_transpose (pixMedian : Pix UInt8 width height) (pixs : Pix Bool width height)
    (x y : Nat) :
    edgeFrom pixMedian.transpose pixs.transpose (x, y) =
      edgeOfColumn pixMedian x y (skip (offColumn pixs x) (height - y) y - 1) := by
  unfold edgeFrom
  rw [offRow_transpose, ← edgeOfColumn_transpose]
  rfl

/-- The second pass down a column.  What it comes upon in the mask as it is by
then is the first pixel of a run of the original. -/
theorem measureDown_column (pixMedian : Pix UInt8 width height) (pixs : Pix Bool width height)
    {x : Nat} (hx : x < width) {k y r : Nat} (hy : 1 ≤ y) (hk : ∀ i, i < k → y + i < height)
    {s : Pix Bool width height × List EdgeMeasure}
    (hs : Erased (offColumn pixs x) (offColumn s.1 x) 1 height y r) :
    ((List.range' y k).foldlM (measureDown pixMedian x) s).map Prod.snd =
      collect (edgeFrom pixMedian.transpose pixs.transpose)
        ((starts (offColumn pixs x) 1 y k).map (Prod.mk x)) s.2 := by
  induction k generalizing y r s with
  | zero => simp
  | succ k ih =>
      have hyh : y < height := hk 0 (Nat.succ_pos k)
      have hk' : ∀ i, i < k → y + 1 + i < height := by
        intro i hi
        have := hk (i + 1) (by omega)
        omega
      obtain ⟨v, hv⟩ := Pix.get_eq_some s.1 hx hyh
      rw [List.range'_succ, List.foldlM_cons, starts_succ]
      cases v with
      | true =>
          have hcur : offColumn s.1 x y = false := by
            rw [← Bool.not_eq_true, offColumn_eq_true hx hyh, hv]
            simp
          have hnot : ¬ isStart (offColumn pixs x) 1 y = true := by
            rw [← hs.passes_iff hyh, hcur]
            exact Bool.false_ne_true
          have hstep : measureDown pixMedian x s y = some s := by simp [measureDown, hv]
          rw [if_neg hnot, hstep]
          exact ih (by omega) hk' (hs.pass hyh hcur)
      | false =>
          have hcur : offColumn s.1 x y = true := (offColumn_eq_true hx hyh).mpr hv
          have hfirst := (hs.passes_iff hyh).mp hcur
          have hrun := isRun_of_isStart hy hyh hfirst
          rw [if_pos hfirst, List.map_cons, collect_cons]
          set bottom := skip (offColumn pixs x) (height - y) y - 1
          have hbottom : pixGetLastOffPixelInRun s.1 x y .L_FROM_TOP = bottom := by
            simp only [pixGetLastOffPixelInRun, hs.skip_eq hyh hcur]
            rfl
          rw [edgeFrom_transpose, measureDown_off hv, hbottom]
          cases edgeOfColumn pixMedian x y bottom with
          | none => rfl
          | some m =>
              exact ih (by omega) hk' (hs.erase hcur hrun fun q hq => offColumn_foldl_set hx hq)

/-- The pass over columns measures the runs of the original mask, although it
erases what it has measured: columns still to come are as they were. -/
theorem measureDown_columns (pixMedian : Pix UInt8 width height) (pixs : Pix Bool width height)
    {k x : Nat} (hx : ∀ i, i < k → x + i < width)
    {s : Pix Bool width height × List EdgeMeasure}
    (hs : ∀ x', x ≤ x' → offColumn s.1 x' = offColumn pixs x') :
    ((List.range' x k).foldlM
      (fun s x => (List.range' 1 (height - 2)).foldlM (measureDown pixMedian x) s) s).map
        Prod.snd =
      collect (edgeFrom pixMedian.transpose pixs.transpose)
        ((List.range' x k).flatMap fun x =>
          (starts (offColumn pixs x) 1 1 (height - 2)).map (Prod.mk x)) s.2 := by
  induction k generalizing x s with
  | zero => simp
  | succ k ih =>
      have hxw : x < width := hx 0 (Nat.succ_pos k)
      have hx' : ∀ i, i < k → x + 1 + i < width := by
        intro i hi
        have := hx (i + 1) (by omega)
        omega
      have hself : Erased (offColumn pixs x) (offColumn s.1 x) 1 height 1 0 := by
        rw [hs x le_rfl]
        exact erased_self Nat.one_pos
      have hcolumn := measureDown_column pixMedian pixs hxw (k := height - 2) le_rfl (by omega)
        hself
      rw [List.range'_succ, List.foldlM_cons, List.flatMap_cons, collect_append, ← hcolumn]
      cases hrun : (List.range' 1 (height - 2)).foldlM (measureDown pixMedian x) s with
      | none => rfl
      | some t =>
          refine ih hx' fun x' hlt => ?_
          refine Machine.foldlM_invariant (P := fun s : Pix Bool width height × _ =>
            offColumn s.1 x' = offColumn pixs x') ?_ hrun (hs x' (by omega))
          intro s y t hs hstep
          exact (measureDown_frame hstep (by omega)).trans hs

/-- **The second pass** measures the run at each of the places of the
transposed mask, in order.  It sets the mask along each run that it has
measured, which takes away no place still to come. -/
theorem topToBottom_eq (pixMedian : Pix UInt8 width height) (pixs : Pix Bool width height) :
    topToBottom pixMedian pixs =
      (interiorStarts pixs.transpose).mapM (edgeFrom pixMedian.transpose pixs.transpose) := by
  unfold topToBottom interiorStarts
  rw [measureDown_columns pixMedian pixs (by omega) (fun _ _ => rfl), collect_empty]
  simp only [offRow_transpose]

/-- **The passes agree**: the second is the first on the transposed pictures.
Both go through the same list of places. -/
theorem topToBottom_eq_leftToRight (pixMedian : Pix UInt8 width height)
    (pixs : Pix Bool width height) :
    topToBottom pixMedian pixs = leftToRight pixMedian.transpose pixs.transpose := by
  rw [topToBottom_eq, leftToRight_eq]

/-! ## What is measured -/

/-- The pass makes no read outside the picture and no division by zero, and
every `edgeWidth` is the length of the run it was computed for. -/
def Measured (stats : Option (List EdgeMeasure)) : Prop :=
  ∃ ms, stats = some ms ∧ ∀ m ∈ ms, m.edgeWidth.toNat = m.last - m.first + 1

/-- Where a measured edge is, and the byte of its width. -/
theorem measureEdge_place {line first last : Nat} {a b : UInt8} {m : EdgeMeasure}
    (h : measureEdge line first last a b = some m) :
    m.line = line ∧ m.first = first ∧ m.last = last ∧
      m.edgeWidth = UInt8.ofNat (last - first + 1) := by
  simp only [measureEdge] at h
  split at h
  · exact absurd h (by simp)
  · cases h
    exact ⟨rfl, rfl, rfl, rfl⟩

theorem measureEdge_slope {line first last : Nat} {a b : UInt8} {m : EdgeMeasure}
    (h : measureEdge line first last a b = some m) :
    m.slope = (((b.toNat : ℤ) - a.toNat).natAbs / m.edgeWidth.toNat : ℕ) / 255 := by
  simp only [measureEdge] at h
  split at h
  · exact absurd h (by simp)
  · cases h
    rfl

/-- The edge that is measured for a run of a row lies where the run does. -/
theorem edgeOfRow_place {pixMedian : Pix UInt8 width height} {y x right : Nat} {m : EdgeMeasure}
    (h : edgeOfRow pixMedian y x right = some m) :
    m.line = y ∧ m.first = x ∧ m.last = right ∧ m.edgeWidth = UInt8.ofNat (right - x + 1) := by
  simp only [edgeOfRow, Option.bind_eq_bind, Option.bind_eq_some_iff] at h
  obtain ⟨_, _, _, _, hm⟩ := h
  exact measureEdge_place hm

/-- The division is defined for a run of less than 256 pixels. -/
theorem exists_measureEdge (line : Nat) {first last : Nat} (hle : first ≤ last)
    (hlen : last + 1 < first + 256) (a b : UInt8) :
    ∃ m, measureEdge line first last a b = some m := by
  have hne : UInt8.ofNat (last - first + 1) ≠ 0 := by
    intro hzero
    have hwidth := congrArg UInt8.toNat hzero
    rw [UInt8.toNat_ofNat', Nat.mod_eq_of_lt (by omega)] at hwidth
    simp at hwidth
  exact ⟨_, if_neg hne⟩

/-- A run is measured as it should be exactly if there is a pixel behind it and
its length is below 256. -/
theorem edgeOfRow_iff (pixMedian : Pix UInt8 width height) {y x right : Nat} (hy : y < height)
    (hx : x ≤ right) :
    (∃ m, edgeOfRow pixMedian y x right = some m ∧
        m.edgeWidth.toNat = m.last - m.first + 1) ↔
      right + 1 < width ∧ right + 1 < x + 256 := by
  constructor
  · rintro ⟨m, hm, hwidth⟩
    obtain ⟨-, hfirst, hlast, hedge⟩ := edgeOfRow_place hm
    rw [hedge, hfirst, hlast, UInt8.toNat_ofNat'] at hwidth
    refine ⟨?_, by omega⟩
    by_contra hend
    have hnone : pixMedian.get (right + 1) y = none := Pix.get_eq_none.mpr (by omega)
    simp [edgeOfRow, hnone] at hm
  · rintro ⟨hend, hlen⟩
    obtain ⟨a, ha⟩ := Pix.get_eq_some pixMedian hend hy
    obtain ⟨b, hb⟩ := Pix.get_eq_some pixMedian (show x - 1 < width by omega) hy
    obtain ⟨m, hm⟩ := exists_measureEdge y hx hlen a b
    obtain ⟨-, hfirst, hlast, hedge⟩ := measureEdge_place hm
    refine ⟨m, by simp [edgeOfRow, ha, hb, hm], ?_⟩
    rw [hedge, hfirst, hlast, UInt8.toNat_ofNat']
    exact Nat.mod_eq_of_lt (by omega)

/-- The starts of runs that the loops meet: neither in the first or last row
nor at the sides. -/
theorem mem_interiorStarts {pixs : Pix Bool width height} {p : Nat × Nat} :
    p ∈ interiorStarts pixs ↔
      (0 < p.1 ∧ p.1 + 1 < height) ∧ p.2 ∈ starts (offRow pixs p.1) 1 1 (width - 2) := by
  unfold interiorStarts
  simp only [List.mem_flatMap, List.mem_range'_1, List.mem_map, Prod.ext_iff]
  constructor
  · rintro ⟨y, hy, x, hx, rfl, rfl⟩
    exact ⟨by omega, hx⟩
  · rintro ⟨hy, hx⟩
    exact ⟨p.1, by omega, p.2, hx, rfl, rfl⟩

theorem nodup_interiorStarts (pixs : Pix Bool width height) : (interiorStarts pixs).Nodup := by
  unfold interiorStarts
  refine List.nodup_flatMap.mpr ⟨?_, ?_⟩
  · intro y _
    exact (nodup_starts 1 (width - 2)).map (Prod.mk_right_injective y)
  · refine List.Pairwise.imp ?_ (List.nodup_range' (s := 1) (n := height - 2))
    intro y y' hne p hp hp'
    simp only [List.mem_map] at hp hp'
    obtain ⟨x, _, rfl⟩ := hp
    obtain ⟨x', _, hx'⟩ := hp'
    exact hne (Prod.ext_iff.mp hx').1.symm

/-- **The first pass** measures as it should exactly if no row of the interior
has a run through its last two pixels or one of 256 or more. -/
theorem measured_leftToRight_iff (pixMedian : Pix UInt8 width height)
    (pixs : Pix Bool width height) :
    Measured (leftToRight pixMedian pixs) ↔
      ∀ y, 0 < y → y + 1 < height → Fits (offRow pixs y) 1 width 256 := by
  unfold Measured
  rw [leftToRight_eq, Machine.exists_mapM_iff]
  have hedge : ∀ p ∈ interiorStarts pixs,
      ((∃ m, edgeFrom pixMedian pixs p = some m ∧ m.edgeWidth.toNat = m.last - m.first + 1) ↔
        skip (offRow pixs p.1) (width - p.2) p.2 < width ∧
          skip (offRow pixs p.1) (width - p.2) p.2 < p.2 + 256) := by
    intro p hp
    obtain ⟨hy, hstart⟩ := mem_interiorStarts.mp hp
    obtain ⟨hx, hfirst⟩ := mem_starts.mp hstart
    have hwalk : p.2 < skip (offRow pixs p.1) (width - p.2) p.2 :=
      lt_skip (by omega) (isStart_iff.mp hfirst).1
    unfold edgeFrom
    rw [edgeOfRow_iff pixMedian (by omega) (by omega), Nat.sub_add_cancel (by omega)]
  constructor
  · intro h y hy hy'
    rw [fits_iff (by omega)]
    intro x hx
    have hmem : (y, x) ∈ interiorStarts pixs := mem_interiorStarts.mpr ⟨⟨hy, hy'⟩, hx⟩
    exact (hedge (y, x) hmem).mp (h (y, x) hmem)
  · intro h p hp
    obtain ⟨hy, hstart⟩ := mem_interiorStarts.mp hp
    exact (hedge p hp).mpr ((fits_iff (by omega)).mp (h p.1 hy.1 hy.2) p.2 hstart)

/-- The pass down the columns has a result exactly if every run in an inner
column is shorter than 256, since the width is kept in a byte. -/
theorem measured_topToBottom_iff (pixMedian : Pix UInt8 width height)
    (pixs : Pix Bool width height) :
    Measured (topToBottom pixMedian pixs) ↔
      ∀ x, 0 < x → x + 1 < width → Fits (offColumn pixs x) 1 height 256 := by
  rw [topToBottom_eq_leftToRight, measured_leftToRight_iff]
  simp only [offRow_transpose]

/-- The places of the measures are those where the runs begin, in the same
order. -/
theorem places_of_mapM {pixMedian : Pix UInt8 width height} {pixs : Pix Bool width height}
    {l : List (Nat × Nat)} {ms : List EdgeMeasure}
    (h : l.mapM (edgeFrom pixMedian pixs) = some ms) :
    ms.map (fun m => (m.line, m.first)) = l := by
  rw [Machine.mapM_eq_some_iff] at h
  induction l generalizing ms with
  | nil =>
      rw [List.map_nil, eq_comm, List.map_eq_nil_iff] at h
      rw [h, List.map_nil]
  | cons p l ih =>
      cases ms with
      | nil => exact absurd h (by simp)
      | cons m ms =>
          rw [List.map_cons, List.map_cons, List.cons.injEq] at h
          obtain ⟨hline, hfirst, -⟩ := edgeOfRow_place h.1
          rw [List.map_cons, ih h.2, hline, hfirst]

/-- The slope across a run: the distance of the gray values outside its ends,
divided by its length in whole numbers, in units of 255. -/
def SlopeAcross (pixMedian : Pix UInt8 width height) (m : EdgeMeasure) : Prop :=
  ∃ a b, pixMedian.get (m.last + 1) m.line = some a ∧
    pixMedian.get (m.first - 1) m.line = some b ∧
    m.slope = (((b.toNat : ℤ) - a.toNat).natAbs / (m.last - m.first + 1) : ℕ) / 255

/-- If the width has not wrapped around, the slope is the difference of the
grays across the edge, divided by the true width. -/
theorem slopeAcross_of_edgeOfRow {pixMedian : Pix UInt8 width height} {y x right : Nat}
    {m : EdgeMeasure} (h : edgeOfRow pixMedian y x right = some m)
    (hwidth : m.edgeWidth.toNat = m.last - m.first + 1) : SlopeAcross pixMedian m := by
  obtain ⟨hline, hfirst, hlast, -⟩ := edgeOfRow_place h
  simp only [edgeOfRow, Option.bind_eq_bind, Option.bind_eq_some_iff] at h
  obtain ⟨a, ha, b, hb, hm⟩ := h
  refine ⟨a, b, ?_, ?_, ?_⟩
  · rw [hlast, hline, ha]
  · rw [hfirst, hline, hb]
  · rw [← hwidth, measureEdge_slope hm]

/-- The runs of the interior begin at the places listed, if no mask pixel lies
in the last column. -/
theorem isRun_iff_mem_interiorStarts {pixs : Pix Bool width height}
    (hlast : ∀ y, y < height → ∀ x, x + 1 = width → offRow pixs y x = false)
    {y first last : Nat} :
    (0 < y ∧ y + 1 < height ∧ IsRun (offRow pixs y) 1 (width - 1) first last) ↔
      (y, first) ∈ interiorStarts pixs ∧
        last = skip (offRow pixs y) (width - first) first - 1 := by
  rw [mem_interiorStarts, and_assoc, and_assoc]
  refine and_congr_right fun _ => and_congr_right fun hy => ?_
  exact isRun_pred_iff_mem_starts (hlast y (by omega))

/-- **The two directions agree.**  If no mask pixel lies in the last column and
no row has a run of 256 or more, the first pass, and the second on the
transposed pictures, push the same sequence of slopes: one for each maximal run
of the interior, each measured once. -/
theorem passes_agree (pixMedian : Pix UInt8 width height) (pixs : Pix Bool width height)
    (hlast : ∀ x y, y < height → x + 1 = width → pixs.get x y = some true)
    (hshort : ∀ y first last, y < height → IsRun (offRow pixs y) 0 width first last →
      last - first + 1 < 256) :
    ∃ ms, leftToRight pixMedian pixs = some ms ∧
      topToBottom pixMedian.transpose pixs.transpose = some ms ∧
      (ms.map fun m => (m.line, m.first, m.last)).Nodup ∧
      (∀ y first last, (0 < y ∧ y + 1 < height ∧ IsRun (offRow pixs y) 1 (width - 1) first last) ↔
        ∃ m ∈ ms, m.line = y ∧ m.first = first ∧ m.last = last) ∧
      ∀ m ∈ ms, SlopeAcross pixMedian m := by
  have hoff : ∀ x y, y < height → x + 1 = width → offRow pixs y x = false := by
    intro x y hy hx
    simp [offRow, pixGetPixel, hlast x y hy hx]
  have hfits : ∀ y, 0 < y → y + 1 < height → Fits (offRow pixs y) 1 width 256 := by
    intro y _ hy
    refine (fits_of_runs (by omega) (fun x => hoff x y (by omega)) ?_).mono (Nat.zero_le 1)
    intro first last hrun
    have := hshort y first last (by omega) hrun
    omega
  obtain ⟨ms, hms, hwidth⟩ := (measured_leftToRight_iff pixMedian pixs).mpr hfits
  have htraverse := hms
  rw [leftToRight_eq] at htraverse
  refine ⟨ms, hms, ?_, ?_, ?_, ?_⟩
  · rw [topToBottom_eq_leftToRight]
    exact hms
  · have hnodup := nodup_interiorStarts pixs
    rw [← places_of_mapM htraverse] at hnodup
    refine List.Nodup.of_map (fun t : Nat × Nat × Nat => (t.1, t.2.1)) ?_
    rwa [List.map_map]
  · intro y first last
    rw [isRun_iff_mem_interiorStarts fun y hy x => hoff x y hy]
    constructor
    · rintro ⟨hmem, rfl⟩
      rw [← places_of_mapM htraverse, List.mem_map] at hmem
      obtain ⟨m, hm, hmplace⟩ := hmem
      obtain ⟨rfl, rfl⟩ := Prod.ext_iff.mp hmplace
      obtain ⟨p, -, hedge⟩ := (Machine.mem_mapM htraverse).mp hm
      obtain ⟨hline, hfirst, hend, -⟩ := edgeOfRow_place hedge
      refine ⟨m, hm, rfl, rfl, ?_⟩
      rw [hend, hline, hfirst]
    · rintro ⟨m, hm, rfl, rfl, rfl⟩
      obtain ⟨p, hp, hedge⟩ := (Machine.mem_mapM htraverse).mp hm
      obtain ⟨hline, hfirst, hend, -⟩ := edgeOfRow_place hedge
      rw [hline, hfirst]
      exact ⟨hp, hend⟩
  · intro m hm
    obtain ⟨p, -, hedge⟩ := (Machine.mem_mapM htraverse).mp hm
    exact slopeAcross_of_edgeOfRow hedge (hwidth m hm)

end Scans

/-! A row of four rising values, with its two inner pixels in the mask. -/

def ramp : Pix UInt8 4 3 := ⟨fun x _ => UInt8.ofNat (60 * x.val)⟩

def rampMask : Pix Bool 4 3 := ⟨fun x y => !(y.val == 1 && (x.val == 1 || x.val == 2))⟩

theorem passes_agree_ramp :
    ∃ ms, leftToRight ramp rampMask = some ms ∧
      topToBottom ramp.transpose rampMask.transpose = some ms ∧
      ∃ m ∈ ms, m.line = 1 ∧ m.first = 1 ∧ m.last = 2 := by
  obtain ⟨ms, hfirst, hsecond, -, hruns, -⟩ := passes_agree ramp rampMask
    (by
      intro x y hy hx
      obtain rfl : x = 3 := by omega
      interval_cases y <;> rfl)
    (by
      intro y first last _ hrun
      have := hrun.lt
      omega)
  refine ⟨ms, hfirst, hsecond, (hruns 1 1 2).mp ⟨by omega, by omega, ?_⟩⟩
  refine ⟨le_rfl, by omega, by omega, ?_, Or.inl rfl, Or.inl rfl⟩
  intro p hp hp'
  interval_cases p <;> rfl

end CardScanner
