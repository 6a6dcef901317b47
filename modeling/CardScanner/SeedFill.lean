import CardScanner.Components
import CardScanner.Machine
import CardScanner.Plateau
import CardScanner.Raster
import CardScanner.TextColumns
import Mathlib.Order.Bounds.Basic
import Mathlib.Data.Finset.Prod

/-!
# Filling a component

`pixSeedfill4BB` and `pixSeedfill8BB` clear the component of a seed.  A stack keeps
stretches of lines that were cleared, each with the direction in which its neighbours are
still to be looked at.  A step takes one stretch off, clears the runs of ON pixels that
touch it on the next line, and puts each run back on: forward as a whole, backward as far
as it sticks out beyond the stretch it was found from (a leak).

What is cleared belongs to the component (`Filling.erased`), and what is still ON beside a
cleared pixel is within reach of a stretch on the stack (`Filling.closed`).  With the stack
empty, the component is gone.  The very first stretch lies beside a line that was not
cleared, and a leak of one pixel to its left is not followed; so the seed of the fill of
four neighbours has to be the first pixel of its line.
-/

namespace CardScanner

open LineRuns Plateau Machine Components

/-- A stretch of a line that was cleared, and the direction to go on in. -/
structure FillSeg where
  xleft : ℕ
  xright : ℕ
  y : ℕ
  dy : ℤ
  deriving DecidableEq, Repr

/-- The line that `popFillseg` goes on to. -/
def FillSeg.line (seg : FillSeg) : ℕ := (seg.y + seg.dy).toNat

/-- The picture while it is cleared, the stack, and the extent of what was
cleared. -/
structure SeedFill where
  pixs : Raster Bool
  stack : List FillSeg
  minx : ℕ
  maxx : ℕ
  miny : ℕ
  maxy : ℕ

/-- The pixels of a line. -/
def lineOf (pixs : Raster Bool) (y x : ℕ) : Bool := pixs.pixel x y

/-- `CLEAR_DATA_BIT` from `first` on and before `stop`. -/
def clearBits (pixs : Raster Bool) (y first stop : ℕ) : Raster Bool where
  width := pixs.width
  height := pixs.height
  pixel x' y' := pixs.pixel x' y' && !(y' == y && first ≤ x' && x' < stop)

namespace SeedFill

/-- `pushFillsegBB`, which also widens the box; a stretch that leads out of the
picture is not pushed. -/
def pushFillsegBB (s : SeedFill) (xleft xright y : ℕ) (dy : ℤ) : SeedFill where
  pixs := s.pixs
  stack :=
    if 0 ≤ y + dy ∧ y + dy < s.pixs.height then ⟨xleft, xright, y, dy⟩ :: s.stack
    else s.stack
  minx := min s.minx xleft
  maxx := max s.maxx xright
  miny := min s.miny y
  maxy := max s.maxy y

/-- The pixels of a line from `first` to before `stop` are cleared. -/
def clear (s : SeedFill) (y first stop : ℕ) : SeedFill :=
  { s with pixs := clearBits s.pixs y first stop }

-- how far a pixel reaches along the next line: 0 with four neighbours, 1 with eight
variable (reach : ℕ) (seg : FillSeg)

/-- The end of the positions at which a run can begin that touches the
stretch. -/
def limit (s : SeedFill) : ℕ := min (seg.xright + reach + 1) s.pixs.width

/-- The loop behind `skip:`, from `x` on. -/
def skipOff (s : SeedFill) (x : ℕ) : ℕ :=
  skip (fun x => !lineOf s.pixs seg.line x) (s.limit reach seg - x) x

/-- Where the ON pixels from `x` on end. -/
def runEnd (s : SeedFill) (x : ℕ) : ℕ := skip (lineOf s.pixs seg.line) (s.pixs.width - x) x

/-- The body of the `do` loop up to `skip:`. -/
def extend (s : SeedFill) (xstart x : ℕ) : SeedFill :=
  let stop := s.runEnd seg x
  let s := s.clear seg.line x stop
  let s := s.pushFillsegBB xstart (stop - 1) seg.line seg.dy
  if seg.xright + 1 < stop + reach then
    s.pushFillsegBB (seg.xright + 1) (stop - 1) seg.line (-seg.dy)
  else s

/-- The `do` loop, from the label `skip` on; each run begins further right
than the one before. -/
def fromSkip : ℕ → SeedFill → ℕ → SeedFill
  | 0, s, _ => s
  | k + 1, s, x =>
      let xstart := s.skipOff reach seg x
      if xstart < s.limit reach seg then
        fromSkip k (s.extend reach seg xstart xstart) (s.runEnd seg xstart + 1)
      else s

/-- What the loop to the left clears, and the leak there. -/
def clearLeft (s : SeedFill) (xstart x : ℕ) : SeedFill :=
  let s := s.clear seg.line xstart x
  if xstart + 1 < seg.xleft + reach then
    s.pushFillsegBB xstart (seg.xleft - 1) seg.line (-seg.dy)
  else s

/-- What is done with a stretch from the stack.  The loop to the left begins
just beside the first position at which a run can touch the stretch. -/
def fillLine (s : SeedFill) : SeedFill :=
  let x := seg.xleft + 1 - reach
  let xstart := leftEnd (lineOf s.pixs seg.line) x
  if xstart < x then
    let s := s.clearLeft reach seg xstart x
    (s.extend reach seg xstart x).fromSkip reach seg (s.pixs.width + 1) (s.runEnd seg x + 1)
  else s.fromSkip reach seg (s.pixs.width + 1) x

/-- One turn of the main loop. -/
def fillStep (s : SeedFill) : Outcome SeedFill (Raster Bool × Box) :=
  match s.stack with
  | [] => .done (s.pixs, ⟨s.minx, s.miny, s.maxx - s.minx + 1, s.maxy - s.miny + 1⟩)
  | seg :: stack => .next ({ s with stack := stack }.fillLine reach seg)

end SeedFill

/-- The stack with the seed, in both directions, and its extent. -/
def startFill (pixs : Raster Bool) (x y : ℕ) : SeedFill :=
  let s : SeedFill := ⟨pixs, [], 100000, 0, 100000, 0⟩
  let s := (s.pushFillsegBB x x y 1).pushFillsegBB x x (y + 1) (-1)
  { s with minx := x, maxx := x, miny := y, maxy := y }

/-- The fill from a seed: the picture without its component, and the
component's box.  Each pixel is cleared once and puts at most three stretches
on the stack. -/
def seedfillBB (reach : ℕ) (pixs : Raster Bool) (x y : ℕ) : Option (Raster Bool × Box) :=
  if x < pixs.width ∧ y < pixs.height ∧ pixs.pixel x y then
    match runFor (SeedFill.fillStep reach) (3 * (pixs.width * pixs.height) + 3)
        (startFill pixs x y) with
    | .done r => some r
    | _ => none
  else none

/-- `pixSeedfill4BB`, where pixels have four neighbours. -/
def pixSeedfill4BB (pixs : Raster Bool) (x y : ℕ) : Option (Raster Bool × Box) :=
  seedfillBB 0 pixs x y

/-- `pixSeedfill8BB`, where those at the corners count as well. -/
def pixSeedfill8BB (pixs : Raster Bool) (x y : ℕ) : Option (Raster Bool × Box) :=
  seedfillBB 1 pixs x y

inductive Connectivity where
  | four
  | eight
  deriving DecidableEq, Repr

/-- How far a run reaches beyond its ends in the next line. -/
def Connectivity.reach : Connectivity → ℕ
  | .four => 0
  | .eight => 1

def pixSeedfillBB (pixs : Raster Bool) (x y : ℕ) :
    Connectivity → Option (Raster Bool × Box)
  | .four => pixSeedfill4BB pixs x y
  | .eight => pixSeedfill8BB pixs x y

theorem pixSeedfillBB_eq (pixs : Raster Bool) (x y : ℕ) (connectivity : Connectivity) :
    pixSeedfillBB pixs x y connectivity = seedfillBB connectivity.reach pixs x y := by
  cases connectivity with
  | four => rfl
  | eight => rfl

/-! ## Pixels and neighbours -/

/-- The ON pixels of a picture, by column and line. -/
def onPixels (pixs : Raster Bool) : Set (ℕ × ℕ) :=
  {q | q.1 < pixs.width ∧ q.2 < pixs.height ∧ pixs.pixel q.1 q.2 = true}

theorem mem_onPixels {pixs : Raster Bool} {x y : ℕ} :
    (x, y) ∈ onPixels pixs ↔ x < pixs.width ∧ y < pixs.height ∧ pixs.pixel x y = true := Iff.rfl

theorem mem_onPixels_clearBits {pixs : Raster Bool} {y first stop : ℕ} {q : ℕ × ℕ} :
    q ∈ onPixels (clearBits pixs y first stop) ↔
      q ∈ onPixels pixs ∧ ¬ (q.2 = y ∧ first ≤ q.1 ∧ q.1 < stop) := by
  simp only [onPixels, clearBits, Set.mem_ofPred_eq]
  grind

/-- Pixels beside each other on a line, or on lines above each other and at
most `reach` apart along them. -/
def Touching (reach : ℕ) (p q : ℕ × ℕ) : Prop :=
  (p.2 = q.2 ∧ p.1 ≤ q.1 + 1 ∧ q.1 ≤ p.1 + 1) ∨
    ((p.2 = q.2 + 1 ∨ q.2 = p.2 + 1) ∧ p.1 ≤ q.1 + reach ∧ q.1 ≤ p.1 + reach)

theorem Touching.symm {reach : ℕ} (p q : ℕ × ℕ) (h : Touching reach p q) : Touching reach q p := by
  unfold Touching at *
  omega

/-- The component of a pixel. -/
abbrev pixelComponent (reach : ℕ) (pixs : Raster Bool) (q : ℕ × ℕ) : Set (ℕ × ℕ) :=
  component (Touching reach) (onPixels pixs) q

/-- ON pixels side by side are in one component, to the right of one that is
in it and to the left. -/
theorem line_mem {reach : ℕ} {pixs : Raster Bool} {seed : ℕ × ℕ} {y first stop mid x : ℕ}
    (hon : ∀ x, first ≤ x → x < stop → (x, y) ∈ onPixels pixs)
    (hmid : (mid, y) ∈ pixelComponent reach pixs seed) (hfirst : first ≤ mid) (hstop : mid < stop)
    (hx : first ≤ x) (hx' : x < stop) : (x, y) ∈ pixelComponent reach pixs seed := by
  have hright : ∀ n, mid + n < stop → (mid + n, y) ∈ pixelComponent reach pixs seed := by
    intro n
    induction n with
    | zero => exact fun _ => hmid
    | succ n ih =>
        intro hn
        refine component_step (ih (by omega)) (Or.inl ⟨rfl, ?_, ?_⟩) (hon _ (by omega) hn)
        · simp only
          omega
        · exact le_rfl
  have hleft : ∀ n, first + n ≤ mid → (mid - n, y) ∈ pixelComponent reach pixs seed := by
    intro n
    induction n with
    | zero => exact fun _ => hmid
    | succ n ih =>
        intro hn
        refine component_step (ih (by omega)) (Or.inl ⟨rfl, ?_, ?_⟩)
          (hon _ (by omega) (by omega))
        · simp only
          omega
        · simp only
          omega
  rcases Nat.le_total mid x with hle | hle
  · exact Nat.add_sub_cancel' hle ▸ hright (x - mid) (by omega)
  · exact Nat.sub_sub_self hle ▸ hleft (mid - x) (by omega)

/-! ## Stretches and runs -/

/-- The pixels that are looked at from a stretch. -/
def FillSeg.Reaches (reach : ℕ) (seg : FillSeg) (q : ℕ × ℕ) : Prop :=
  q.2 = seg.line ∧ seg.xleft ≤ q.1 + reach ∧ q.1 ≤ seg.xright + reach

/-- Nothing is left ON where a stretch came from, nor beside it as far as a
run can get around its ends. -/
def FillSeg.Spent (reach : ℕ) (pixs : Raster Bool) (seg : FillSeg) : Prop :=
  ∀ x, seg.xleft ≤ x + 1 → x ≤ seg.xright + reach → (x, seg.y) ∉ onPixels pixs

/-- A stretch leads to a line of the picture, and only to pixels of the
component. -/
structure FillSeg.Leads (reach : ℕ) (pixs : Raster Bool) (seed : ℕ × ℕ) (seg : FillSeg) :
    Prop where
  direction : seg.dy = 1 ∨ seg.dy = -1
  nonneg : 0 ≤ (seg.y : ℤ) + seg.dy
  lt : (seg.y : ℤ) + seg.dy < pixs.height
  le : seg.xleft ≤ seg.xright + reach
  left_lt : seg.xleft < pixs.width + reach
  sound : ∀ q ∈ onPixels pixs, seg.Reaches reach q → q ∈ pixelComponent reach pixs seed

theorem FillSeg.Leads.line_lt {reach : ℕ} {pixs : Raster Bool} {seed : ℕ × ℕ} {seg : FillSeg}
    (h : seg.Leads reach pixs seed) : seg.line < pixs.height := by
  have hnonneg := h.nonneg
  have hlow := h.lt
  simp only [FillSeg.line]
  omega

/-- The pixels from `first` on and before `stop` are a whole run of ON pixels
of the line that a stretch leads to, and touch the stretch. -/
structure FillSeg.Touches (reach : ℕ) (pixs : Raster Bool) (seg : FillSeg) (first stop : ℕ) :
    Prop where
  lt : first < stop
  stop_le : stop ≤ pixs.width
  on : ∀ x, first ≤ x → x < stop → pixs.pixel x seg.line = true
  left : ∀ x, x + 1 = first → (x, seg.line) ∉ onPixels pixs
  right : (stop, seg.line) ∉ onPixels pixs
  meets_left : seg.xleft < stop + reach
  meets_right : first ≤ seg.xright + reach

/-- What the code does with one run. -/
def SeedFill.fillRun (reach : ℕ) (seg : FillSeg) (s : SeedFill) (first stop : ℕ) : SeedFill :=
  let s := s.clear seg.line first stop
  let s :=
    if first + 1 < seg.xleft + reach then
      s.pushFillsegBB first (seg.xleft - 1) seg.line (-seg.dy)
    else s
  let s := s.pushFillsegBB first (stop - 1) seg.line seg.dy
  if seg.xright + 1 < stop + reach then
    s.pushFillsegBB (seg.xright + 1) (stop - 1) seg.line (-seg.dy)
  else s

section Run

variable {reach : ℕ} {seg seg' : FillSeg} {s : SeedFill} {first stop : ℕ}

@[simp] theorem pixs_pushFillsegBB (s : SeedFill) (xleft xright y : ℕ) (dy : ℤ) :
    (s.pushFillsegBB xleft xright y dy).pixs = s.pixs := rfl

theorem mem_stack_pushFillsegBB {xleft xright y : ℕ} {dy : ℤ} :
    seg' ∈ (s.pushFillsegBB xleft xright y dy).stack ↔
      (0 ≤ y + dy ∧ y + dy < s.pixs.height ∧ seg' = ⟨xleft, xright, y, dy⟩) ∨ seg' ∈ s.stack := by
  unfold SeedFill.pushFillsegBB
  split_ifs with h
  · simp [h]
  · rw [or_iff_right fun hin => h ⟨hin.1, hin.2.1⟩]

@[simp] theorem pixs_fillRun : (s.fillRun reach seg first stop).pixs =
    clearBits s.pixs seg.line first stop := by
  unfold SeedFill.fillRun
  split_ifs <;> rfl

/-- The stretches that a run puts on the stack. -/
inductive NewSeg (reach : ℕ) (pixs : Raster Bool) (seg : FillSeg) (first stop : ℕ) :
    FillSeg → Prop where
  | forward (hlow : 0 ≤ seg.line + seg.dy) (hhigh : seg.line + seg.dy < pixs.height) :
      NewSeg reach pixs seg first stop ⟨first, stop - 1, seg.line, seg.dy⟩
  | leakLeft (hlow : 0 ≤ seg.line - seg.dy) (hhigh : seg.line - seg.dy < pixs.height)
      (hleak : first + 1 < seg.xleft + reach) :
      NewSeg reach pixs seg first stop ⟨first, seg.xleft - 1, seg.line, -seg.dy⟩
  | leakRight (hlow : 0 ≤ seg.line - seg.dy) (hhigh : seg.line - seg.dy < pixs.height)
      (hleak : seg.xright + 1 < stop + reach) :
      NewSeg reach pixs seg first stop ⟨seg.xright + 1, stop - 1, seg.line, -seg.dy⟩

/-- What is on it after a run has been filled: up to three new stretches, in
the same direction and, at the ends, back. -/
theorem mem_stack_fillRun : seg' ∈ (s.fillRun reach seg first stop).stack ↔
    NewSeg reach s.pixs seg first stop seg' ∨ seg' ∈ s.stack := by
  have hstack : seg' ∈ (s.fillRun reach seg first stop).stack ↔
      (0 ≤ seg.line - seg.dy ∧ seg.line - seg.dy < s.pixs.height ∧
        seg.xright + 1 < stop + reach ∧
        seg' = ⟨seg.xright + 1, stop - 1, seg.line, -seg.dy⟩) ∨
      (0 ≤ seg.line + seg.dy ∧ seg.line + seg.dy < s.pixs.height ∧
        seg' = ⟨first, stop - 1, seg.line, seg.dy⟩) ∨
      (0 ≤ seg.line - seg.dy ∧ seg.line - seg.dy < s.pixs.height ∧
        first + 1 < seg.xleft + reach ∧
        seg' = ⟨first, seg.xleft - 1, seg.line, -seg.dy⟩) ∨ seg' ∈ s.stack := by
    unfold SeedFill.fillRun
    split_ifs with hleft hright hright <;>
      simp [mem_stack_pushFillsegBB, SeedFill.clear, clearBits, hleft, hright, sub_eq_add_neg]
  rw [hstack]
  constructor
  · rintro (⟨hlow, hhigh, hleak, rfl⟩ | ⟨hlow, hhigh, rfl⟩ | ⟨hlow, hhigh, hleak, rfl⟩ | hold)
    · exact Or.inl (.leakRight hlow hhigh hleak)
    · exact Or.inl (.forward hlow hhigh)
    · exact Or.inl (.leakLeft hlow hhigh hleak)
    · exact Or.inr hold
  · rintro (hnew | hold)
    · cases hnew with
      | forward hlow hhigh => exact Or.inr (Or.inl ⟨hlow, hhigh, rfl⟩)
      | leakLeft hlow hhigh hleak => exact Or.inr (Or.inr (Or.inl ⟨hlow, hhigh, hleak, rfl⟩))
      | leakRight hlow hhigh hleak => exact Or.inl ⟨hlow, hhigh, hleak, rfl⟩
    · exact Or.inr (Or.inr (Or.inr hold))

/-- Every pixel that a new stretch leads to touches the run, so it is in the
component of the run's pixels. -/
theorem NewSeg.near (hreach : reach ≤ 1) {pixs : Raster Bool} {seed : ℕ × ℕ}
    (hseg : seg.Leads reach pixs seed) (htouch : seg.Touches reach s.pixs first stop)
    (hnew : NewSeg reach s.pixs seg first stop seg') {q : ℕ × ℕ} (hq : seg'.Reaches reach q) :
    ∃ x, first ≤ x ∧ x < stop ∧ Touching reach (x, seg.line) q := by
  obtain ⟨hline, hleft, hright⟩ := hq
  have hlt := htouch.lt
  have hmeets := htouch.meets_left
  have hmeets' := htouch.meets_right
  have hdirection := hseg.direction
  refine ⟨max first (min q.1 (stop - 1)), le_max_left _ _, by omega, Or.inr ?_⟩
  cases hnew with
  | forward hlow hhigh =>
      simp only [FillSeg.line] at hline hleft hright hlow ⊢
      omega
  | leakLeft hlow hhigh hleak =>
      simp only [FillSeg.line] at hline hleft hright hlow ⊢
      omega
  | leakRight hlow hhigh hleak =>
      simp only [FillSeg.line] at hline hleft hright hlow ⊢
      omega

/-- Nothing is left ON around a new stretch, because the run that it touches
has been cleared. -/
theorem NewSeg.spent (hreach : reach ≤ 1) (htouch : seg.Touches reach s.pixs first stop)
    (hnew : NewSeg reach s.pixs seg first stop seg') :
    seg'.Spent reach (clearBits s.pixs seg.line first stop) := by
  have hmeets := htouch.meets_left
  have hmeets' := htouch.meets_right
  have hy : seg'.y = seg.line := by cases hnew <;> rfl
  have hwithin : ∀ x, seg'.xleft ≤ x + 1 → x ≤ seg'.xright + reach → first ≤ x + 1 ∧ x ≤ stop := by
    have hlt := htouch.lt
    intro x hleft hright
    cases hnew with
    | forward hlow hhigh =>
        simp only at hleft hright
        omega
    | leakLeft hlow hhigh hleak =>
        simp only at hleft hright
        omega
    | leakRight hlow hhigh hleak =>
        simp only at hleft hright
        omega
  intro x hleft hright hon
  obtain ⟨hfirst, hstop⟩ := hwithin x hleft hright
  rw [hy, mem_onPixels_clearBits] at hon
  obtain ⟨hon, hnot⟩ := hon
  rcases Nat.lt_or_ge x first with hbefore | hafter
  · exact htouch.left x (by omega) hon
  · rcases hstop.lt_or_eq with hin | rfl
    · exact hnot ⟨rfl, hafter, hin⟩
    · exact htouch.right hon

/-- A whole run belongs to the component if the stretch that it touches leads
there: one pixel of it is reached from the stretch, and the others are beside
that one. -/
theorem FillSeg.Leads.run_mem {pixs : Raster Bool} {seed : ℕ × ℕ}
    (hseg : seg.Leads reach pixs seed) (htouch : seg.Touches reach s.pixs first stop)
    (hsub : onPixels s.pixs ⊆ onPixels pixs) (hheight : s.pixs.height = pixs.height) {x : ℕ}
    (hfirst : first ≤ x) (hstop : x < stop) :
    (x, seg.line) ∈ pixelComponent reach pixs seed := by
  have hline : seg.line < s.pixs.height := hheight ▸ hseg.line_lt
  have hon : ∀ x, first ≤ x → x < stop → (x, seg.line) ∈ onPixels pixs := fun x hx hx' =>
    hsub ⟨hx'.trans_le htouch.stop_le, hline, htouch.on x hx hx'⟩
  have hlt := htouch.lt
  have hle := hseg.le
  have hmeets := htouch.meets_left
  have hmeets' := htouch.meets_right
  have hmid : (max first (seg.xleft - reach), seg.line) ∈ pixelComponent reach pixs seed := by
    refine hseg.sound _ (hon _ (le_max_left _ _) (by omega)) ⟨rfl, ?_, ?_⟩
    · simp only
      omega
    · simp only
      omega
  exact line_mem hon hmid (le_max_left _ _) (by omega) hfirst hstop

/-- A new stretch starts from pixels that can be reached from the seed, since
the run that gave rise to it can. -/
theorem NewSeg.leads (hreach : reach ≤ 1) {pixs : Raster Bool} {seed : ℕ × ℕ}
    (hseg : seg.Leads reach pixs seed) (htouch : seg.Touches reach s.pixs first stop)
    (hsub : onPixels s.pixs ⊆ onPixels pixs) (hwidth : s.pixs.width = pixs.width)
    (hheight : s.pixs.height = pixs.height) (hnew : NewSeg reach s.pixs seg first stop seg') :
    seg'.Leads reach pixs seed := by
  have hlt := htouch.lt
  have hstop := htouch.stop_le
  have hdirection := hseg.direction
  have hsound : ∀ q ∈ onPixels pixs, seg'.Reaches reach q → q ∈ pixelComponent reach pixs seed := by
    intro q hq hreaches
    obtain ⟨x, hx, hx', hnear⟩ := hnew.near hreach hseg htouch hreaches
    exact component_step (hseg.run_mem htouch hsub hheight hx hx') hnear hq
  cases hnew with
  | forward hlow hhigh =>
      exact ⟨hdirection, hlow, hheight ▸ hhigh, by simp only; omega, by simp only; omega, hsound⟩
  | leakLeft hlow hhigh hleak =>
      refine ⟨?_, hlow, hheight ▸ hhigh, by simp only; omega, by simp only; omega, hsound⟩
      simp only
      omega
  | leakRight hlow hhigh hleak =>
      refine ⟨?_, hlow, hheight ▸ hhigh, by simp only; omega, by simp only; omega, hsound⟩
      simp only
      omega

/-- The leaks lie within the run, so they do not change the extent. -/
theorem extent_fillRun (hreach : reach ≤ 1) (htouch : seg.Touches reach s.pixs first stop) :
    (s.fillRun reach seg first stop).minx = min s.minx first ∧
      (s.fillRun reach seg first stop).maxx = max s.maxx (stop - 1) ∧
      (s.fillRun reach seg first stop).miny = min s.miny seg.line ∧
      (s.fillRun reach seg first stop).maxy = max s.maxy seg.line := by
  have hlt := htouch.lt
  have hmeets := htouch.meets_left
  have hmeets' := htouch.meets_right
  unfold SeedFill.fillRun
  split_ifs with hleft hright hright <;>
    simp only [SeedFill.pushFillsegBB, SeedFill.clear, and_self] <;> omega

theorem length_fillRun :
    (s.fillRun reach seg first stop).stack.length ≤ s.stack.length + 3 := by
  have hpush : ∀ (s : SeedFill) (xleft xright y : ℕ) (dy : ℤ),
      (s.pushFillsegBB xleft xright y dy).stack.length ≤ s.stack.length + 1 := by
    intro s xleft xright y dy
    unfold SeedFill.pushFillsegBB
    split_ifs
    · exact le_rfl
    · exact Nat.le_succ _
  unfold SeedFill.fillRun
  have hclear : (s.clear seg.line first stop).stack.length = s.stack.length := rfl
  split_ifs <;> grind

end Run

/-! ## The invariant -/

/-- The least box around a set of pixels, by its edges. -/
structure Spans (pixels : Set (ℕ × ℕ)) (minx maxx miny maxy : ℕ) : Prop where
  left : IsLeast (Prod.fst '' pixels) minx
  right : IsGreatest (Prod.fst '' pixels) maxx
  top : IsLeast (Prod.snd '' pixels) miny
  bottom : IsGreatest (Prod.snd '' pixels) maxy

theorem Spans.union {A B : Set (ℕ × ℕ)} {a b c d a' b' c' d' : ℕ} (hA : Spans A a b c d)
    (hB : Spans B a' b' c' d') :
    Spans (A ∪ B) (min a a') (max b b') (min c c') (max d d') := by
  constructor
  · exact Set.image_union .. ▸ hA.left.union hB.left
  · exact Set.image_union .. ▸ hA.right.union hB.right
  · exact Set.image_union .. ▸ hA.top.union hB.top
  · exact Set.image_union .. ▸ hA.bottom.union hB.bottom

/-- The pixels of a line from `first` on and before `stop`. -/
def lineSpan (y first stop : ℕ) : Set (ℕ × ℕ) := {q | q.2 = y ∧ first ≤ q.1 ∧ q.1 < stop}

theorem spans_lineSpan {y first stop : ℕ} (h : first < stop) :
    Spans (lineSpan y first stop) first (stop - 1) y y := by
  have hfirst : (first, y) ∈ lineSpan y first stop := ⟨rfl, le_rfl, h⟩
  have hlast : (stop - 1, y) ∈ lineSpan y first stop :=
    ⟨rfl, by simp only; omega, by simp only; omega⟩
  refine ⟨⟨⟨_, hfirst, rfl⟩, ?_⟩, ⟨⟨_, hlast, rfl⟩, ?_⟩, ⟨⟨_, hfirst, rfl⟩, ?_⟩,
    ⟨_, hfirst, rfl⟩, ?_⟩
  · rintro _ ⟨q, hq, rfl⟩
    exact hq.2.1
  · rintro _ ⟨q, hq, rfl⟩
    exact Nat.le_sub_one_of_lt hq.2.2
  · rintro _ ⟨q, hq, rfl⟩
    exact hq.1.ge
  · rintro _ ⟨q, hq, rfl⟩
    exact hq.1.le

/-- The state of a fill of the component of `seed` in `pixs`.  What is still
ON beside a cleared pixel is reached from the stack, or is `pending`. -/
structure Filling (reach : ℕ) (pixs : Raster Bool) (seed : ℕ × ℕ) (pending : ℕ × ℕ → Prop)
    (s : SeedFill) : Prop where
  width : s.pixs.width = pixs.width
  height : s.pixs.height = pixs.height
  subset : onPixels s.pixs ⊆ onPixels pixs
  cleared : ∀ q ∈ onPixels pixs, q ∉ onPixels s.pixs → q ∈ pixelComponent reach pixs seed
  closed : ∀ p ∈ onPixels pixs, p ∉ onPixels s.pixs → ∀ q ∈ onPixels s.pixs, Touching reach p q →
    (∃ seg ∈ s.stack, seg.Reaches reach q) ∨ pending q
  leads : ∀ seg ∈ s.stack, seg.Leads reach pixs seed
  spans : Spans (insert seed (onPixels pixs \ onPixels s.pixs)) s.minx s.maxx s.miny s.maxy

/-- What is left ON beside a run is reached from the stretches that the run
puts on the stack, or lies right behind it.  On the line itself only the run's
own pixels are beside it. -/
theorem newSeg_of_touching {reach : ℕ} {pixs : Raster Bool} {seg : FillSeg} {first stop : ℕ}
    {p q : ℕ × ℕ} (hdirection : seg.dy = 1 ∨ seg.dy = -1) (hnonneg : 0 ≤ (seg.y : ℤ) + seg.dy)
    (htouch : seg.Touches reach pixs first stop) (hp : p ∈ lineSpan seg.line first stop)
    (hq : q ∈ onPixels pixs) (hqout : q ∉ lineSpan seg.line first stop)
    (hnear : Touching reach p q) :
    (∃ seg', NewSeg reach pixs seg first stop seg' ∧ seg'.Reaches reach q) ∨
      (q.2 = seg.y ∧ first ≤ q.1 + reach ∧ q.1 < stop + reach ∧ seg.xleft ≤ q.1 + 1 ∧
        q.1 ≤ seg.xright + reach) := by
  obtain ⟨px, py⟩ := p
  obtain ⟨x, y⟩ := q
  obtain ⟨rfl, hpx, hpx'⟩ := hp
  simp only at hpx hpx'
  have hheight : y < pixs.height := hq.2.1
  have hline : (seg.line : ℤ) = seg.y + seg.dy := by
    simp only [FillSeg.line]
    omega
  rcases hnear with ⟨hsame, hbefore, hafter⟩ | ⟨hlines, hbefore, hafter⟩
  · simp only at hsame hbefore hafter
    subst hsame
    exfalso
    by_cases hstart : x + 1 = first
    · exact htouch.left x hstart hq
    · by_cases hend : x = stop
      · exact htouch.right (hend ▸ hq)
      · exact hqout ⟨rfl, by simp only; omega, by simp only; omega⟩
  · simp only at hlines hbefore hafter
    by_cases hforward : (y : ℤ) = seg.line + seg.dy
    · refine Or.inl ⟨_, .forward (by omega) (by omega), ?_, ?_, ?_⟩
      · simp only [FillSeg.line] at hforward ⊢
        omega
      · simp only
        omega
      · simp only
        omega
    · have hy : y = seg.y := by omega
      have hbackward : ((seg.line : ℤ) + -seg.dy).toNat = seg.y := by omega
      by_cases hleft : seg.xleft ≤ x + 1
      · by_cases hright : x ≤ seg.xright + reach
        · exact Or.inr ⟨hy, by omega, by omega, hleft, hright⟩
        · refine Or.inl ⟨_, .leakRight (by omega) (by omega) (by omega), ?_, ?_, ?_⟩
          · exact hy.trans hbackward.symm
          · simp only
            omega
          · simp only
            omega
      · refine Or.inl ⟨_, .leakLeft (by omega) (by omega) (by omega), ?_, ?_, ?_⟩
        · exact hy.trans hbackward.symm
        · simp only
          omega
        · simp only
          omega

/-- **One run.**  If what is left ON behind the run is reached from the stack,
the run is filled as it should be: its pixels are cleared, the box widened,
and its neighbours owed to the stretches that it pushes. -/
theorem Filling.fillRun {reach : ℕ} (hreach : reach ≤ 1) {pixs : Raster Bool} {seed : ℕ × ℕ}
    {pending : ℕ × ℕ → Prop} {s : SeedFill} {seg : FillSeg} {first stop : ℕ}
    (h : Filling reach pixs seed pending s) (hseg : seg.Leads reach pixs seed)
    (htouch : seg.Touches reach s.pixs first stop)
    (hback : ∀ x, first ≤ x + reach → x < stop + reach → seg.xleft ≤ x + 1 →
      x ≤ seg.xright + reach → (x, seg.y) ∈ onPixels s.pixs →
      ∃ seg' ∈ s.stack, seg'.Reaches reach (x, seg.y)) :
    Filling reach pixs seed pending (s.fillRun reach seg first stop) := by
  have hon : ∀ q, q ∈ onPixels (s.fillRun reach seg first stop).pixs ↔
      q ∈ onPixels s.pixs ∧ q ∉ lineSpan seg.line first stop := by
    intro q
    rw [pixs_fillRun, mem_onPixels_clearBits]
    rfl
  have hrun : lineSpan seg.line first stop ⊆ pixelComponent reach pixs seed := by
    intro q hq
    obtain ⟨x, y⟩ := q
    obtain ⟨rfl, hx, hx'⟩ := hq
    exact hseg.run_mem htouch h.subset h.height hx hx'
  constructor
  · rw [pixs_fillRun]
    exact h.width
  · rw [pixs_fillRun]
    exact h.height
  · exact fun q hq => h.subset ((hon q).mp hq).1
  · intro q hq hoff
    by_cases hold : q ∈ onPixels s.pixs
    · by_cases hin : q ∈ lineSpan seg.line first stop
      · exact hrun hin
      · exact absurd ((hon q).mpr ⟨hold, hin⟩) hoff
    · exact h.cleared q hq hold
  · intro p hp hoff q hq hnear
    obtain ⟨hq, hqout⟩ := (hon q).mp hq
    have hkept : ∀ seg' ∈ s.stack, seg' ∈ (s.fillRun reach seg first stop).stack :=
      fun seg' hin => mem_stack_fillRun.mpr (Or.inr hin)
    by_cases hold : p ∈ onPixels s.pixs
    · have hin : p ∈ lineSpan seg.line first stop := by
        by_contra hout
        exact hoff ((hon p).mpr ⟨hold, hout⟩)
      rcases newSeg_of_touching hseg.direction hseg.nonneg htouch hin hq hqout hnear with
        ⟨seg', hnew, hreaches⟩ | ⟨hy, hfirst, hstop, hleft, hright⟩
      · exact Or.inl ⟨seg', mem_stack_fillRun.mpr (Or.inl hnew), hreaches⟩
      · obtain ⟨x, y⟩ := q
        obtain rfl : y = seg.y := hy
        obtain ⟨seg', hin', hreaches⟩ := hback x hfirst hstop hleft hright hq
        exact Or.inl ⟨seg', hkept seg' hin', hreaches⟩
    · rcases h.closed p hp hold q hq hnear with ⟨seg', hin, hreaches⟩ | hpending
      · exact Or.inl ⟨seg', hkept seg' hin, hreaches⟩
      · exact Or.inr hpending
  · intro seg' hin
    rcases mem_stack_fillRun.mp hin with hnew | hold
    · exact hnew.leads hreach hseg htouch h.subset h.width h.height
    · exact h.leads seg' hold
  · obtain ⟨hminx, hmaxx, hminy, hmaxy⟩ := extent_fillRun hreach htouch
    rw [hminx, hmaxx, hminy, hmaxy]
    have hset : insert seed (onPixels pixs \ onPixels (s.fillRun reach seg first stop).pixs) =
        insert seed (onPixels pixs \ onPixels s.pixs) ∪ lineSpan seg.line first stop := by
      ext q
      have hsub := fun hq => component_subset (hrun (a := q) hq)
      simp only [Set.mem_insert_iff, Set.mem_sdiff, Set.mem_union, hon]
      tauto
    exact hset ▸ h.spans.union (spans_lineSpan htouch.lt)

end CardScanner
