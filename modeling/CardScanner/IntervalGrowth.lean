import Mathlib.Data.Int.Order.Lemmas
import Mathlib.Data.List.Nodup
import Mathlib.Logic.Function.Basic
import Mathlib.Order.Lattice

/-!
# Growing intervals one after another

Intervals on a line that starts at 0, each around a text.  Growing one of them
gives its text a border of `d` on either side, as far as the line allows, and
then every interval that starts behind the new start is moved on by `d`.

Take two intervals of which `a` is grown before `b`.  Until `a` is grown they
are `Ready` if `b` will have room behind the text of `a`, or lies so far before
it that it stays there; from then until `b` is grown they are `Halfway`; and
from then on they are `Clear`: the whole of `b` keeps off the text of `a`.
Growing a third interval moves both, or only the one behind, and so keeps each
of the three (`shift` lemmas).  So what is ready at the beginning is clear at
the end (`clear_of_ready`), and for two intervals alone nothing else is
(`clear_pair_iff`).
-/

namespace IntervalGrowth

/-- An interval on the line. -/
structure Span where
  start : ℤ
  extent : ℤ
  deriving DecidableEq, Repr

/-- A border of `d` on either side; there is nothing before 0. -/
def grow (d : ℤ) (s : Span) : Span where
  start := max 0 (s.start - d)
  extent := s.start + s.extent + d - max 0 (s.start - d)

/-- Moved on by `d` if it starts behind `g`. -/
def shift (d g : ℤ) (s : Span) : Span :=
  if s.start > g then { s with start := s.start + d } else s

/-! ## Two intervals -/

/-- Neither is grown: `b` starts behind the text of `a` even if that is pushed
in to `d`, or it ends before `a` and starts by `d` before it, where `a` is away
from the edge. -/
def Ready (d : ℤ) (a b : Span) : Prop :=
  max a.start d + a.extent ≤ b.start ∨
    b.start + b.extent ≤ a.start ∧ d < a.start ∧ b.start + d ≤ a.start

/-- `a` is grown, around a text of extent `w`. -/
def Halfway (d w : ℤ) (a b : Span) : Prop :=
  a.start + d + w + d ≤ b.start ∨
    b.start + b.extent ≤ a.start + d ∧ 0 < a.start ∧ b.start ≤ a.start

/-- Both are grown: `b` keeps off the text of `a`. -/
def Clear (d w : ℤ) (a b : Span) : Prop :=
  a.start + d + w ≤ b.start ∨ b.start + b.extent ≤ a.start + d

section Pair

variable {d g w : ℤ} {a b : Span}

/-- Growing moves an interval if it begins behind the one that grows. -/
theorem shift_start : (shift d g a).start = if a.start > g then a.start + d else a.start := by
  unfold shift
  split_ifs <;> rfl

@[simp] theorem shift_extent : (shift d g a).extent = a.extent := by
  unfold shift
  split_ifs <;> rfl

/-- A grown interval is longer than the border. -/
theorem lt_extent_grow (hd : 0 < d) (ha0 : 0 ≤ a.start) (ha : 0 < a.extent) :
    d < (grow d a).extent := by
  unfold grow
  simp only
  omega

/-- Two intervals at a safe distance stay so when a third one grows: either
both are moved, or the one behind is moved away. -/
theorem ready_shift (hd : 0 < d) (ha : 0 < a.extent) (h : Ready d a b) :
    Ready d (shift d g a) (shift d g b) := by
  unfold Ready at *
  simp only [shift_start, shift_extent]
  split_ifs <;> omega

/-- So do two of which one has grown and the other not yet. -/
theorem halfway_shift (hd : 0 < d) (hw : 0 < w) (h : Halfway d w a b) :
    Halfway d w (shift d g a) (shift d g b) := by
  unfold Halfway at *
  simp only [shift_start, shift_extent]
  split_ifs <;> omega

theorem clear_shift (hd : 0 < d) (hw : 0 < w) (hb : d < b.extent) (h : Clear d w a b) :
    Clear d w (shift d g a) (shift d g b) := by
  unfold Clear at *
  simp only [shift_start, shift_extent]
  split_ifs <;> omega

/-- The first of the two is grown. -/
theorem halfway_of_ready (hd : 0 < d) (ha : 0 < a.extent) (h : Ready d a b) :
    Halfway d a.extent (grow d a) (shift d (grow d a).start b) := by
  unfold Ready at h
  unfold Halfway
  simp only [shift_start, shift_extent, grow]
  split_ifs <;> omega

/-- The second is grown. -/
theorem clear_of_halfway (hd : 0 < d) (hw : 0 < w) (hb : 0 < b.extent) (h : Halfway d w a b) :
    Clear d w (shift d (grow d b).start a) (grow d b) := by
  unfold Halfway at h
  unfold Clear
  simp only [shift_start, grow]
  split_ifs <;> omega

/-- **Two intervals alone.**  They are clear in the end iff they were ready,
which is why `Ready` asks for no more than it has to. -/
theorem clear_pair_iff (hd : 0 < d) (ha0 : 0 ≤ a.start) (ha : 0 < a.extent) (hb0 : 0 ≤ b.start)
    (hb : 0 < b.extent) :
    Clear d a.extent
        (shift d (grow d (shift d (grow d a).start b)).start (grow d a))
        (grow d (shift d (grow d a).start b)) ↔ Ready d a b := by
  constructor
  · intro h
    unfold Clear at h
    unfold Ready
    simp only [shift_start, shift_extent, grow] at h
    split_ifs at h <;> omega
  · intro h
    apply clear_of_halfway hd ha
    · rw [shift_extent]
      exact hb
    · exact halfway_of_ready hd ha h

end Pair

/-! ## Runs -/

section Runs

variable {ι : Type*} [DecidableEq ι] (d : ℤ)

/-- The interval `k` is grown, and those that start behind its new start move
on. -/
def growAt (p : ι → Span) (k : ι) : ι → Span := fun j =>
  shift d (grow d (p k)).start (if j = k then grow d (p k) else p j)

/-- The intervals of a list are grown, one after another. -/
def growAll (p : ι → Span) (selection : List ι) : ι → Span := selection.foldl (growAt d) p

/-- Every interval lies on the line and is not empty. -/
def Proper (p : ι → Span) : Prop := ∀ j, 0 ≤ (p j).start ∧ 0 < (p j).extent

variable {d} {p : ι → Span} {i j k : ι}

/-- The interval that is grown stays where it is then. -/
theorem growAt_self : growAt d p k k = grow d (p k) := by
  simp [growAt, shift]

/-- Growing one interval moves the others and makes them no longer. -/
theorem growAt_of_ne (hne : j ≠ k) : growAt d p k j = shift d (grow d (p k)).start (p j) := by
  simp [growAt, hne]

/-- Intervals stay proper. -/
theorem Proper.growAt (hd : 0 < d) (h : Proper p) (k : ι) : Proper (growAt d p k) := by
  intro j
  obtain ⟨hstart, hextent⟩ := h j
  by_cases hjk : j = k
  · rw [hjk, growAt_self, ← hjk]
    exact ⟨le_max_left _ _, by have := lt_extent_grow hd hstart hextent; omega⟩
  · rw [growAt_of_ne hjk, shift_start, shift_extent]
    refine ⟨?_, hextent⟩
    split_ifs <;> omega

@[simp] theorem growAll_cons (selection : List ι) :
    growAll d p (k :: selection) = growAll d (growAt d p k) selection := rfl

/-- Clear intervals stay clear while others grow, neither of the two being
among these. -/
theorem clear_growAll (hd : 0 < d) {w : ℤ} (hw : 0 < w) {selection : List ι}
    (hi : i ∉ selection) (hj : j ∉ selection) (hextent : d < (p j).extent)
    (h : Clear d w (p i) (p j)) :
    Clear d w (growAll d p selection i) (growAll d p selection j) := by
  induction selection generalizing p with
  | nil => exact h
  | cons k rest ih =>
      rw [List.mem_cons, not_or] at hi hj
      rw [growAll_cons]
      apply ih hi.2 hj.2
      · rw [growAt_of_ne hj.1, shift_extent]
        exact hextent
      · rw [growAt_of_ne hi.1, growAt_of_ne hj.1]
        exact clear_shift hd hw hextent h

/-- Intervals that are halfway become clear when the second is grown. -/
theorem clear_of_halfway_growAll (hd : 0 < d) {w : ℤ} (hw : 0 < w) (hp : Proper p)
    {selection : List ι} (hnodup : selection.Nodup) (hi : i ∉ selection) (hj : j ∈ selection)
    (h : Halfway d w (p i) (p j)) :
    Clear d w (growAll d p selection i) (growAll d p selection j) := by
  induction selection generalizing p with
  | nil => exact absurd hj List.not_mem_nil
  | cons k rest ih =>
      rw [List.mem_cons, not_or] at hi
      rw [List.nodup_cons] at hnodup
      rw [growAll_cons]
      by_cases hjk : j = k
      · subst hjk
        apply clear_growAll hd hw hi.2 hnodup.1
        · rw [growAt_self]
          exact lt_extent_grow hd (hp j).1 (hp j).2
        · rw [growAt_self, growAt_of_ne hi.1]
          exact clear_of_halfway hd hw (hp j).2 h
      · apply ih (hp.growAt hd k) hnodup.2 hi.2 ((List.mem_cons.mp hj).resolve_left hjk)
        rw [growAt_of_ne hi.1, growAt_of_ne hjk]
        exact halfway_shift hd hw h

/-- **What is ready becomes clear**, whatever else is grown before, between
and after the two.  The growing of others keeps them ready, halfway or clear,
and their own takes them from one to the next. -/
theorem clear_of_ready (hd : 0 < d) (hp : Proper p) {selection : List ι}
    (hnodup : selection.Nodup) (horder : [i, j].Sublist selection) (h : Ready d (p i) (p j)) :
    Clear d (p i).extent (growAll d p selection i) (growAll d p selection j) := by
  induction selection generalizing p with
  | nil => cases horder
  | cons k rest ih =>
      rw [List.nodup_cons] at hnodup
      rw [growAll_cons]
      by_cases hik : i = k
      · subst hik
        have hj : j ∈ rest := (List.cons_sublist_cons.mp horder).subset (List.mem_singleton.mpr rfl)
        have hji : j ≠ i := fun heq => hnodup.1 (heq ▸ hj)
        apply clear_of_halfway_growAll hd (hp i).2 (hp.growAt hd i) hnodup.2 hnodup.1 hj
        rw [growAt_self, growAt_of_ne hji]
        exact halfway_of_ready hd (hp i).2 h
      · have hrest : [i, j].Sublist rest := List.Sublist.of_cons_of_ne hik horder
        have hjk : j ≠ k := fun heq => hnodup.1 (heq ▸ hrest.subset (by simp))
        have hextent : (growAt d p k i).extent = (p i).extent := by
          rw [growAt_of_ne hik, shift_extent]
        rw [← hextent]
        apply ih (hp.growAt hd k) hnodup.2 hrest
        rw [growAt_of_ne hik, growAt_of_ne hjk]
        exact ready_shift hd (hp i).2 h

/-- Grown alone, two intervals are clear only if they were ready. -/
theorem clear_growAll_pair_iff (hd : 0 < d) (hp : Proper p) (hne : i ≠ j) :
    Clear d (p i).extent (growAll d p [i, j] i) (growAll d p [i, j] j) ↔
      Ready d (p i) (p j) := by
  have hrun : growAll d p [i, j] = growAt d (growAt d p i) j := rfl
  rw [hrun, growAt_self, growAt_of_ne hne, growAt_self, growAt_of_ne hne.symm]
  exact clear_pair_iff hd (hp i).1 (hp i).2 (hp j).1 (hp j).2

/-- An interval that is not grown keeps its extent. -/
theorem extent_growAll_of_notMem {selection : List ι} (hi : i ∉ selection) :
    (growAll d p selection i).extent = (p i).extent := by
  induction selection generalizing p with
  | nil => rfl
  | cons k rest ih =>
      rw [List.mem_cons, not_or] at hi
      rw [growAll_cons, ih hi.2, growAt_of_ne hi.1, shift_extent]

/-- A grown interval reaches far enough to hold its text behind the border. -/
theorem text_le_extent (hd : 0 < d) (hp : Proper p) {selection : List ι}
    (hnodup : selection.Nodup) (hi : i ∈ selection) :
    d + (p i).extent ≤ (growAll d p selection i).extent := by
  induction selection generalizing p with
  | nil => exact absurd hi List.not_mem_nil
  | cons k rest ih =>
      rw [List.nodup_cons] at hnodup
      rw [growAll_cons]
      by_cases hik : i = k
      · subst hik
        rw [extent_growAll_of_notMem hnodup.1, growAt_self]
        have hstart := (hp i).1
        unfold grow
        simp only
        omega
      · have hrest := ih (hp.growAt hd k) hnodup.2 ((List.mem_cons.mp hi).resolve_left hik)
        rwa [growAt_of_ne hik, shift_extent] at hrest

end Runs

end IntervalGrowth
