import Mathlib.Data.List.Sort
import Mathlib.Order.Lattice

/-!
# Bubble sort

A pass carries the greater of two neighbours on, so it leaves the greatest
element at the end (`carry`).  The passes peel off one element after the other
from the front of a list: what is behind is sorted and above the front
(`Settled`), and when the front has one element left the whole list is sorted.
-/

namespace BubbleSort

variable {α : Type*} [LinearOrder α]

/-- What a pass makes of `a` and the elements behind it: the others, and the
greatest of all. -/
def carry (a : α) : List α → List α × α
  | [] => ([], a)
  | b :: l => (min a b :: (carry (max a b) l).1, (carry (max a b) l).2)

@[simp] theorem length_carry (a : α) (l : List α) : (carry a l).1.length = l.length := by
  induction l generalizing a with
  | nil => rfl
  | cons b l ih => simp [carry, ih]

/-- A pass rearranges. -/
theorem carry_perm (a : α) (l : List α) :
    ((carry a l).1 ++ [(carry a l).2]).Perm (a :: l) := by
  induction l generalizing a with
  | nil => exact .refl _
  | cons b l ih =>
      have hpair : (min a b :: max a b :: l).Perm (a :: b :: l) := by
        rcases le_total a b with hle | hle
        · rw [min_eq_left hle, max_eq_right hle]
        · rw [min_eq_right hle, max_eq_left hle]
          exact List.Perm.swap a b l
      exact ((ih (max a b)).cons (min a b)).trans hpair

/-- The element that a pass carries to the end is no smaller than the one it
began with. -/
theorem le_carry_self (a : α) (l : List α) : a ≤ (carry a l).2 := by
  induction l generalizing a with
  | nil => exact le_rfl
  | cons b l ih => exact (le_max_left a b).trans (ih (max a b))

/-- Nothing is greater than what a pass leaves at the end. -/
theorem le_carry {a x : α} {l : List α} (hx : x ∈ a :: l) : x ≤ (carry a l).2 := by
  induction l generalizing a with
  | nil => exact (List.mem_singleton.mp hx).le
  | cons b l ih =>
      have hlast := le_carry_self (max a b) l
      rcases List.mem_cons.mp hx with rfl | htail
      · exact (le_max_left x b).trans hlast
      · rcases List.mem_cons.mp htail with rfl | hrest
        · exact (le_max_right a x).trans hlast
        · exact ih (List.mem_cons_of_mem _ hrest)

/-- What is behind is sorted, and nothing of it is smaller than the front. -/
structure Settled (front back : List α) : Prop where
  sorted : back.Pairwise (· ≤ ·)
  below : ∀ x ∈ front, ∀ y ∈ back, x ≤ y

/-- Before the first pass. -/
theorem settled_nil (front : List α) : Settled front [] where
  sorted := List.Pairwise.nil
  below _ _ _ hy := absurd hy List.not_mem_nil

/-- **A pass settles the greatest element of the front.**  It is carried to
the end of the front, where all that is settled behind it is no smaller. -/
theorem Settled.carry {a : α} {l back : List α} (h : Settled (a :: l) back) :
    Settled (carry a l).1 ((BubbleSort.carry a l).2 :: back) := by
  have hmem : ∀ x ∈ (BubbleSort.carry a l).1 ++ [(BubbleSort.carry a l).2], x ∈ a :: l :=
    fun x hx => (carry_perm a l).mem_iff.mp hx
  have hlast := hmem _ (List.mem_append_right _ (List.mem_singleton.mpr rfl))
  constructor
  · exact List.pairwise_cons.mpr ⟨h.below _ hlast, h.sorted⟩
  · intro x hx y hy
    have hx := hmem x (List.mem_append_left _ hx)
    rcases List.mem_cons.mp hy with rfl | hback
    · exact le_carry hx
    · exact h.below x hx y hback

/-- When one element is left in front, all is sorted. -/
theorem Settled.sorted_cons {a : α} {back : List α} (h : Settled [a] back) :
    (a :: back).Pairwise (· ≤ ·) :=
  List.pairwise_cons.mpr ⟨h.below a (List.mem_singleton.mpr rfl), h.sorted⟩

end BubbleSort
