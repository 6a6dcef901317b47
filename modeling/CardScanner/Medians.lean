import Mathlib.Data.List.Sort
import Mathlib.Order.Nat
import Mathlib.Tactic.Common

/-!
# Elements by rank, and the medians of two quantities

The element of rank `k` of a list is the one at position `k` of the sorted list.
It is placed by counting: at most `k` elements are smaller, more than `k` are no
greater (`le_iff_of_ranked`, `ranked_le_iff`).

Two quantities have each their own median.  An element that reaches both need
not exist: there is none exactly if the list falls into two halves, of one size,
one of which has the smaller values of the first quantity and the greater ones
of the second throughout (`exists_both_iff`).
-/

namespace Medians

variable {α : Type*} [LinearOrder α]

/-- The element of rank `k`, counted from 0, if the list has one. -/
def ranked (l : List α) (k : Nat) : Option α := (l.insertionSort (· ≤ ·))[k]?

theorem exists_ranked {l : List α} {k : Nat} (hk : k < l.length) : ∃ v, ranked l k = some v := by
  have hk' : k < (l.insertionSort (· ≤ ·)).length := by
    rw [List.length_insertionSort]
    exact hk
  exact ⟨_, List.getElem?_eq_getElem hk'⟩

/-- The order of the elements does not matter. -/
theorem ranked_of_perm {l l' : List α} (h : l.Perm l') (k : Nat) : ranked l k = ranked l' k := by
  have hsorted : l.insertionSort (· ≤ ·) = l'.insertionSort (· ≤ ·) := by
    have hperm : (l.insertionSort (· ≤ ·)).Perm (l'.insertionSort (· ≤ ·)) :=
      (List.perm_insertionSort _ l).trans (h.trans (List.perm_insertionSort _ l').symm)
    exact hperm.eq_of_pairwise' (List.pairwise_insertionSort _ l) (List.pairwise_insertionSort _ l')
  unfold ranked
  rw [hsorted]

/-- In a sorted list, the elements that pass a test come first if smaller ones
pass whenever greater ones do. -/
theorem passes_iff_of_sorted {s : List α} (hs : s.Pairwise (· ≤ ·)) {P : α → Bool}
    (hP : ∀ x y, x ≤ y → P y = true → P x = true) {k : Nat} {v : α} (hv : s[k]? = some v) :
    P v = true ↔ k < s.countP P := by
  induction s generalizing k with
  | nil => simp at hv
  | cons y s ih =>
      obtain ⟨hhead, htail⟩ := List.pairwise_cons.mp hs
      have hnone : ¬ P y = true → s.countP P = 0 := by
        intro hy
        exact List.countP_eq_zero.mpr fun z hz hz' => hy (hP y z (hhead z hz) hz')
      rw [List.countP_cons]
      cases k with
      | zero =>
          obtain rfl : y = v := by simpa using hv
          by_cases hy : P y = true
          · simp [hy]
          · simp [hy, hnone hy]
      | succ k =>
          rw [List.getElem?_cons_succ] at hv
          by_cases hy : P y = true
          · simp [ih htail hv, hy]
          · have hv' : ¬ P v = true :=
              fun h => hy (hP y v (hhead v (List.mem_of_getElem? hv)) h)
            simp [hy, hv', hnone hy]

/-- **The element of a rank.**  It passes such a test exactly if more elements
than its rank do, since those that pass a downward closed test come first in
the sorted list. -/
theorem passes_ranked_iff {l : List α} {P : α → Bool}
    (hP : ∀ x y, x ≤ y → P y = true → P x = true) {k : Nat} {v : α} (hv : ranked l k = some v) :
    P v = true ↔ k < l.countP P := by
  rw [passes_iff_of_sorted (List.pairwise_insertionSort (· ≤ ·) l) hP hv,
    (List.perm_insertionSort (· ≤ ·) l).countP_eq]

/-- An element of a rank, by counting: so many elements and no more lie below
it. -/
theorem ranked_le_iff {l : List α} {k : Nat} {v : α} (hv : ranked l k = some v) (x : α) :
    v ≤ x ↔ k < l.countP fun y => decide (y ≤ x) := by
  rw [← passes_ranked_iff (fun a b hab => by simpa using hab.trans) hv, decide_eq_true_eq]

/-- At most `k` elements are smaller than the one of rank `k`. -/
theorem countP_lt_ranked_le {l : List α} {k : Nat} {v : α} (hv : ranked l k = some v) :
    (l.countP fun y => decide (y < v)) ≤ k := by
  have hself := passes_ranked_iff (P := fun y => decide (y < v))
    (fun a b hab => by simpa using hab.trans_lt) hv
  rw [decide_eq_true_eq] at hself
  exact not_lt.mp fun h => (hself.mpr h).false

/-! ## Two quantities -/

section Two

variable {ι β : Type*} [LinearOrder β] {f : ι → α} {g : ι → β} {l : List ι}

/-- The list falls into two halves of one size: in the first, `f` is smaller
and `g` greater than in the second, throughout. -/
def Opposed (f : ι → α) (g : ι → β) (l : List ι) : Prop :=
  ∃ a b, l.Perm (a ++ b) ∧ a.length = b.length ∧ ∀ p ∈ a, ∀ q ∈ b, f p < f q ∧ g q < g p

omit [LinearOrder α] in
/-- Counting over the two halves. -/
theorem countP_of_perm {a b : List ι} (hperm : l.Perm (a ++ b)) (h : ι → α) (P : α → Bool) :
    (l.map h).countP P = a.countP (P ∘ h) + b.countP (P ∘ h) := by
  rw [List.countP_map, hperm.countP_eq, List.countP_append]

/-- No element of opposed halves reaches both medians, since what is no
greater than its first value lies in the first half. -/
theorem Opposed.not_both (h : Opposed f g l) {vf : α} {vg : β}
    (hf : ranked (l.map f) (l.length / 2) = some vf)
    (hg : ranked (l.map g) (l.length / 2) = some vg) :
    ¬ ∃ i ∈ l, vf ≤ f i ∧ vg ≤ g i := by
  rintro ⟨i, hi, hfi, hgi⟩
  obtain ⟨a, b, hperm, hlen, hopp⟩ := h
  have hhalf : l.length / 2 = a.length := by
    rw [hperm.length_eq, List.length_append]
    omega
  rw [ranked_le_iff hf, hhalf, countP_of_perm hperm] at hfi
  rw [ranked_le_iff hg, hhalf, countP_of_perm hperm] at hgi
  rcases List.mem_append.mp (hperm.mem_iff.mp hi) with hia | hib
  · have hb : b.countP ((fun y => decide (y ≤ f i)) ∘ f) = 0 := by
      refine List.countP_eq_zero.mpr fun q hq => ?_
      simpa using (hopp i hia q hq).1
    have ha : a.countP ((fun y => decide (y ≤ f i)) ∘ f) ≤ a.length := List.countP_le_length
    omega
  · have ha : a.countP ((fun y => decide (y ≤ g i)) ∘ g) = 0 := by
      refine List.countP_eq_zero.mpr fun p hp => ?_
      simpa using (hopp p hp i hib).2
    have hb : b.countP ((fun y => decide (y ≤ g i)) ∘ g) ≤ b.length := List.countP_le_length
    omega

/-- If no element reaches both medians, the halves are those below and from
the median of the first quantity.  Neither has more than half of the elements. -/
theorem opposed_of_not_both {vf : α} {vg : β}
    (hf : ranked (l.map f) (l.length / 2) = some vf)
    (hg : ranked (l.map g) (l.length / 2) = some vg)
    (hnone : ∀ i ∈ l, vf ≤ f i → g i < vg) : Opposed f g l := by
  have hperm : l.Perm (l.filter (fun i => decide (f i < vf)) ++
      l.filter (fun i => !decide (f i < vf))) :=
    (List.filter_append_perm (fun i => decide (f i < vf)) l).symm
  generalize ha : l.filter (fun i => decide (f i < vf)) = a at hperm
  generalize hb : l.filter (fun i => !decide (f i < vf)) = b at hperm
  have hlow : ∀ p ∈ a, f p < vf := by
    intro p hp
    rw [← ha, List.mem_filter] at hp
    simpa using hp.2
  have hhigh : ∀ q ∈ b, vf ≤ f q ∧ g q < vg := by
    intro q hq
    rw [← hb, List.mem_filter] at hq
    have hle : vf ≤ f q := by simpa using hq.2
    exact ⟨hle, hnone q hq.1 hle⟩
  have hlen := hperm.length_eq
  rw [List.length_append] at hlen
  have hcountf := countP_lt_ranked_le hf
  rw [countP_of_perm hperm, List.countP_eq_length.mpr (fun p hp => by simpa using hlow p hp)]
    at hcountf
  have hcountg := countP_lt_ranked_le hg
  rw [countP_of_perm hperm, Nat.add_comm,
    List.countP_eq_length.mpr (fun q hq => by simpa using (hhigh q hq).2)] at hcountg
  have hrest : a.countP ((fun y => decide (y < vg)) ∘ g) = 0 := by omega
  refine ⟨a, b, hperm, by omega, fun p hp q hq => ⟨?_, ?_⟩⟩
  · exact (hlow p hp).trans_le (hhigh q hq).1
  · have hp' : ¬ g p < vg := by simpa using List.countP_eq_zero.mp hrest p hp
    exact (hhigh q hq).2.trans_le (not_lt.mp hp')

/-- **Both medians.**  Some element reaches the medians of both quantities
exactly if the list does not fall into opposed halves.  A median is reached by
half of the elements at least, so only exact halves can miss each other. -/
theorem exists_both_iff {vf : α} {vg : β} (hf : ranked (l.map f) (l.length / 2) = some vf)
    (hg : ranked (l.map g) (l.length / 2) = some vg) :
    (∃ i ∈ l, vf ≤ f i ∧ vg ≤ g i) ↔ ¬ Opposed f g l := by
  constructor
  · intro h hopp
    exact hopp.not_both hf hg h
  · intro hopp
    by_contra hnone
    refine hopp (opposed_of_not_both hf hg fun i hi hfi => ?_)
    by_contra hgi
    exact hnone ⟨i, hi, hfi, not_lt.mp hgi⟩

end Two

end Medians
