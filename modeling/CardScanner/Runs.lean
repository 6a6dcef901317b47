import Mathlib.Data.List.Basic

/-!
# Maximal runs

The maximal nonempty stretches of a list on which a test holds.  They are the
pieces between the elements that fail it, so an element that fails the test
separates the runs before it from the runs behind it.
-/

namespace Runs

variable {α : Type*} (p : α → Bool)

/-- The maximal nonempty stretches of elements that pass `p`, in order. -/
def runs (l : List α) : List (List α) :=
  (l.splitOnP fun x => !p x).filter fun r => !r.isEmpty

variable {p}

@[simp] theorem runs_nil : runs p [] = [] := rfl

/-- An element that fails the test separates. -/
theorem runs_append_cons {x : α} (hx : p x = false) (l k : List α) :
    runs p (l ++ x :: k) = runs p l ++ runs p k := by
  unfold runs
  rw [List.splitOnP_append_cons l k (by simp [hx]), List.filter_append]

/-- A nonempty list of passing elements is one run. -/
theorem runs_of_all {l : List α} (hne : l ≠ []) (hl : ∀ x ∈ l, p x = true) :
    runs p l = [l] := by
  unfold runs
  rw [List.splitOnP_eq_singleton (fun x hx => by simp [hl x hx])]
  simp [hne]

/-- A piece between separators contains none of them.  The induction goes from
the first separator to the list behind it. -/
theorem sep_notMem_of_mem_splitOn [BEq α] [LawfulBEq α] {sep : α} {l piece : List α}
    (h : piece ∈ l.splitOn sep) : sep ∉ piece := by
  induction hn : l.length using Nat.strongRecOn generalizing l with
  | ind n ih =>
      by_cases hsep : sep ∈ l
      · obtain ⟨u, v, rfl, hu⟩ := List.eq_append_cons_of_mem hsep
        rw [List.splitOn_append_cons_self_of_not_mem hu, List.mem_cons] at h
        rcases h with rfl | h
        · exact hu
        · exact ih v.length (by rw [← hn]; simp; omega) h rfl
      · rw [List.splitOn_eq_singleton hsep, List.mem_singleton] at h
        rw [h]
        exact hsep

/-- Elements of a run are elements of the list that pass the test.  Here it
goes from the first element that fails. -/
theorem mem_of_mem_runs {l r : List α} (hr : r ∈ runs p l) : ∀ x ∈ r, x ∈ l ∧ p x = true := by
  induction hn : l.length using Nat.strongRecOn generalizing l with
  | ind n ih =>
      by_cases hall : ∀ x ∈ l, p x = true
      · by_cases hne : l = []
        · subst hne
          simp at hr
        · rw [runs_of_all hne hall, List.mem_singleton] at hr
          subst hr
          intro x hx
          exact ⟨hx, hall x hx⟩
      · simp only [not_forall, Bool.not_eq_true] at hall
        obtain ⟨x, hx, hpx⟩ := hall
        obtain ⟨before, behind, rfl⟩ := List.append_of_mem hx
        rw [runs_append_cons hpx, List.mem_append] at hr
        intro y hy
        rcases hr with hr | hr
        · have hmem := ih before.length (by simp at hn; omega) hr rfl y hy
          exact ⟨List.mem_append_left _ hmem.1, hmem.2⟩
        · have hmem := ih behind.length (by simp at hn; omega) hr rfl y hy
          exact ⟨List.mem_append_right _ (List.mem_cons_of_mem _ hmem.1), hmem.2⟩

end Runs
