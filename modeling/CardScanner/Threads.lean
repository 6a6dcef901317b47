import Mathlib.Algebra.BigOperators.Group.Finset.Basic
import Mathlib.Data.Fintype.Basic
import CardScanner.Machine

/-!
# Threads over a shared state

Each of finitely many threads has a local state (where it stands, and what it
holds) and takes atomic steps that also change one shared state; a run is any
interleaving.  A step sees the other threads only through the shared state, so
an invariant that ties the shared state to what all threads hold *together* is
proved one thread at a time: give each local state a weight in a commutative
monoid, and let the rest of the sum be arbitrary (`invariant_of_weight`).
-/

namespace Threads

open Relation

variable {ι ℓ γ M : Type*} [DecidableEq ι]

/-- The threads' local states and the shared state. -/
structure Config (ι ℓ γ : Type*) where
  locals : ι → ℓ
  shared : γ

/-- Some thread takes a step. -/
def Step (step : ℓ → γ → ℓ → γ → Prop) (c d : Config ι ℓ γ) : Prop :=
  ∃ i l, step (c.locals i) c.shared l d.shared ∧ d.locals = Function.update c.locals i l

/-- The configurations that an interleaving of the threads can lead to. -/
abbrev Reach (step : ℓ → γ → ℓ → γ → Prop) (c d : Config ι ℓ γ) : Prop :=
  ReflTransGen (Step step) c d

/-- What the threads hold together. -/
def total [Fintype ι] [AddCommMonoid M] (weight : ℓ → M) (c : Config ι ℓ γ) : M :=
  ∑ i, weight (c.locals i)

variable [Fintype ι] [AddCommMonoid M]

/-- The weight of one thread and that of the rest. -/
theorem exists_total_eq (weight : ℓ → M) (locals : ι → ℓ) (i : ι) :
    ∃ rest, ∀ l, ∑ j, weight (Function.update locals i l j) = weight l + rest := by
  refine ⟨∑ j ∈ Finset.univ.erase i, weight (locals j), fun l => ?_⟩
  rw [← Finset.add_sum_erase Finset.univ _ (Finset.mem_univ i), Function.update_self]
  congr 1
  refine Finset.sum_congr rfl fun j hj => ?_
  rw [Function.update_of_ne (Finset.ne_of_mem_erase hj)]

/-- **Invariants thread by thread.**  Let every step of one thread keep what
is said of each thread alone, and keep what ties the shared state to the sum
of the weights whatever the other threads add to it.  Then every interleaving
does. -/
theorem invariant_of_weight {step : ℓ → γ → ℓ → γ → Prop} {weight : ℓ → M}
    (alone : ℓ → Prop) (tied : M → γ → Prop)
    (hstep : ∀ l g l' g' rest, alone l → tied (weight l + rest) g → step l g l' g' →
      alone l' ∧ tied (weight l' + rest) g')
    {c d : Config ι ℓ γ} (hrun : Reach step c d)
    (halone : ∀ i, alone (c.locals i)) (htied : tied (total weight c) c.shared) :
    (∀ i, alone (d.locals i)) ∧ tied (total weight d) d.shared := by
  refine Machine.invariant_of_steps
    (P := fun e => (∀ i, alone (e.locals i)) ∧ tied (total weight e) e.shared)
    ?_ hrun ⟨halone, htied⟩
  intro s t hs hmove
  obtain ⟨hs, htied⟩ := hs
  obtain ⟨i, l, hlocal, hlocals⟩ := hmove
  obtain ⟨rest, hrest⟩ := exists_total_eq weight s.locals i
  have hbefore : total weight s = weight (s.locals i) + rest := by
    rw [← hrest, Function.update_eq_self]
    rfl
  have hafter : total weight t = weight l + rest := by
    rw [← hrest, ← hlocals]
    rfl
  rw [hbefore] at htied
  obtain ⟨hl, htied'⟩ := hstep _ _ _ _ rest (hs i) htied hlocal
  refine ⟨fun j => ?_, hafter ▸ htied'⟩
  rw [hlocals]
  by_cases hj : j = i
  · rw [hj, Function.update_self]
    exact hl
  · rw [Function.update_of_ne hj]
    exact hs j

end Threads
