import Mathlib.Algebra.Group.Pointwise.Set.Basic
import Mathlib.Data.Set.Lattice
import Mathlib.Order.CompletePartialOrder
import Mathlib.Order.GaloisConnection.Basic

/-!
# Morphology

Dilation and erosion of a set of places by a set of steps.  They are adjoint
(`gc_dilate_erode`), which gives the laws of opening and closing; a dilation or an erosion
by a sum of sets is one after the other (`dilate_add`, `erode_add`), so that a rectangle can
be done by its two sides.

The opening of a set holds the places of the copies of the shape that fit into the set
(`mem_opening`), and its closing leaves out those of the reflected copies that fit beside it
(`notMem_closing`).
-/

namespace Morphology

open scoped Pointwise

variable {G : Type*} [AddCommGroup G] {S T A B : Set G} {p : G}

/-- The places that a step from the set leads to. -/
def dilate (S B : Set G) : Set G := {p | ∃ b ∈ B, p - b ∈ S}

/-- The places from which every step leads into the set. -/
def erode (S B : Set G) : Set G := {p | ∀ b ∈ B, p + b ∈ S}

/-- The opening: what is eroded and then dilated again. -/
def opening (S B : Set G) : Set G := dilate (erode S B) B

/-- The closing, the other way around. -/
def closing (S B : Set G) : Set G := erode (dilate S B) B

/-- A dilation stays within a set exactly if the set's erosion has what was
dilated.  All laws of openings and closings follow from that. -/
theorem gc_dilate_erode (B : Set G) :
    GaloisConnection (fun S : Set G => dilate S B) fun S => erode S B := by
  intro S T
  constructor
  · intro h p hp b hb
    exact h ⟨b, hb, by rwa [add_sub_cancel_right]⟩
  · rintro h p ⟨b, hb, hp⟩
    have hin := h hp b hb
    rwa [sub_add_cancel] at hin

theorem opening_subset (S B : Set G) : opening S B ⊆ S := (gc_dilate_erode B).l_u_le S

/-- Opening twice does no more than opening once. -/
theorem opening_opening (S B : Set G) : opening (opening S B) B = opening S B :=
  congrArg (dilate · B) ((gc_dilate_erode B).u_l_u_eq_u S)

theorem closing_closing (S B : Set G) : closing (closing S B) B = closing S B :=
  congrArg (erode · B) ((gc_dilate_erode B).l_u_l_eq_l S)

/-- A place of the opening is in a copy of the shape inside the set. -/
theorem mem_opening : p ∈ opening S B ↔ ∃ t, p - t ∈ B ∧ ∀ b ∈ B, t + b ∈ S := by
  constructor
  · rintro ⟨b, hb, hp⟩
    exact ⟨p - b, by rwa [sub_sub_cancel], hp⟩
  · rintro ⟨t, ht, hfits⟩
    exact ⟨p - t, ht, by rwa [sub_sub_cancel]⟩

/-- A place is not in the closing if a reflected copy of the shape is around
it and free of the set. -/
theorem notMem_closing : p ∉ closing S B ↔ ∃ t, t - p ∈ B ∧ ∀ b ∈ B, t - b ∉ S := by
  constructor
  · intro h
    have h' : ∃ b ∈ B, p + b ∉ dilate S B := by
      by_contra hall
      push Not at hall
      exact h hall
    obtain ⟨b, hb, hfree⟩ := h'
    exact ⟨p + b, by rwa [add_sub_cancel_left], fun c hc hin => hfree ⟨c, hc, hin⟩⟩
  · rintro ⟨t, ht, hfree⟩ hin
    obtain ⟨b, hb, hmeets⟩ := hin (t - p) ht
    rw [add_sub_cancel] at hmeets
    exact hfree b hb hmeets

/-- A dilation by a sum is one after the other. -/
theorem dilate_add (S A B : Set G) : dilate S (A + B) = dilate (dilate S A) B := by
  ext p
  constructor
  · rintro ⟨_, ⟨a, ha, b, hb, rfl⟩, hp⟩
    exact ⟨b, hb, a, ha, by rwa [sub_sub, add_comm b a]⟩
  · rintro ⟨b, hb, a, ha, hp⟩
    exact ⟨a + b, ⟨a, ha, b, hb, rfl⟩, by rwa [sub_sub, add_comm b a] at hp⟩

/-- An erosion by a sum is one after the other. -/
theorem erode_add (S A B : Set G) : erode S (A + B) = erode (erode S A) B := by
  ext p
  constructor
  · intro h b hb a ha
    rw [add_assoc, add_comm b a]
    exact h (a + b) ⟨a, ha, b, hb, rfl⟩
  · rintro h _ ⟨a, ha, b, hb, rfl⟩
    have hin := h b hb a ha
    rwa [add_assoc, add_comm b a] at hin

/-- A step of zero erodes to a part of the set. -/
theorem erode_subset (h : (0 : G) ∈ B) : erode S B ⊆ S := by
  intro p hp
  have hin := hp 0 h
  rwa [add_zero] at hin

theorem subset_dilate (h : (0 : G) ∈ B) : S ⊆ dilate S B := by
  intro p hp
  exact ⟨0, h, by rwa [sub_zero]⟩

theorem dilate_zero (S : Set G) : dilate S {0} = S := by
  ext p
  simp [dilate]

theorem erode_zero (S : Set G) : erode S {0} = S := by
  ext p
  simp [erode]

/-- Moving a set moves its dilation. -/
theorem dilate_move (S B : Set G) (t : G) :
    dilate {p | p - t ∈ S} B = {p | p - t ∈ dilate S B} := by
  ext p
  simp only [dilate, Set.mem_ofPred_eq, sub_right_comm p _ t]

/-- Moving a set moves its erosion. -/
theorem erode_move (S B : Set G) (t : G) :
    erode {p | p - t ∈ S} B = {p | p - t ∈ erode S B} := by
  ext p
  simp only [erode, Set.mem_ofPred_eq, add_sub_right_comm p _ t]

theorem closing_move (S B : Set G) (t : G) :
    closing {p | p - t ∈ S} B = {p | p - t ∈ closing S B} := by
  rw [closing, dilate_move, erode_move]
  rfl

end Morphology
