import Mathlib.Data.Set.Basic
import Mathlib.Order.BooleanAlgebra.Set
import Mathlib.Logic.Relation

/-!
# Components of a set

Two points of a set are in one component if a chain of neighbours inside the set joins
them.  A search that starts at a point of the set has found its component as soon as
nothing found has a neighbour left outside (`component_subset_of_closed`).  Taking a whole
component away leaves the other components as they were (`component_diff`), so what is
taken away one component after the other splits the set (`Peels.partition`).
-/

namespace Components

open Relation

variable {α : Type*} {Near : α → α → Prop} {S T : Set α} {a b c : α}

/-- The points that chains of neighbours inside `S` join to `a`. -/
def component (Near : α → α → Prop) (S : Set α) (a : α) : Set α :=
  {b | a ∈ S ∧ ReflTransGen (fun p q => Near p q ∧ q ∈ S) a b}

theorem mem_component_self (ha : a ∈ S) : a ∈ component Near S a := ⟨ha, .refl⟩

theorem component_subset : component Near S a ⊆ S := by
  rintro b ⟨ha, hchain⟩
  rcases hchain.cases_tail with heq | ⟨c, _, _, hb⟩
  · exact heq ▸ ha
  · exact hb

/-- A neighbour inside the set belongs to the component. -/
theorem component_step (hb : b ∈ component Near S a) (hnear : Near b c) (hc : c ∈ S) :
    c ∈ component Near S a :=
  ⟨hb.1, hb.2.tail ⟨hnear, hc⟩⟩

/-- Whatever holds the point and all neighbours of what it holds, holds the
component. -/
theorem component_subset_of_closed (ha : a ∈ T)
    (hclosed : ∀ b ∈ T, ∀ c ∈ S, Near b c → c ∈ T) : component Near S a ⊆ T := by
  rintro b ⟨-, hchain⟩
  induction hchain with
  | refl => exact ha
  | tail _ hlast ih => exact hclosed _ ih _ hlast.2 hlast.1

theorem component_mono (h : S ⊆ T) : component Near S a ⊆ component Near T a := by
  intro b hb
  exact ⟨h hb.1, hb.2.lift id fun p q hstep => ⟨hstep.1, h hstep.2⟩⟩

/-- No two neighbours of the set are in different components. -/
theorem not_near_of_diff (hb : b ∈ component Near S a) (hc : c ∈ S \ component Near S a) :
    ¬ Near b c :=
  fun hnear => hc.2 (component_step hb hnear hc.1)

section Symmetric

variable (hsymm : ∀ p q, Near p q → Near q p)
include hsymm

theorem component_symm (hb : b ∈ component Near S a) : a ∈ component Near S b := by
  obtain ⟨ha, hchain⟩ := hb
  induction hchain with
  | refl => exact mem_component_self ha
  | @tail p q hreach hstep ih =>
      have hp : p ∈ S := @component_subset _ Near _ _ _ ⟨ha, hreach⟩
      have hback : p ∈ component Near S q :=
        component_step (mem_component_self hstep.2) (hsymm _ _ hstep.1) hp
      exact ⟨hback.1, hback.2.trans ih.2⟩

/-- Every point of a component has this component. -/
theorem component_eq (hb : b ∈ component Near S a) :
    component Near S b = component Near S a := by
  have hback := component_symm hsymm hb
  ext c
  constructor
  · intro hc
    exact ⟨hb.1, hb.2.trans hc.2⟩
  · intro hc
    exact ⟨hback.1, hback.2.trans hc.2⟩

/-- Without one component, the others are as before. -/
theorem component_diff (hb : b ∈ S \ component Near S a) :
    component Near (S \ component Near S a) b = component Near S b := by
  apply Set.Subset.antisymm (component_mono Set.sdiff_subset)
  apply component_subset_of_closed (mem_component_self hb)
  intro p hp q hq hnear
  have hp' : p ∈ S \ component Near S a := component_subset hp
  have hq' : q ∉ component Near S a := fun hmem =>
    not_near_of_diff hmem hp' (hsymm _ _ hnear)
  exact component_step hp hnear ⟨hq, hq'⟩

end Symmetric

/-- The set is taken away component after component, of these points in turn. -/
inductive Peels (Near : α → α → Prop) : Set α → List α → Prop where
  | nil : Peels Near ∅ []
  | cons {S : Set α} {a : α} {as : List α} (ha : a ∈ S)
      (hrest : Peels Near (S \ component Near S a) as) : Peels Near S (a :: as)

/-- **Every component once.**  Each point of the set is in the component of
exactly one of the points in turn, and these are points of the set.  By
induction on the points: the first takes its component away, the others are
found in what is left. -/
theorem Peels.partition (hsymm : ∀ p q, Near p q → Near q p) {as : List α}
    (h : Peels Near S as) : (∀ a ∈ as, a ∈ S) ∧
      ∀ b ∈ S, ∃! a, a ∈ as ∧ b ∈ component Near S a := by
  induction h with
  | nil => simp
  | @cons S a as ha hrest ih =>
      obtain ⟨hmem, hcover⟩ := ih
      have hsame : ∀ b ∈ as, component Near (S \ component Near S a) b = component Near S b :=
        fun b hb => component_diff hsymm (hmem b hb)
      refine ⟨?_, ?_⟩
      · intro b hb
        rcases List.mem_cons.mp hb with rfl | hb
        · exact ha
        · exact (hmem b hb).1
      · intro b hb
        by_cases hfirst : b ∈ component Near S a
        · refine ⟨a, ⟨List.mem_cons_self, hfirst⟩, ?_⟩
          rintro c ⟨hc, hbc⟩
          rcases List.mem_cons.mp hc with rfl | hc
          · rfl
          · have hac := component_symm hsymm hbc
            rw [component_eq hsymm hfirst] at hac
            exact absurd hac (hmem c hc).2
        · obtain ⟨c, ⟨hc, hbc⟩, hunique⟩ := hcover b ⟨hb, hfirst⟩
          refine ⟨c, ⟨List.mem_cons_of_mem a hc, hsame c hc ▸ hbc⟩, ?_⟩
          rintro d ⟨hd, hbd⟩
          rcases List.mem_cons.mp hd with rfl | hd
          · exact absurd hbd hfirst
          · exact hunique d ⟨hd, (hsame d hd).symm ▸ hbd⟩

end Components
