import Mathlib.Data.Fintype.Card
import Mathlib.Data.List.Nodup
import Mathlib.Logic.Relation

/-!
# Doubly linked lists in a table

Every node of a finite table has a link to the next node and one to the previous
node, or to none.  The two links are inverse to each other and make no cycle, so
a walk along either of them comes to an end, and it meets no node twice.

From any node, the nodes met in both directions, with the node itself, are all
nodes of its list.  Where every node has a key, the keys are constant along the
links and only one list has a given key, that is all the nodes with this key
(`mem_both_iff`).
-/

open Relation

variable {ι : Type*}

/-- The link of `i` leads to `j`. -/
def Follows (link : ι → Option ι) (i j : ι) : Prop := link i = some j

instance [DecidableEq ι] (link : ι → Option ι) (i j : ι) : Decidable (Follows link i j) := by
  unfold Follows; infer_instance

/-- The nodes that a walk meets which follows `link` to its end. -/
inductive Walk (link : ι → Option ι) : Option ι → List ι → Prop
  | done : Walk link none []
  | step {i : ι} {l : List ι} : Walk link (link i) l → Walk link (some i) (i :: l)

/-- Links in both directions, without a cycle. -/
structure DoublyLinked (next prev : ι → Option ι) : Prop where
  inverse : ∀ i j, Follows next i j ↔ Follows prev j i
  acyclic : ∀ i, ¬ TransGen (Follows next) i i

/-! ## Walks -/

namespace Walk

variable {link : ι → Option ι} {start : Option ι} {i j : ι} {l : List ι}

/-- A walk meets what can be reached by following the links, and nothing else. -/
theorem mem_iff (h : Walk link (some i) l) : j ∈ l ↔ ReflTransGen (Follows link) i j := by
  generalize hstart : some i = start at h
  induction h generalizing i with
  | done => cases hstart
  | @step k l hrest ih =>
      cases hstart
      rw [List.mem_cons, ReflTransGen.cases_head_iff]
      unfold Follows at *
      cases hlink : link k with
      | none =>
          rw [hlink] at hrest
          cases hrest
          simp [eq_comm]
      | some k' =>
          rw [ih hlink.symm]
          simp [eq_comm]

/-- Without cycles it meets no node twice: from the second time on it would go
round. -/
theorem nodup (h : Walk link start l) (hacyclic : ∀ i, ¬ TransGen (Follows link) i i) :
    l.Nodup := by
  induction h with
  | done => exact List.nodup_nil
  | @step i l hrest ih =>
      refine List.nodup_cons.mpr ⟨fun hmem => ?_, ih⟩
      cases hlink : link i with
      | none =>
          rw [hlink] at hrest
          cases hrest
          cases hmem
      | some j =>
          rw [hlink] at hrest
          exact hacyclic i (TransGen.head' hlink (hrest.mem_iff.mp hmem))

/-- **Every walk ends** in a finite table without cycles: the element behind
can be walked from, by induction along the links, which are well-founded
there. -/
theorem exists_walk [Finite ι] (hacyclic : ∀ i, ¬ TransGen (Follows link) i i)
    (start : Option ι) : ∃ l, Walk link start l := by
  have hwf : WellFounded (Function.swap (TransGen (Follows link))) := by
    have : IsTrans ι (Function.swap (TransGen (Follows link))) :=
      ⟨fun _ _ _ hab hbc => hbc.trans hab⟩
    have : Std.Irrefl (Function.swap (TransGen (Follows link))) := ⟨hacyclic⟩
    exact Finite.wellFounded_of_trans_of_irrefl _
  cases start with
  | none => exact ⟨[], .done⟩
  | some i =>
      induction i using hwf.induction with
      | h i ih =>
          cases hlink : link i with
          | none => exact ⟨[i], .step (hlink ▸ .done)⟩
          | some j =>
              obtain ⟨l, hl⟩ := ih j (TransGen.single hlink)
              exact ⟨i :: l, .step (hlink ▸ hl)⟩

end Walk

/-! ## Both directions -/

namespace DoublyLinked

variable {next prev : ι → Option ι} {i j : ι}

/-- Links that only go up make no cycle. -/
theorem of_lt [Preorder ι] (hinverse : ∀ i j, Follows next i j ↔ Follows prev j i)
    (hlt : ∀ i j, Follows next i j → i < j) : DoublyLinked next prev where
  inverse := hinverse
  acyclic i hcycle := by
    have hup : ∀ j, TransGen (Follows next) i j → i < j := by
      intro j hreach
      induction hreach with
      | single hlink => exact hlt _ _ hlink
      | tail _ hlink ih => exact ih.trans (hlt _ _ hlink)
    exact lt_irrefl i (hup i hcycle)

/-- Along the backward links one meets the same elements in the other
direction. -/
theorem follows_prev (h : DoublyLinked next prev) :
    Follows prev = Function.swap (Follows next) := by
  funext i j
  exact propext (h.inverse j i).symm

/-- The other way round. -/
theorem symm (h : DoublyLinked next prev) : DoublyLinked prev next where
  inverse i j := (h.inverse j i).symm
  acyclic i hcycle := by
    rw [h.follows_prev, transGen_swap] at hcycle
    exact h.acyclic i hcycle

/-- A node is reached by going back from all that it reaches. -/
theorem reach_iff (h : DoublyLinked next prev) :
    ReflTransGen (Follows prev) i j ↔ ReflTransGen (Follows next) j i := by
  rw [h.follows_prev, reflTransGen_swap]

/-- Every node is reached from one without a predecessor, as there are
finitely many and no cycles. -/
theorem exists_head [Finite ι] (h : DoublyLinked next prev) (i : ι) :
    ∃ head, prev head = none ∧ ReflTransGen (Follows next) head i := by
  obtain ⟨l, hl⟩ := Walk.exists_walk h.symm.acyclic (some i)
  generalize hstart : some i = start at hl
  induction hl generalizing i with
  | done => cases hstart
  | @step k l hrest ih =>
      cases hstart
      cases hprev : prev k with
      | none => exact ⟨k, hprev, .refl⟩
      | some j =>
          obtain ⟨head, hhead, hreach⟩ := ih j hprev.symm
          exact ⟨head, hhead, hreach.tail ((h.inverse j k).mpr hprev)⟩

/-- What is constant along the link is the same for all that is reached. -/
theorem key_eq_of_reach {κ : Type*} {key : ι → κ}
    (hkey : ∀ i j, Follows next i j → key i = key j) (hreach : ReflTransGen (Follows next) i j) :
    key i = key j := by
  induction hreach with
  | refl => rfl
  | tail _ hlink ih => exact ih.trans (hkey _ _ hlink)

/-- **The whole list.**  Walks in both directions from a node meet all nodes
that have its key, if only one of these has no predecessor: two of them are
both reached from that head, so one of them is reached from the other. -/
theorem mem_both_iff [Finite ι] (h : DoublyLinked next prev) {κ : Type*} {key : ι → κ}
    (hkey : ∀ i j, Follows next i j → key i = key j)
    (hone : ∀ j k, key j = key i → key k = key i → prev j = none → prev k = none → j = k)
    {before after : List ι} (hbefore : Walk prev (prev i) before)
    (hafter : Walk next (next i) after) : j ∈ before ++ i :: after ↔ key j = key i := by
  have hback := (Walk.step hbefore).mem_iff (j := j)
  have hforth := (Walk.step hafter).mem_iff (j := j)
  have hmem : j ∈ before ++ i :: after ↔ j ∈ i :: before ∨ j ∈ i :: after := by
    simp only [List.mem_append, List.mem_cons]
    tauto
  rw [hmem, hback, hforth, h.reach_iff]
  constructor
  · intro hreach
    rcases hreach with hreach | hreach
    · exact key_eq_of_reach hkey hreach
    · exact (key_eq_of_reach hkey hreach).symm
  · intro hsame
    obtain ⟨head, hhead, hreach⟩ := h.exists_head i
    obtain ⟨head', hhead', hreach'⟩ := h.exists_head j
    have heq : head = head' := by
      apply hone head head' _ _ hhead hhead'
      · exact key_eq_of_reach hkey hreach
      · exact (key_eq_of_reach hkey hreach').trans hsame
    have hdet : Relator.RightUnique (Follows next) := by
      intro a b c hb hc
      exact Option.some.inj (hb.symm.trans hc)
    rw [← heq] at hreach'
    exact (ReflTransGen.total_of_right_unique hdet hreach hreach').symm

/-- No node is met twice, going both ways from one and counting that one. -/
theorem nodup_both (h : DoublyLinked next prev) {before after : List ι}
    (hbefore : Walk prev (prev i) before) (hafter : Walk next (next i) after) :
    (before ++ i :: after).Nodup := by
  refine List.nodup_append.mpr ⟨hbefore.nodup h.symm.acyclic,
    (Walk.step hafter).nodup h.acyclic, ?_⟩
  intro a ha b hb hab
  subst hab
  have hto : ReflTransGen (Follows next) i a := (Walk.step hafter).mem_iff.mp hb
  cases hprev : prev i with
  | none =>
      rw [hprev] at hbefore
      cases hbefore
      cases ha
  | some j =>
      rw [hprev] at hbefore
      have hback : ReflTransGen (Follows next) a j := h.reach_iff.mp (hbefore.mem_iff.mp ha)
      exact h.acyclic i (TransGen.tail' (hto.trans hback) ((h.inverse j i).mpr hprev))

end DoublyLinked
