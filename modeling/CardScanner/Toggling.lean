import Mathlib.Algebra.Ring.Parity
import Mathlib.Data.List.Induction
import Mathlib.Data.List.Nodup

/-!
# Toggling members of a list

A list without repetitions remembers what is selected, in the order of
selection: toggling an item takes it out or puts it at the end.  Events hit
items, and an event toggles the items it hits in the order of the list of all
items.

All an event does is to drop the selected items it hits and to append the
others (`toggleAll_eq`), so by induction on the events an item is selected iff
it has been hit an odd number of times, and the selected items stand in the
order of the event that selected them last (`toggled_run`).
-/

namespace Toggling

variable {α τ : Type*} [DecidableEq α]

/-- Out if it is in, in at the end if it is out. -/
def toggle (s : List α) (a : α) : List α := if a ∈ s then s.erase a else s ++ [a]

/-- Toggle one item after the other. -/
def toggleAll (s l : List α) : List α := l.foldl toggle s

theorem nodup_toggle {s : List α} (hs : s.Nodup) (a : α) : (toggle s a).Nodup := by
  unfold toggle
  split_ifs with ha
  · exact hs.erase a
  · rw [← List.concat_eq_append]
    exact hs.concat ha

/-- Toggling `a` is noticed by no other item. -/
theorem mem_toggle_of_ne {s : List α} {a b : α} (hne : b ≠ a) : b ∈ toggle s a ↔ b ∈ s := by
  unfold toggle
  split_ifs
  · exact List.mem_erase_of_ne hne
  · simp [hne]

/-- **Different items toggled one after the other.**  Those selected before
are dropped, the others appended.  As no item comes twice, the order of the
toggles matters for the order of what is appended only. -/
theorem toggleAll_eq {s l : List α} (hs : s.Nodup) (hl : l.Nodup) :
    toggleAll s l = s.filter (· ∉ l) ++ l.filter (· ∉ s) := by
  induction l generalizing s with
  | nil => simp [toggleAll]
  | cons a l ih =>
      obtain ⟨ha, hl⟩ := List.nodup_cons.mp hl
      have hrest : l.filter (· ∉ toggle s a) = l.filter (· ∉ s) := by
        refine List.filter_congr fun b hb => ?_
        have hne : b ≠ a := fun heq => ha (heq ▸ hb)
        simp only [mem_toggle_of_ne hne]
      have hstep : toggleAll s (a :: l) = toggleAll (toggle s a) l := rfl
      rw [hstep, ih (nodup_toggle hs a) hl, hrest]
      by_cases has : a ∈ s
      · have hdropped : (toggle s a).filter (· ∉ l) = s.filter (· ∉ a :: l) := by
          rw [toggle, if_pos has, hs.erase_eq_filter, List.filter_filter]
          refine List.filter_congr fun b _ => ?_
          rw [Bool.eq_iff_iff]
          simp [and_comm]
        rw [hdropped, List.filter_cons_of_neg (by simpa using has)]
      · have happended : (toggle s a).filter (· ∉ l) = s.filter (· ∉ a :: l) ++ [a] := by
          rw [toggle, if_neg has, List.filter_append]
          congr 1
          · refine List.filter_congr fun b hb => ?_
            have hne : b ≠ a := fun heq => has (heq ▸ hb)
            simp [hne]
          · simp [ha]
        rw [happended, List.filter_cons_of_pos (by simpa using has), List.append_assoc]
        rfl

/-! ## Events -/

variable (hit : τ → α → Bool) (items : List α)

/-- One event. -/
def step (s : List α) (e : τ) : List α := toggleAll s (items.filter (hit e))

/-- A run of events, from nothing selected. -/
def run (events : List τ) : List α := events.foldl (step hit items) []

/-- How many of the events hit an item. -/
def hits (events : List τ) (a : α) : ℕ := events.countP (hit · a)

/-- The event at time `t` hits the item and selects it. -/
def SelectsAt (events : List τ) (a : α) (t : ℕ) : Prop :=
  (∃ e, events[t]? = some e ∧ hit e a = true) ∧ Odd (hits hit (events.take (t + 1)) a)

/-- The last time at which an event selected the item. -/
def Latest (events : List τ) (a : α) (t : ℕ) : Prop :=
  SelectsAt hit events a t ∧ ∀ u, SelectsAt hit events a u → u ≤ t

/-- `a` was selected before `b`, or by the same event and stands before it. -/
def Before (events : List τ) (a b : α) : Prop :=
  ∃ t u, Latest hit events a t ∧ Latest hit events b u ∧
    (t < u ∨ t = u ∧ items.idxOf a < items.idxOf b)

/-- What the selection holds after some events. -/
structure Toggled (events : List τ) (s : List α) : Prop where
  mem : ∀ a, a ∈ s ↔ a ∈ items ∧ Odd (hits hit events a)
  nodup : s.Nodup
  latest : ∀ a ∈ s, ∃ t, Latest hit events a t
  order : s.Pairwise (Before hit items events)

variable {hit items}

/-! ## One more event -/

omit [DecidableEq α] in
theorem hits_concat (events : List τ) (e : τ) (a : α) :
    hits hit (events ++ [e]) a = hits hit events a + if hit e a then 1 else 0 := by
  simp [hits, List.countP_append, List.countP_singleton]

omit [DecidableEq α] in
/-- Times before the last event are as they were. -/
theorem selectsAt_concat_of_lt {events : List τ} {e : τ} {a : α} {t : ℕ}
    (ht : t < events.length) :
    SelectsAt hit (events ++ [e]) a t ↔ SelectsAt hit events a t := by
  unfold SelectsAt
  rw [List.getElem?_append_left ht, List.take_append_of_le_length ht]

omit [DecidableEq α] in
/-- The last event selects what it hits and was not selected. -/
theorem selectsAt_concat_length {events : List τ} {e : τ} {a : α} :
    SelectsAt hit (events ++ [e]) a events.length ↔
      hit e a = true ∧ ¬ Odd (hits hit events a) := by
  have hall : (events ++ [e]).take (events.length + 1) = events ++ [e] :=
    List.take_of_length_le (by simp)
  unfold SelectsAt
  rw [hall, hits_concat]
  simp only [List.getElem?_concat_length, Option.some.injEq, exists_eq_left']
  refine and_congr_right fun hhit => ?_
  rw [if_pos hhit, Nat.odd_add_one]

omit [DecidableEq α] in
theorem lt_of_selectsAt {events : List τ} {a : α} {t : ℕ} (h : SelectsAt hit events a t) :
    t < events.length := by
  obtain ⟨⟨e, he, _⟩, _⟩ := h
  exact (List.getElem?_eq_some_iff.mp he).1

omit [DecidableEq α] in
/-- An item that the event does not hit keeps its latest selection. -/
theorem latest_concat_of_not_hit {events : List τ} {e : τ} {a : α} {t : ℕ}
    (h : Latest hit events a t) (hnot : hit e a = false) : Latest hit (events ++ [e]) a t := by
  refine ⟨(selectsAt_concat_of_lt (lt_of_selectsAt h.1)).mpr h.1, fun u hu => ?_⟩
  have hlt := lt_of_selectsAt hu
  rw [List.length_append, List.length_singleton, Nat.lt_succ_iff_lt_or_eq] at hlt
  rcases hlt with hlt | rfl
  · exact h.2 u ((selectsAt_concat_of_lt hlt).mp hu)
  · have hhit := (selectsAt_concat_length.mp hu).1
    rw [hnot] at hhit
    cases hhit

omit [DecidableEq α] in
/-- An item that the event selects has no later selection. -/
theorem latest_concat_of_hit {events : List τ} {e : τ} {a : α} (hhit : hit e a = true)
    (hout : ¬ Odd (hits hit events a)) : Latest hit (events ++ [e]) a events.length := by
  refine ⟨selectsAt_concat_length.mpr ⟨hhit, hout⟩, fun u hu => ?_⟩
  have hlt := lt_of_selectsAt hu
  rw [List.length_append, List.length_singleton] at hlt
  omega

/-- Items of the list in their order. -/
theorem pairwise_idxOf {items : List α} (h : items.Nodup) :
    items.Pairwise fun a b => items.idxOf a < items.idxOf b := by
  rw [List.pairwise_iff_getElem]
  intro i j hi hj hij
  rwa [h.idxOf_getElem, h.idxOf_getElem]

/-- **What an event keeps.**  What is selected then comes in two parts:
selected before and not hit, and hit but not selected before. -/
theorem toggled_step (hitems : items.Nodup) {events : List τ} {s : List α}
    (h : Toggled hit items events s) (e : τ) :
    Toggled hit items (events ++ [e]) (step hit items s e) := by
  have hstep : step hit items s e = s.filter (· ∉ items.filter (hit e)) ++
      (items.filter (hit e)).filter (· ∉ s) := toggleAll_eq h.nodup (hitems.filter _)
  have hkept : ∀ a, a ∈ s.filter (· ∉ items.filter (hit e)) ↔ a ∈ s ∧ hit e a = false := by
    intro a
    have hmem : a ∈ s → a ∈ items := fun ha => ((h.mem a).mp ha).1
    simp only [List.mem_filter, decide_eq_true_eq, not_and, Bool.not_eq_true]
    exact ⟨fun ha => ⟨ha.1, ha.2 (hmem ha.1)⟩, fun ha => ⟨ha.1, fun _ => ha.2⟩⟩
  have hnew : ∀ a, a ∈ (items.filter (hit e)).filter (· ∉ s) ↔
      a ∈ items ∧ hit e a = true ∧ ¬ Odd (hits hit events a) := by
    intro a
    rw [List.mem_filter, List.mem_filter, decide_eq_true_eq, h.mem, and_assoc]
    exact and_congr_right fun ha => and_congr_right fun _ => by simp [ha]
  rw [hstep]
  refine ⟨fun a => ?_, ?_, fun a ha => ?_, ?_⟩
  · rw [List.mem_append, hkept, hnew, h.mem, hits_concat]
    cases hhit : hit e a with
    | false => simp
    | true => simp [Nat.odd_add_one]
  · refine List.nodup_append.mpr ⟨h.nodup.filter _, (hitems.filter _).filter _, ?_⟩
    intro a ha b hb hab
    have hnot := ((hkept a).mp ha).2
    rw [hab, ((hnew b).mp hb).2.1] at hnot
    cases hnot
  · rcases List.mem_append.mp ha with hold | hfresh
    · obtain ⟨hsel, hnot⟩ := (hkept a).mp hold
      obtain ⟨t, ht⟩ := h.latest a hsel
      exact ⟨t, latest_concat_of_not_hit ht hnot⟩
    · obtain ⟨_, hhit, hout⟩ := (hnew a).mp hfresh
      exact ⟨_, latest_concat_of_hit hhit hout⟩
  · refine List.pairwise_append.mpr ⟨?_, ?_, ?_⟩
    · refine List.Pairwise.imp_of_mem ?_ (h.order.filter _)
      intro a b ha hb ⟨t, u, hta, hub, hlt⟩
      exact ⟨t, u, latest_concat_of_not_hit hta ((hkept a).mp ha).2,
        latest_concat_of_not_hit hub ((hkept b).mp hb).2, hlt⟩
    · refine List.Pairwise.imp_of_mem ?_ (((pairwise_idxOf hitems).filter _).filter _)
      intro a b ha hb hlt
      obtain ⟨_, hhita, houta⟩ := (hnew a).mp ha
      obtain ⟨_, hhitb, houtb⟩ := (hnew b).mp hb
      exact ⟨_, _, latest_concat_of_hit hhita houta, latest_concat_of_hit hhitb houtb,
        Or.inr ⟨rfl, hlt⟩⟩
    · intro a ha b hb
      obtain ⟨hsel, hnot⟩ := (hkept a).mp ha
      obtain ⟨_, hhitb, houtb⟩ := (hnew b).mp hb
      obtain ⟨t, ht⟩ := h.latest a hsel
      exact ⟨t, _, latest_concat_of_not_hit ht hnot, latest_concat_of_hit hhitb houtb,
        Or.inl (lt_of_selectsAt ht.1)⟩

/-- **What a run selects.**  By induction on the events, with `toggled_step`
for each: the items that have been hit an odd number of times, each once, in
the order of their latest selection. -/
theorem toggled_run (hitems : items.Nodup) (events : List τ) :
    Toggled hit items events (run hit items events) := by
  induction events using List.reverseRecOn with
  | nil => exact ⟨by simp [run, hits], List.nodup_nil, by simp [run], List.Pairwise.nil⟩
  | append_singleton events e ih =>
      have hlast : run hit items (events ++ [e]) = step hit items (run hit items events) e := by
        simp [run, List.foldl_append]
      rw [hlast]
      exact toggled_step hitems ih e

end Toggling
