import Mathlib.Data.List.Dedup
import Mathlib.Data.List.DropRight

/-!
# Keys in order of use

A cache that drops its least recently used key is, as far as its keys go, a list
from the least to the most recently used one.  A request puts a key last and drops
from the front what is too much (`touch`), or moves a key only if it is there
(`peek`), or takes keys out.

* `Inclusion.apply`: of two such lists under the same requests, the shorter stays a
  sublist of the longer.  What carries the induction is that the shorter has no more
  free places than the longer, so that the longer drops a key only when the shorter
  does too.
* `recent_touches`: after touches alone the list holds the last so many of the
  distinct keys in order of their last touch.
-/

namespace Recency

variable {κ : Type*} [DecidableEq κ]

/-- What may be asked of a cache, by key. -/
inductive Request (κ : Type*) where
  | touch (key : κ)
  | peek (key : κ)
  | drop (key : κ)
  | clear
  deriving DecidableEq, Repr

/-- A key leaves its place, if it has one, and comes last. -/
def moveLast (keys : List κ) (key : κ) : List κ := keys.filter (· ≠ key) ++ [key]

/-- The keys after a request, at most `n` of them after a touch. -/
def Request.apply (n : ℕ) (keys : List κ) : Request κ → List κ
  | .touch key => (moveLast keys key).rtake n
  | .peek key => if key ∈ keys then moveLast keys key else keys
  | .drop key => keys.filter (· ≠ key)
  | .clear => []

/-! ## Lengths -/

section

omit [DecidableEq κ]

theorem length_rtake (l : List κ) (n : ℕ) : (l.rtake n).length = min n l.length := by
  rw [List.rtake.eq_1, List.length_drop]
  omega

theorem rtake_of_length_le {l : List κ} {n : ℕ} (h : l.length ≤ n) : l.rtake n = l := by
  rw [List.rtake.eq_1, Nat.sub_eq_zero_of_le h, List.drop_zero]

theorem rtake_of_length_eq_succ {l : List κ} {n : ℕ} (h : l.length = n + 1) :
    l.rtake n = l.tail := by
  rw [List.rtake.eq_1, h, Nat.add_sub_cancel_left, List.drop_one]

theorem rtake_append {l l' : List κ} {n : ℕ} (h : n ≤ l'.length) :
    (l ++ l').rtake n = l'.rtake n := by
  rw [List.rtake_eq_reverse_take_reverse, List.rtake_eq_reverse_take_reverse, List.reverse_append,
    List.take_append_of_le_length (by rwa [List.length_reverse])]

end

theorem filter_ne_of_notMem {keys : List κ} {key : κ} (h : key ∉ keys) :
    keys.filter (· ≠ key) = keys := by
  refine List.filter_eq_self.mpr fun other hother => decide_eq_true fun heq => ?_
  exact h (heq ▸ hother)

/-- A key that is there is there once, so taking it out makes the list shorter
by one. -/
theorem length_filter_ne {keys : List κ} {key : κ} (hnodup : keys.Nodup) (h : key ∈ keys) :
    (keys.filter (· ≠ key)).length + 1 = keys.length := by
  have heq : keys.filter (· ≠ key) = keys.erase key := by
    rw [hnodup.erase_eq_filter]
    exact List.filter_congr fun other _ => by by_cases hother : other = key <;> simp [hother]
  rw [heq, List.length_erase_of_mem h]
  exact Nat.sub_add_cancel (List.length_pos_of_mem h)

theorem nodup_moveLast {keys : List κ} (h : keys.Nodup) (key : κ) :
    (moveLast keys key).Nodup := by
  refine List.nodup_append.mpr ⟨h.filter _, List.nodup_singleton key, ?_⟩
  intro a ha b hb heq
  rw [List.mem_singleton] at hb
  simp [heq, hb] at ha

theorem length_moveLast_of_mem {keys : List κ} {key : κ} (hnodup : keys.Nodup) (h : key ∈ keys) :
    (moveLast keys key).length = keys.length := by
  rw [moveLast, List.length_append, List.length_singleton, length_filter_ne hnodup h]

theorem length_moveLast_of_notMem {keys : List κ} {key : κ} (h : key ∉ keys) :
    (moveLast keys key).length = keys.length + 1 := by
  rw [moveLast, filter_ne_of_notMem h, List.length_append, List.length_singleton]

/-! ## Inclusion -/

/-- The shorter list is in the longer one and has no more free places. -/
structure Inclusion (n m : ℕ) (short long : List κ) : Prop where
  sublist : short.Sublist long
  nodup : long.Nodup
  short_le : short.length ≤ n
  long_le : long.length ≤ m
  free : n + long.length ≤ m + short.length

namespace Inclusion

variable {n m : ℕ} {short long : List κ}

theorem moveLast_sublist (h : Inclusion n m short long) (key : κ) :
    (moveLast short key).Sublist (moveLast long key) :=
  (h.sublist.filter _).append (List.Sublist.refl _)

/-- A key comes last: the longer list drops its first key only when the
shorter does. -/
theorem touch (h : Inclusion n m short long) (key : κ) :
    Inclusion n m ((moveLast short key).rtake n) ((moveLast long key).rtake m) := by
  have hsub := h.moveLast_sublist key
  have hnodup := nodup_moveLast h.nodup key
  have hshort := h.sublist.nodup h.nodup
  have hlengths : (moveLast long key).length ≤ m ∧
        n + (moveLast long key).length ≤ m + (moveLast short key).length ∨
      (moveLast long key).length = m + 1 ∧ (moveLast short key).length = n + 1 := by
    have hfree := h.free
    have hlong := h.long_le
    have hle := h.short_le
    by_cases hmem : key ∈ long
    · rw [length_moveLast_of_mem h.nodup hmem]
      by_cases hmem' : key ∈ short
      · rw [length_moveLast_of_mem hshort hmem']
        omega
      · rw [length_moveLast_of_notMem hmem']
        omega
    · have hmem' : key ∉ short := fun hin => hmem (h.sublist.subset hin)
      rw [length_moveLast_of_notMem hmem, length_moveLast_of_notMem hmem']
      omega
  rcases hlengths with ⟨hfits, hfree⟩ | ⟨hlong, hshort'⟩
  · rw [rtake_of_length_le hfits]
    refine ⟨(List.drop_sublist _ _).trans hsub, hnodup, ?_, hfits, ?_⟩
    · rw [length_rtake]
      omega
    · rw [length_rtake]
      omega
  · rw [rtake_of_length_eq_succ hlong, rtake_of_length_eq_succ hshort']
    refine ⟨hsub.tail, (List.tail_sublist _).nodup hnodup, ?_, ?_, ?_⟩
    all_goals simp only [List.length_tail]; omega

/-- **Inclusion is kept by every request.** -/
theorem apply (h : Inclusion n m short long) (request : Request κ) :
    Inclusion n m (request.apply n short) (request.apply m long) := by
  have hshort := h.sublist.nodup h.nodup
  have hfree := h.free
  have hlong := h.long_le
  have hle := h.short_le
  cases request with
  | touch key => exact h.touch key
  | peek key =>
      by_cases hmem' : key ∈ short
      · have hmem : key ∈ long := h.sublist.subset hmem'
        have hlengths := length_moveLast_of_mem hshort hmem'
        have hlengths' := length_moveLast_of_mem h.nodup hmem
        simp only [Request.apply, if_pos hmem, if_pos hmem']
        exact ⟨h.moveLast_sublist key, nodup_moveLast h.nodup key, by omega, by omega, by omega⟩
      · simp only [Request.apply, if_neg hmem']
        split_ifs with hmem
        · have hlengths' := length_moveLast_of_mem h.nodup hmem
          refine ⟨?_, nodup_moveLast h.nodup key, hle, by omega, by omega⟩
          have hkept := h.sublist.filter (· ≠ key)
          rw [filter_ne_of_notMem hmem'] at hkept
          exact hkept.trans (List.sublist_append_left _ _)
        · exact h
  | drop key =>
      refine ⟨h.sublist.filter _, h.nodup.filter _, ?_, ?_, ?_⟩
      · exact (List.length_filter_le _ _).trans hle
      · exact (List.length_filter_le _ _).trans hlong
      · simp only [Request.apply]
        by_cases hmem' : key ∈ short
        · have := length_filter_ne hshort hmem'
          have := length_filter_ne h.nodup (h.sublist.subset hmem')
          omega
        · rw [filter_ne_of_notMem hmem']
          have := List.length_filter_le (· ≠ key) long
          omega
  | clear =>
      have := h.sublist.length_le
      exact ⟨.refl _, List.nodup_nil, Nat.zero_le _, Nat.zero_le _, by
        simp only [Request.apply, List.length_nil]
        omega⟩

/-- Inclusion over any requests. -/
theorem foldl (h : Inclusion n m short long) (requests : List (Request κ)) :
    Inclusion n m (requests.foldl (Request.apply n) short)
      (requests.foldl (Request.apply m) long) := by
  induction requests generalizing short long with
  | nil => exact h
  | cons request requests ih => exact ih (h.apply request)

end Inclusion

/-! ## The most recent keys -/

/-- The distinct elements of a longer list, each at its last place: the new
one comes last, wherever it was before. -/
theorem dedup_concat (keys : List κ) (key : κ) :
    (keys ++ [key]).dedup = moveLast keys.dedup key := by
  induction keys with
  | nil => rfl
  | cons first keys ih =>
      rw [List.cons_append]
      by_cases hmem : first ∈ keys
      · rw [List.dedup_cons_of_mem hmem, List.dedup_cons_of_mem (List.mem_append_left _ hmem), ih]
      by_cases hkey : first = key
      · rw [List.dedup_cons_of_notMem hmem,
          List.dedup_cons_of_mem (by simp [hkey]), ih, moveLast, moveLast,
          List.filter_cons_of_neg (by simpa using hkey)]
      · rw [List.dedup_cons_of_notMem hmem, List.dedup_cons_of_notMem (by simp [hmem, hkey]), ih,
          moveLast, moveLast, List.filter_cons_of_pos (by simpa using hkey), List.cons_append]

/-- Dropping from the front before or after a touch is the same: the touched
key stays in any case. -/
theorem rtake_moveLast_rtake {keys : List κ} (hnodup : keys.Nodup) (key : κ) {n : ℕ}
    (hn : 0 < n) : (moveLast (keys.rtake n) key).rtake n = (moveLast keys key).rtake n := by
  obtain ⟨n, rfl⟩ : ∃ m, n = m + 1 := ⟨n - 1, (Nat.sub_add_cancel hn).symm⟩
  rw [moveLast, moveLast, List.rtake_concat_succ, List.rtake_concat_succ]
  congr 1
  rcases Nat.le_or_ge keys.length (n + 1) with hle | hge
  · rw [rtake_of_length_le hle]
  have hsplit := List.take_append_drop (keys.length - (n + 1)) keys
  have hlast : (keys.rtake (n + 1)).length = n + 1 := by
    rw [length_rtake]
    omega
  have hmany : n ≤ ((keys.rtake (n + 1)).filter (· ≠ key)).length := by
    by_cases hmem : key ∈ keys.rtake (n + 1)
    · have := length_filter_ne ((List.drop_sublist _ keys).nodup hnodup) hmem
      simp only [List.rtake.eq_1] at this hlast ⊢
      omega
    · rw [filter_ne_of_notMem hmem]
      omega
  calc ((keys.rtake (n + 1)).filter (· ≠ key)).rtake n
      = ((keys.take (keys.length - (n + 1))).filter (· ≠ key) ++
          (keys.rtake (n + 1)).filter (· ≠ key)).rtake n := (rtake_append hmany).symm
    _ = (keys.filter (· ≠ key)).rtake n := by
        rw [← List.filter_append, List.rtake.eq_1 keys, hsplit]

/-- **The most recent keys.**  After touches of some keys, one after the
other, the list holds the last `n` of them, repetitions apart.  By induction
from the end: the last key is the newest, the others are as they were without
it. -/
theorem recent_touches {n : ℕ} (hn : 0 < n) (keys : List κ) :
    (keys.map Request.touch).foldl (Request.apply n) [] = keys.dedup.rtake n := by
  induction keys using List.reverseRecOn with
  | nil => simp
  | append_singleton keys key ih =>
      rw [List.map_append, List.foldl_append, ih, dedup_concat]
      exact rtake_moveLast_rtake (List.nodup_dedup keys) key hn

end Recency
