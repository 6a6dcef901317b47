import CardScanner.Machine
import Mathlib.Data.List.Induction
import Mathlib.Data.List.Nodup

/-!
# Array lists and the loops over them

`java.util.ArrayList` counts its structural changes, and its iterator compares
the count with the one it started from: only in `next`, and only after
`hasNext` has compared the cursor with the size the list has by then.

A for-each loop whose body leaves the list alone is a fold (`forEach_ok`).
When the body has changed the list, the next round ends the loop: silently if
the size happens to be the number of elements handled, with an exception
otherwise (`forEach_of_modified`).
-/

open Machine

/-- The elements, and how often the list was changed. -/
structure ArrayList (α : Type*) where
  elementData : List α
  modCount : ℕ
  deriving DecidableEq, Repr

namespace ArrayList

variable {α σ : Type*}

/-! ## Lists -/

/-- `add`: the element comes behind the others, and the list counts as
modified. -/
def add (l : ArrayList α) (a : α) : ArrayList α := ⟨l.elementData ++ [a], l.modCount + 1⟩

/-- `remove`: of the first element that is equal, if there is one. -/
def remove [DecidableEq α] (l : ArrayList α) (a : α) : ArrayList α :=
  if a ∈ l.elementData then ⟨l.elementData.erase a, l.modCount + 1⟩ else l

/-! ## Iterators -/

/-- The iterator's own fields. -/
structure Itr where
  cursor : ℕ
  expectedModCount : ℕ
  deriving DecidableEq, Repr

/-- What `next` can throw.  The first is the one by which an iterator notices
that the list has been changed behind its back. -/
inductive IterException where
  | concurrentModification
  | noSuchElement
  deriving DecidableEq, Repr

def iterator (l : ArrayList α) : Itr := ⟨0, l.modCount⟩

def hasNext (l : ArrayList α) (it : Itr) : Bool := it.cursor != l.elementData.length

/-- `next`, which looks at the counter of changes before anything else. -/
def next (l : ArrayList α) (it : Itr) : Except IterException (α × Itr) :=
  if l.modCount ≠ it.expectedModCount then .error .concurrentModification
  else
    match l.elementData[it.cursor]? with
    | none => .error .noSuchElement
    | some a => .ok (a, { it with cursor := it.cursor + 1 })

/-! ## For-each loops -/

variable (list : σ → ArrayList α) (body : σ → α → σ)

/-- A round of `for (α a : list) body`, on a state that holds the list. -/
def forEachStep (s : σ × Itr) : Outcome (σ × Itr) (Except IterException σ) :=
  if hasNext (list s.1) s.2 then
    match next (list s.1) s.2 with
    | .error e => .done (.error e)
    | .ok (a, it) => .next (body s.1 a, it)
  else .done (.ok s.1)

/-- How the loop started on the state `s` ends. -/
def ForEach (s : σ) (result : Except IterException σ) : Prop :=
  Returns (forEachStep list body) (s, iterator (list s)) result

variable {list body}

/-- A loop has at most one result: each of its turns is determined by the
state it finds. -/
theorem ForEach.unique {s : σ} {r r' : Except IterException σ} (h : ForEach list body s r)
    (h' : ForEach list body s r') : r = r' := Returns.unique h h'

/-- A body that leaves the list alone does so however often it runs. -/
theorem list_foldl {before : List α} (hkept : ∀ s, ∀ a ∈ before, list (body s a) = list s)
    (s : σ) : list (before.foldl body s) = list s := by
  induction before generalizing s with
  | nil => rfl
  | cons a before ih =>
      rw [List.foldl_cons, ih fun s b hb => hkept s b (List.mem_cons_of_mem a hb)]
      exact hkept s a List.mem_cons_self

/-- The round that handles the element under the cursor. -/
theorem forEachStep_next {s : σ} {before rest : List α} {a : α}
    (hlist : (list s).elementData = before ++ a :: rest) :
    forEachStep list body (s, ⟨before.length, (list s).modCount⟩) =
      .next (body s a, ⟨before.length + 1, (list s).modCount⟩) := by
  have hmore : hasNext (list s) ⟨before.length, (list s).modCount⟩ = true := by
    simp [hasNext, hlist]
  have hnext : next (list s) ⟨before.length, (list s).modCount⟩ =
      .ok (a, ⟨before.length + 1, (list s).modCount⟩) := by
    simp [next, hlist]
  simp only [forEachStep, hmore, hnext, if_true]

/-- The same behind elements whose bodies leave the list alone. -/
theorem forEachStep_foldl {s : σ} {before rest : List α} {a : α}
    (hlist : (list s).elementData = before ++ a :: rest)
    (hkept : ∀ s, ∀ b ∈ before, list (body s b) = list s) :
    forEachStep list body (before.foldl body s, ⟨before.length, (list s).modCount⟩) =
      .next (body (before.foldl body s) a, ⟨before.length + 1, (list s).modCount⟩) := by
  have hsame := list_foldl hkept s
  have hrest : (list (before.foldl body s)).elementData = before ++ a :: rest := by
    rw [hsame, hlist]
  rw [← hsame]
  exact forEachStep_next hrest

/-- The loop gets past the elements whose bodies leave the list alone. -/
theorem reach_of_kept {s : σ} {before rest : List α}
    (hlist : (list s).elementData = before ++ rest)
    (hkept : ∀ s, ∀ a ∈ before, list (body s a) = list s) :
    Reach (forEachStep list body) (s, iterator (list s))
      (before.foldl body s, ⟨before.length, (list s).modCount⟩) := by
  induction before using List.reverseRecOn generalizing rest with
  | nil => exact .refl
  | append_singleton before a ih =>
      have hbefore : ∀ s, ∀ b ∈ before, list (body s b) = list s :=
        fun s b hb => hkept s b (List.mem_append_left [a] hb)
      rw [List.append_assoc, List.singleton_append] at hlist
      rw [List.foldl_append, List.length_append]
      exact (ih hlist hbefore).tail (forEachStep_foldl hlist hbefore)

/-- **A loop whose body leaves the list alone is a fold.**  The counter of
changes is then what it was when the iterator was made, so `next` never
throws, and the loop ends where the list does. -/
theorem forEach_ok {s : σ} (hkept : ∀ s', ∀ a ∈ (list s).elementData, list (body s' a) = list s') :
    ForEach list body s (.ok ((list s).elementData.foldl body s)) := by
  refine ⟨_, reach_of_kept (List.append_nil _).symm hkept, ?_⟩
  simp [forEachStep, hasNext, list_foldl hkept]

/-- **A change ends the loop.**  It was made by the body of the element after
`before`; the size of the list it left decides whether anyone notices. -/
theorem forEach_of_modified {s : σ} {before rest : List α} {a : α}
    (hlist : (list s).elementData = before ++ a :: rest)
    (hkept : ∀ s, ∀ b ∈ before, list (body s b) = list s)
    (hmodified : (list (body (before.foldl body s) a)).modCount ≠ (list s).modCount) :
    ForEach list body s
      (if (list (body (before.foldl body s) a)).elementData.length = before.length + 1 then
        .ok (body (before.foldl body s) a)
      else .error .concurrentModification) := by
  refine ⟨_, (reach_of_kept hlist hkept).tail (forEachStep_foldl hlist hkept), ?_⟩
  split_ifs with hsize
  · simp [forEachStep, hasNext, hsize]
  · have hmore : hasNext (list (body (before.foldl body s) a))
        ⟨before.length + 1, (list s).modCount⟩ = true := by
      rw [hasNext, bne_iff_ne]
      exact Ne.symm hsize
    simp [forEachStep, hmore, next, hmodified]

end ArrayList
