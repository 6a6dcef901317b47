import CardScanner.Clustering
import CardScanner.Machine
import CardScanner.TextRect
import Mathlib.Data.Prod.Lex
import Mathlib.Data.Nat.Basic

/-!
# The merge loop of `detectLetters`

Two nested `while` loops run over `boundRect` and shrink it.  The loop is
modelled one test of a `while` condition at a time, with its locals in the
state and every use of an index as a checked access that faults outside the
vector.  `MergeStep` lists what one step can do; the invariants below are read
off from it:

* `WellIndexed` -- the indices are in range, so a loop started on a nonempty
  vector never faults and, with `mergeMeasure`, returns;
* `IsClustering` -- the rectangles left are the bounding boxes of the blocks
  of a partition of the input.
-/

namespace CardScanner

open Machine Clustering

/-! ## The loop -/

/-- Which `while` condition is tested next. -/
inductive MergePc where
  | outer
  | inner
  deriving DecidableEq, Repr

/-- The locals of the merge loop.  `rect1` is the copy taken from the vector,
which the union branch reads while it overwrites `boundRect[index1]`. -/
structure MergeState where
  boundRect : List Rect
  index1 : Nat
  index2 : Nat
  rect1 : Rect
  count : Nat
  pc : MergePc
  deriving DecidableEq, Repr

/-- `boundRect.size()-1` as the 32-bit `size_t` of the target: on the empty
vector it wraps. -/
def sizeMinusOne : Nat → Nat
  | 0 => 2 ^ 32 - 1
  | n + 1 => n

/-- `boundRect.erase(boundRect.begin() + i)`, undefined outside the vector. -/
def eraseAt (rects : List Rect) (i : Nat) : Option (List Rect) :=
  if i < rects.length then some (rects.eraseIdx i) else none

/-- `boundRect[i] = r`, undefined outside the vector. -/
def assignAt (rects : List Rect) (i : Nat) (r : Rect) : Option (List Rect) :=
  if i < rects.length then some (rects.set i r) else none

/-- A rectangle was removed: `count++; break;`.  The outer loop then tests its
condition with the same `index1`, because `count` is not zero. -/
def MergeState.afterErase (s : MergeState) (boundRect : List Rect) : MergeState :=
  { s with boundRect, count := s.count + 1, pc := .outer }

/-- The inner loop has run out: `if(count==0) index1++;`. -/
def MergeState.leaveInner (s : MergeState) : MergeState :=
  { s with index1 := if s.count = 0 then s.index1 + 1 else s.index1, pc := .outer }

/-- The body of the inner loop. -/
def compareRects (s : MergeState) : Outcome MergeState (List Rect) :=
  .access s.boundRect[s.index2]? fun rect2 =>
    if Rect.Nested rect2 s.rect1 then
      .access (eraseAt s.boundRect s.index2) fun rects => .next (s.afterErase rects)
    else if Rect.Nested s.rect1 rect2 then
      .access (eraseAt s.boundRect s.index1) fun rects => .next (s.afterErase rects)
    else if Rect.Near s.rect1 rect2 then
      .access (assignAt s.boundRect s.index1 (Rect.union s.rect1 rect2)) fun merged =>
        .access (eraseAt merged s.index2) fun rects => .next (s.afterErase rects)
    else .next { s with index2 := s.index2 + 1 }

/-- One test of a `while` condition with the statements up to the next one. -/
def mergeStep (s : MergeState) : Outcome MergeState (List Rect) :=
  match s.pc with
  | .outer =>
      if s.index1 < sizeMinusOne s.boundRect.length then
        .access s.boundRect[s.index1]? fun rect1 =>
          .next { s with index2 := s.index1 + 1, rect1, count := 0, pc := .inner }
      else .done s.boundRect
  | .inner =>
      if s.index2 < s.boundRect.length then compareRects s
      else .next s.leaveInner

/-- The state in which the loop is entered. -/
def startMerge (rects : List Rect) : MergeState where
  boundRect := rects
  index1 := 0
  index2 := 0
  rect1 := ⟨0, 0, 0, 0⟩
  count := 0
  pc := .outer

/-! ## What one step can do -/

/-- The steps of the loop that do not fault, by the branch they take. -/
inductive MergeStep (s : MergeState) : MergeState → Prop
  /-- The outer condition holds and the inner loop is entered. -/
  | enter (hpc : s.pc = .outer)
      (hlt : s.index1 < sizeMinusOne s.boundRect.length)
      {rect1 : Rect} (hrect : s.boundRect[s.index1]? = some rect1) :
      MergeStep s { s with index2 := s.index1 + 1, rect1, count := 0, pc := .inner }
  /-- The new rectangle lies inside the current one. -/
  | dropNew (hpc : s.pc = .inner) {rect2 : Rect}
      (hrect : s.boundRect[s.index2]? = some rect2)
      (hnested : Rect.Nested rect2 s.rect1) :
      MergeStep s (s.afterErase (s.boundRect.eraseIdx s.index2))
  /-- The current rectangle lies inside the new one. -/
  | dropCurrent (hpc : s.pc = .inner) {rect2 : Rect}
      (hrect : s.boundRect[s.index2]? = some rect2)
      (hnested : Rect.Nested s.rect1 rect2) (hlt : s.index1 < s.boundRect.length) :
      MergeStep s (s.afterErase (s.boundRect.eraseIdx s.index1))
  /-- The two rectangles are near and are replaced by their union. -/
  | unite (hpc : s.pc = .inner) {rect2 : Rect}
      (hrect : s.boundRect[s.index2]? = some rect2)
      (hnew : ¬ Rect.Nested rect2 s.rect1) (hcur : ¬ Rect.Nested s.rect1 rect2)
      (hnear : Rect.Near s.rect1 rect2) (hlt : s.index1 < s.boundRect.length) :
      MergeStep s (s.afterErase
        ((s.boundRect.set s.index1 (Rect.union s.rect1 rect2)).eraseIdx s.index2))
  /-- None of the three tests holds. -/
  | skip (hpc : s.pc = .inner) {rect2 : Rect}
      (hrect : s.boundRect[s.index2]? = some rect2)
      (hnew : ¬ Rect.Nested rect2 s.rect1) (hcur : ¬ Rect.Nested s.rect1 rect2)
      (hfar : ¬ Rect.Near s.rect1 rect2) :
      MergeStep s { s with index2 := s.index2 + 1 }
  /-- The inner loop has seen every later rectangle. -/
  | leave (hpc : s.pc = .inner) (hend : s.boundRect.length ≤ s.index2) :
      MergeStep s s.leaveInner

/-- An erase that does not fault was in range. -/
theorem eraseAt_eq_some {rects rects' : List Rect} {i : Nat}
    (h : eraseAt rects i = some rects') :
    i < rects.length ∧ rects' = rects.eraseIdx i := by
  unfold eraseAt at h
  split_ifs at h with hlt
  exact ⟨hlt, (Option.some.inj h).symm⟩

/-- An assignment that does not fault was in range. -/
theorem assignAt_eq_some {rects rects' : List Rect} {i : Nat} {r : Rect}
    (h : assignAt rects i r = some rects') :
    i < rects.length ∧ rects' = rects.set i r := by
  unfold assignAt at h
  split_ifs at h with hlt
  exact ⟨hlt, (Option.some.inj h).symm⟩

/-- Every move of the loop is one of the branches of `MergeStep`.  This is the
only place where `mergeStep` is gone through. -/
theorem mergeStep_cases {s t : MergeState} (h : Moves mergeStep s t) : MergeStep s t := by
  have hmove : (Outcome.next t : Outcome MergeState (List Rect)) ≠ .fault := nofun
  unfold Moves mergeStep at h
  cases hpc : s.pc with
  | outer =>
      rw [hpc] at h
      simp only at h
      split_ifs at h with hlt
      obtain ⟨rect1, hrect, hnext⟩ := Outcome.exists_of_access h hmove
      cases hnext
      exact .enter hpc hlt hrect
  | inner =>
      rw [hpc] at h
      simp only at h
      split_ifs at h with hlt
      · unfold compareRects at h
        obtain ⟨rect2, hrect, hcompare⟩ := Outcome.exists_of_access h hmove
        split_ifs at hcompare with hnew hcur hnear
        · obtain ⟨rects, herase, hnext⟩ := Outcome.exists_of_access hcompare hmove
          cases hnext
          rw [(eraseAt_eq_some herase).2]
          exact .dropNew hpc hrect hnew
        · obtain ⟨rects, herase, hnext⟩ := Outcome.exists_of_access hcompare hmove
          cases hnext
          obtain ⟨hlt1, rfl⟩ := eraseAt_eq_some herase
          exact .dropCurrent hpc hrect hcur hlt1
        · obtain ⟨merged, hassign, hunite⟩ := Outcome.exists_of_access hcompare hmove
          obtain ⟨hlt1, rfl⟩ := assignAt_eq_some hassign
          obtain ⟨rects, herase, hnext⟩ := Outcome.exists_of_access hunite hmove
          cases hnext
          rw [(eraseAt_eq_some herase).2]
          exact .unite hpc hrect hnew hcur hnear hlt1
        · cases hcompare
          exact .skip hpc hrect hnew hcur hnear
      · cases h
        exact .leave hpc (Nat.le_of_not_lt hlt)

/-! ## Indices stay in range -/

/-- On a vector that is not empty the unsigned bound does not wrap. -/
theorem lt_sizeMinusOne {i n : Nat} (hn : 0 < n) : i < sizeMinusOne n ↔ i + 1 < n := by
  cases n with
  | zero => omega
  | succ n => simp [sizeMinusOne]

/-- The indices name elements of the vector, and inside the inner loop
`rect1` is still the element at `index1` and nothing has been removed yet. -/
structure WellIndexed (s : MergeState) : Prop where
  index1_lt : s.index1 < s.boundRect.length
  later : s.pc = .inner → s.index1 < s.index2 ∧ s.index1 + 1 < s.boundRect.length
  current : s.pc = .inner → s.boundRect[s.index1]? = some s.rect1
  count_zero : s.pc = .inner → s.count = 0

/-- In front of the outer condition only `index1` is live. -/
theorem wellIndexed_outer {s : MergeState} (hpc : s.pc = .outer)
    (hlt : s.index1 < s.boundRect.length) : WellIndexed s where
  index1_lt := hlt
  later h := by simp [hpc] at h
  current h := by simp [hpc] at h
  count_zero h := by simp [hpc] at h

/-- No step takes an index out of range, although rectangles are erased while
the loops go on. -/
theorem wellIndexed_step {s t : MergeState} (hs : WellIndexed s)
    (hstep : MergeStep s t) : WellIndexed t := by
  cases hstep with
  | enter hpc hlt hrect =>
      have hnext := (lt_sizeMinusOne (Nat.zero_lt_of_lt hs.index1_lt)).mp hlt
      exact ⟨hs.index1_lt, fun _ => ⟨Nat.lt_succ_self _, hnext⟩, fun _ => hrect, fun _ => rfl⟩
  | dropNew hpc hrect hnested =>
      have hlt2 := (List.getElem?_eq_some_iff.mp hrect).1
      have hlater := hs.later hpc
      refine wellIndexed_outer rfl ?_
      change s.index1 < (s.boundRect.eraseIdx s.index2).length
      rw [List.length_eraseIdx_of_lt hlt2]
      omega
  | dropCurrent hpc hrect hnested hlt =>
      have hlater := hs.later hpc
      refine wellIndexed_outer rfl ?_
      change s.index1 < (s.boundRect.eraseIdx s.index1).length
      rw [List.length_eraseIdx_of_lt hlt]
      omega
  | unite hpc hrect hnew hcur hnear hlt =>
      have hlt2 := (List.getElem?_eq_some_iff.mp hrect).1
      have hlater := hs.later hpc
      refine wellIndexed_outer rfl ?_
      change s.index1 < (List.eraseIdx (s.boundRect.set _ _) s.index2).length
      rw [List.length_eraseIdx_of_lt (by simpa using hlt2), List.length_set]
      omega
  | skip hpc hrect hnew hcur hfar =>
      have hlater := hs.later hpc
      exact ⟨hs.index1_lt, fun _ => ⟨Nat.lt_succ_of_lt hlater.1, hlater.2⟩,
        hs.current, hs.count_zero⟩
  | leave hpc hend =>
      have hlater := hs.later hpc
      have hcount := hs.count_zero hpc
      refine wellIndexed_outer rfl ?_
      simpa [MergeState.leaveInner, hcount] using hlater.2

/-- With its indices in range the loop does not fault, at whichever of its
places it is. -/
theorem mergeStep_ne_fault {s : MergeState} (hs : WellIndexed s) :
    mergeStep s ≠ .fault := by
  unfold mergeStep
  cases hpc : s.pc with
  | outer =>
      simp only [List.getElem?_eq_getElem hs.index1_lt, Outcome.access_some]
      split_ifs <;> simp
  | inner =>
      simp only
      split_ifs with hlt
      · simp only [compareRects, List.getElem?_eq_getElem hlt, Outcome.access_some,
          eraseAt, assignAt, List.length_set, hlt, hs.index1_lt, if_true]
        split_ifs <;> simp
      · simp

/-- A bound on the passes of the outer loop still to come. -/
def passesLeft (s : MergeState) : Nat := 2 * s.boundRect.length - s.index1

/-- A bound on the tests left in the current pass. -/
def testsLeft (s : MergeState) : Nat :=
  match s.pc with
  | .outer => s.boundRect.length + 1
  | .inner => s.boundRect.length - s.index2

/-- What gets smaller with every step: first the passes to come, then the
tests left in this pass. -/
def mergeMeasure (s : MergeState) : Nat ×ₗ Nat := toLex (passesLeft s, testsLeft s)

/-- Every erase ends a pass and shortens the vector. -/
theorem passesLeft_afterErase {s : MergeState} {rects : List Rect}
    (hlen : rects.length + 1 = s.boundRect.length) (hidx : s.index1 < s.boundRect.length) :
    passesLeft (s.afterErase rects) < passesLeft s := by
  change 2 * rects.length - s.index1 < 2 * s.boundRect.length - s.index1
  omega

/-- Every step decreases the measure: a comparison moves `index2` on, an
erase shortens the vector, and a pass without an erase moves `index1` on. -/
theorem mergeMeasure_lt {s t : MergeState} (hs : WellIndexed s)
    (hstep : MergeStep s t) : mergeMeasure t < mergeMeasure s := by
  have hidx := hs.index1_lt
  unfold mergeMeasure
  rw [Prod.Lex.toLex_lt_toLex]
  cases hstep with
  | enter hpc hlt hrect =>
      right
      refine ⟨rfl, ?_⟩
      simp only [testsLeft, hpc]
      omega
  | dropNew hpc hrect hnested =>
      have hlt2 := (List.getElem?_eq_some_iff.mp hrect).1
      have hlen := List.length_eraseIdx_add_one hlt2
      exact Or.inl (passesLeft_afterErase hlen hidx)
  | dropCurrent hpc hrect hnested hlt =>
      have hlen := List.length_eraseIdx_add_one hlt
      exact Or.inl (passesLeft_afterErase hlen hidx)
  | @unite hpc rect2 hrect hnew hcur hnear hlt =>
      have hlt2 := (List.getElem?_eq_some_iff.mp hrect).1
      have hlt2' : s.index2 <
          (s.boundRect.set s.index1 (Rect.union s.rect1 rect2)).length := by
        rw [List.length_set]
        exact hlt2
      have hlen := List.length_eraseIdx_add_one hlt2'
      rw [List.length_set] at hlen
      exact Or.inl (passesLeft_afterErase hlen hidx)
  | skip hpc hrect hnew hcur hfar =>
      have hlt2 := (List.getElem?_eq_some_iff.mp hrect).1
      right
      refine ⟨rfl, ?_⟩
      simp only [testsLeft, hpc]
      omega
  | leave hpc hend =>
      left
      simp only [passesLeft, MergeState.leaveInner, hs.count_zero hpc, if_true]
      omega

theorem wellIndexed_start {rects : List Rect} (hne : rects ≠ []) :
    WellIndexed (startMerge rects) :=
  wellIndexed_outer rfl (List.length_pos_iff.mpr hne)

theorem wellIndexed_moves (s t : MergeState) (hs : WellIndexed s)
    (h : Moves mergeStep s t) : WellIndexed t :=
  wellIndexed_step hs (mergeStep_cases h)

/-- Started on a nonempty vector the loop never faults. -/
theorem mergeLoop_safe {rects : List Rect} (hne : rects ≠ []) :
    Safe mergeStep (startMerge rects) :=
  safe_of_invariant wellIndexed_moves (fun _ hs => mergeStep_ne_fault hs)
    (wellIndexed_start hne)

/-- Started on a nonempty vector the loop returns. -/
theorem mergeLoop_returns {rects : List Rect} (hne : rects ≠ []) :
    ∃ out, Returns mergeStep (startMerge rects) out :=
  returns_of_measure mergeMeasure wellIndexed_moves
    (fun _ hs => mergeStep_ne_fault hs)
    (fun _ _ hs h => mergeMeasure_lt hs (mergeStep_cases h)) (wellIndexed_start hne)

/-- The loop terminates and every index it uses names an element of the
vector as it then is. -/
def MergesSafely (rects : List Rect) : Prop :=
  (∃ out, Returns mergeStep (startMerge rects) out) ∧ Safe mergeStep (startMerge rects)

/-- **Index safety and termination**, exactly on the nonempty vectors: on the
empty one `size()-1` wraps and the first access is out of range.  On the
others `WellIndexed` excludes faults, and the measure of passes and tests
decreases. -/
theorem mergesSafely_iff (rects : List Rect) : MergesSafely rects ↔ rects ≠ [] := by
  constructor
  · rintro ⟨_, hsafe⟩ rfl
    exact hsafe (startMerge []) .refl rfl
  · intro hne
    exact ⟨mergeLoop_returns hne, mergeLoop_safe hne⟩

/-- An image in which no contour passes the filters reads `boundRect[0]` of an
empty vector. -/
theorem not_mergesSafely_nil : ¬ ∀ rects : List Rect, MergesSafely rects := by
  intro h
  exact (h []).2 (startMerge []) .refl rfl

/-! ## What is merged -/

/-- A checked read inside the vector, as the element it reads. -/
theorem getElem_of_getElem? {rects : List Rect} {i : Nat} {r : Rect}
    (h : rects[i]? = some r) : ∃ hlt : i < rects.length, rects[i] = r :=
  List.getElem?_eq_some_iff.mp h

/-- Every branch that removes a rectangle is one merge of the abstract
procedure; the others leave the vector alone. -/
theorem isClustering_step {rects : List Rect} {s t : MergeState}
    (hs : WellIndexed s) (hclus : IsClustering rects s.boundRect)
    (hstep : MergeStep s t) : IsClustering rects t.boundRect := by
  cases hstep with
  | enter => exact hclus
  | dropNew hpc hrect hnested =>
      obtain ⟨hlt1, hcur⟩ := getElem_of_getElem? (hs.current hpc)
      obtain ⟨hlt2, rfl⟩ := getElem_of_getElem? hrect
      rw [← hcur] at hnested
      exact hclus.eraseIdx_later (hs.later hpc).1 hlt2 hnested
  | dropCurrent hpc hrect hnested hlt =>
      obtain ⟨hlt1, hcur⟩ := getElem_of_getElem? (hs.current hpc)
      obtain ⟨hlt2, rfl⟩ := getElem_of_getElem? hrect
      rw [← hcur] at hnested
      exact hclus.eraseIdx_earlier (hs.later hpc).1 hlt2 hnested
  | unite hpc hrect _ _ hnear hlt =>
      obtain ⟨hlt1, hcur⟩ := getElem_of_getElem? (hs.current hpc)
      obtain ⟨hlt2, rfl⟩ := getElem_of_getElem? hrect
      rw [← hcur]
      exact hclus.set_eraseIdx (hs.later hpc).1 hlt2
  | skip => exact hclus
  | leave => exact hclus

/-- The loop stops only in front of the outer condition, with the vector as
its result.  Every branch behind that condition ends in a move. -/
theorem boundRect_of_done {s : MergeState} {out : List Rect}
    (h : mergeStep s = .done out) :
    s.pc = .outer ∧ ¬ s.index1 < sizeMinusOne s.boundRect.length ∧ out = s.boundRect := by
  have hreturn : (Outcome.done out : Outcome MergeState (List Rect)) ≠ .fault := nofun
  unfold mergeStep at h
  cases hpc : s.pc with
  | outer =>
      rw [hpc] at h
      simp only at h
      split_ifs at h with hlt
      · obtain ⟨_, _, hnext⟩ := Outcome.exists_of_access h hreturn
        cases hnext
      · exact ⟨rfl, hlt, (Outcome.done.inj h).symm⟩
  | inner =>
      rw [hpc] at h
      simp only at h
      split_ifs at h with hlt
      unfold compareRects at h
      obtain ⟨rect2, _, hcompare⟩ := Outcome.exists_of_access h hreturn
      split_ifs at hcompare
      · obtain ⟨_, _, hnext⟩ := Outcome.exists_of_access hcompare hreturn
        cases hnext
      · obtain ⟨_, _, hnext⟩ := Outcome.exists_of_access hcompare hreturn
        cases hnext
      · obtain ⟨_, _, hunite⟩ := Outcome.exists_of_access hcompare hreturn
        obtain ⟨_, _, hnext⟩ := Outcome.exists_of_access hunite hreturn
        cases hnext

/-- The result of the loop is a clustering of its input. -/
theorem isClustering_of_returns {rects out : List Rect} (hne : rects ≠ [])
    (h : Returns mergeStep (startMerge rects) out) : IsClustering rects out := by
  refine h.of_invariant (P := fun s => WellIndexed s ∧ IsClustering rects s.boundRect)
    ?_ ?_ ⟨wellIndexed_start hne, .refl rects⟩
  · intro s t ⟨hs, hclus⟩ hmove
    have hstep := mergeStep_cases hmove
    exact ⟨wellIndexed_step hs hstep, isClustering_step hs hclus hstep⟩
  · intro s r ⟨_, hclus⟩ hdone
    rw [(boundRect_of_done hdone).2.2]
    exact hclus

/-- **No text region is lost.**  Whatever the order of the rectangles, the
loop returns, every rectangle lies in one that is left, and those left are
the bounding boxes of the blocks of a partition of the input. -/
theorem merge_covers {rects : List Rect} (hne : rects ≠ []) :
    ∃ out, Returns mergeStep (startMerge rects) out ∧
      (∀ r ∈ rects, ∃ r' ∈ out, Rect.Nested r r') ∧
      IsClustering rects out := by
  obtain ⟨out, hout⟩ := mergeLoop_returns hne
  have hclus := isClustering_of_returns hne hout
  exact ⟨out, hout, fun r hr => hclus.covered hr, hclus⟩

theorem merge_covers_pair :
    ∃ out, Returns mergeStep (startMerge [⟨0, 0, 90, 30⟩, ⟨95, 5, 60, 20⟩]) out ∧
      (∀ r ∈ ([⟨0, 0, 90, 30⟩, ⟨95, 5, 60, 20⟩] : List Rect), ∃ r' ∈ out, Rect.Nested r r') ∧
      IsClustering [⟨0, 0, 90, 30⟩, ⟨95, 5, 60, 20⟩] out :=
  merge_covers (by decide)

end CardScanner
