import CardScanner.MergeLoop

/-!
# Does the merge loop reach a fixpoint?

The outer index moves on only after a pass that merges nothing, so every
rectangle before `index1` has been found apart from everything behind it
(`SettledBelow`).  A union is compared again with the rectangles behind
`index1`, but never with those before it.  The loop therefore ends with
pairwise separate rectangles exactly when no union reaches back
(`UnionClear`): a union that touches a settled rectangle leaves a touching
pair (`Clash`) which no later step removes.
-/

namespace CardScanner

open Machine Clustering

/-- One of the three conditions on which the loop merges or removes. -/
def Touches (a b : Rect) : Prop :=
  Rect.Nested b a ∨ Rect.Nested a b ∨ Rect.Near a b

instance (a b : Rect) : Decidable (Touches a b) := by
  unfold Touches; infer_instance

/-- Growing a rectangle of nonnegative size loses no contact. -/
theorem Touches.mono {r a b : Rect} (ha : 0 ≤ a.width ∧ 0 ≤ a.height)
    (h : Touches r a) (hab : a ≤ b) : Touches r b := by
  rw [Rect.le_iff_nested] at hab
  unfold Touches Rect.Nested Rect.Near at *
  omega

/-- Every rectangle of the vector has nonnegative size. -/
def Sized (rects : List Rect) : Prop := ∀ r ∈ rects, 0 ≤ r.width ∧ 0 ≤ r.height

/-- The rectangles before position `n` touch nothing behind them. -/
def SettledBelow (n : Nat) (rects : List Rect) : Prop :=
  ∀ k j a b, k < n → k < j → rects[k]? = some a → rects[j]? = some b → ¬ Touches a b

/-- Some rectangle before position `n` touches one behind it. -/
def Clash (n : Nat) (rects : List Rect) : Prop :=
  ∃ k j a b, k < n ∧ k < j ∧ rects[k]? = some a ∧ rects[j]? = some b ∧ Touches a b

/-- If the next comparison unites two rectangles, the union touches no
rectangle before `index1`. -/
def UnionClear (s : MergeState) : Prop :=
  ∀ rect2, s.pc = .inner → s.boundRect[s.index2]? = some rect2 →
    ¬ Rect.Nested rect2 s.rect1 → ¬ Rect.Nested s.rect1 rect2 →
    Rect.Near s.rect1 rect2 →
    ∀ k r, k < s.index1 → s.boundRect[k]? = some r →
      ¬ Touches r (Rect.union s.rect1 rect2)

/-! ## Settled rectangles stay settled -/

/-- Taking out a rectangle behind the settled ones unsettles none. -/
theorem SettledBelow.eraseIdx {n i : Nat} {rects : List Rect}
    (h : SettledBelow n rects) (hi : n ≤ i) : SettledBelow n (rects.eraseIdx i) := by
  intro k j a b hk hkj ha hb
  rw [List.getElem?_eraseIdx_of_lt (by omega)] at ha
  rw [List.getElem?_eraseIdx] at hb
  split_ifs at hb with hj
  · exact h k j a b hk hkj ha hb
  · exact h k (j + 1) a b hk (by omega) ha hb

theorem SettledBelow.set {n i : Nat} {rects : List Rect} {u : Rect}
    (h : SettledBelow n rects) (hi : n ≤ i)
    (hclear : ∀ k r, k < n → rects[k]? = some r → ¬ Touches r u) :
    SettledBelow n (rects.set i u) := by
  intro k j a b hk hkj ha hb
  rw [List.getElem?_set_ne (by omega)] at ha
  by_cases hj : i = j
  · subst hj
    have hlt : i < rects.length := by
      have := (List.getElem?_eq_some_iff.mp hb).1
      simpa using this
    rw [List.getElem?_set_self hlt] at hb
    cases hb
    exact hclear k a hk ha
  · rw [List.getElem?_set_ne hj] at hb
    exact h k j a b hk hkj ha hb

/-- What the run knows about separate rectangles: everything before `index1`
is settled, and in the inner loop the current rectangle has been found apart
from everything it was compared with. -/
structure Separated (s : MergeState) : Prop where
  indexed : WellIndexed s
  settled : SettledBelow s.index1 s.boundRect
  compared : s.pc = .inner → ∀ j b, s.index1 < j → j < s.index2 →
    s.boundRect[j]? = some b → ¬ Touches s.rect1 b

/-- While every union is clear, the steps keep what is settled: no union
touches what the loops have passed. -/
theorem separated_step {s t : MergeState} (hs : Separated s) (hclear : UnionClear s)
    (hstep : MergeStep s t) : Separated t := by
  have hidx := wellIndexed_step hs.indexed hstep
  cases hstep with
  | enter hpc hlt hrect =>
      refine ⟨hidx, hs.settled, ?_⟩
      intro _ j b hj hj' _
      exact absurd hj' (Nat.not_lt.mpr hj)
  | dropNew hpc hrect hnested =>
      have hlater := (hs.indexed.later hpc).1
      exact ⟨hidx, hs.settled.eraseIdx hlater.le, fun h => by cases h⟩
  | dropCurrent hpc hrect hnested hlt =>
      exact ⟨hidx, hs.settled.eraseIdx le_rfl, fun h => by cases h⟩
  | unite hpc hrect hnew hcur hnear hlt =>
      have hlater := (hs.indexed.later hpc).1
      have hset := hs.settled.set le_rfl (hclear _ hpc hrect hnew hcur hnear)
      exact ⟨hidx, hset.eraseIdx hlater.le, fun h => by cases h⟩
  | @skip hpc rect2 hrect hnew hcur hfar =>
      refine ⟨hidx, hs.settled, ?_⟩
      intro _ j b hj hj' hb
      rcases Nat.lt_succ_iff_lt_or_eq.mp hj' with hlt | rfl
      · exact hs.compared hpc j b hj hlt hb
      · rw [hrect] at hb
        cases hb
        rintro (h | h | h)
        · exact hnew h
        · exact hcur h
        · exact hfar h
  | leave hpc hend =>
      have hcount := hs.indexed.count_zero hpc
      have hcurrent := hs.indexed.current hpc
      refine ⟨hidx, ?_, fun h => by cases h⟩
      intro k j a b hk hkj ha hb
      simp only [MergeState.leaveInner, hcount, if_true] at hk ha hb
      rcases Nat.lt_succ_iff_lt_or_eq.mp hk with hlt | rfl
      · exact hs.settled k j a b hlt hkj ha hb
      · rw [hcurrent] at ha
        cases ha
        have hj := (List.getElem?_eq_some_iff.mp hb).1
        exact hs.compared hpc j b hkj (by omega) hb

/-! ## A contact across `index1` is never removed -/

/-- A union is no smaller than its first rectangle. -/
theorem sized_union {a b : Rect} (ha : 0 ≤ a.width ∧ 0 ≤ a.height) :
    0 ≤ (Rect.union a b).width ∧ 0 ≤ (Rect.union a b).height := by
  unfold Rect.union
  simp only
  omega

/-- So no step makes a rectangle of negative size, starting from rectangles
that have none. -/
theorem sized_step {s t : MergeState} (hs : WellIndexed s)
    (hsized : Sized s.boundRect) (hstep : MergeStep s t) : Sized t.boundRect := by
  cases hstep with
  | enter => exact hsized
  | dropNew => exact fun r hr => hsized r (List.mem_of_mem_eraseIdx hr)
  | dropCurrent => exact fun r hr => hsized r (List.mem_of_mem_eraseIdx hr)
  | unite hpc hrect hnew hcur hnear hlt =>
      intro r hr
      rcases List.mem_or_eq_of_mem_set (List.mem_of_mem_eraseIdx hr) with hr | rfl
      · exact hsized r hr
      · exact sized_union (hsized _ (List.mem_of_getElem? (hs.current hpc)))
  | skip => exact hsized
  | leave => exact hsized

/-- Overwriting an element by a larger one keeps the clash, whether or not the
element is part of it. -/
theorem Clash.set {n i : Nat} {rects : List Rect} {a u : Rect}
    (h : Clash n rects) (hi : n ≤ i) (ha : rects[i]? = some a)
    (hsize : 0 ≤ a.width ∧ 0 ≤ a.height) (hau : a ≤ u) : Clash n (rects.set i u) := by
  obtain ⟨k, j, c, d, hk, hkj, hc, hd, htouch⟩ := h
  have hlt := (List.getElem?_eq_some_iff.mp ha).1
  have hc' : (rects.set i u)[k]? = some c := by
    rw [List.getElem?_set_ne (by omega)]
    exact hc
  by_cases hj : i = j
  · subst hj
    have hda : d = a := Option.some.inj (hd.symm.trans ha)
    subst hda
    exact ⟨k, i, c, u, hk, hkj, hc', List.getElem?_set_self hlt, htouch.mono hsize hau⟩
  · refine ⟨k, j, c, d, hk, hkj, hc', ?_, htouch⟩
    rw [List.getElem?_set_ne hj]
    exact hd

/-- Position `j` after erasing position `m`. -/
theorem getElem?_eraseIdx_shift {rects : List Rect} {m j : Nat} (hne : j ≠ m) :
    (rects.eraseIdx m)[if j < m then j else j - 1]? = rects[j]? := by
  rw [List.getElem?_eraseIdx]
  split_ifs with h h'
  · rfl
  · omega
  · congr 1
    omega

/-- Erasing an element keeps the clash if a larger element stays behind
position `n`. -/
theorem Clash.eraseIdx {n m m' : Nat} {rects : List Rect} {a b : Rect}
    (h : Clash n rects) (hm : n ≤ m) (hm' : n ≤ m') (hne : m' ≠ m)
    (ha : rects[m]? = some a) (hb : rects[m']? = some b)
    (hsize : 0 ≤ a.width ∧ 0 ≤ a.height) (hab : a ≤ b) : Clash n (rects.eraseIdx m) := by
  obtain ⟨k, j, c, d, hk, hkj, hc, hd, htouch⟩ := h
  have hc' : (rects.eraseIdx m)[k]? = some c := by
    rw [List.getElem?_eraseIdx_of_lt (by omega)]
    exact hc
  by_cases hj : j = m
  · subst hj
    have hda : d = a := Option.some.inj (hd.symm.trans ha)
    subst hda
    refine ⟨k, if m' < j then m' else m' - 1, c, b, hk, ?_, hc', ?_, htouch.mono hsize hab⟩
    · split_ifs <;> omega
    · rw [getElem?_eraseIdx_shift hne]
      exact hb
  · refine ⟨k, if j < m then j else j - 1, c, d, hk, ?_, hc', ?_, htouch⟩
    · split_ifs <;> omega
    · rw [getElem?_eraseIdx_shift hj]
      exact hd

/-- The element written by a union, after the erase that follows it. -/
theorem clash_of_union {n i j k : Nat} {rects : List Rect} {r u : Rect}
    (hk : k < n) (hi : n ≤ i) (hij : i < j) (hlt : i < rects.length)
    (hr : rects[k]? = some r) (htouch : Touches r u) :
    Clash n ((rects.set i u).eraseIdx j) := by
  refine ⟨k, i, r, u, hk, by omega, ?_, ?_, htouch⟩
  · rw [List.getElem?_eraseIdx_of_lt (by omega), List.getElem?_set_ne (by omega)]
    exact hr
  · rw [List.getElem?_eraseIdx_of_lt hij]
    exact List.getElem?_set_self hlt

/-- No step removes a clash: a rectangle that the outer loop has passed is not
looked at again. -/
theorem clash_step {s t : MergeState} (hs : WellIndexed s) (hsized : Sized s.boundRect)
    (hclash : Clash s.index1 s.boundRect) (hstep : MergeStep s t) :
    Clash t.index1 t.boundRect := by
  cases hstep with
  | enter => exact hclash
  | dropNew hpc hrect hnested =>
      have hlater := (hs.later hpc).1
      exact hclash.eraseIdx hlater.le le_rfl hlater.ne hrect (hs.current hpc)
        (hsized _ (List.mem_of_getElem? hrect)) hnested
  | dropCurrent hpc hrect hnested hlt =>
      have hlater := (hs.later hpc).1
      have hcurrent := hs.current hpc
      exact hclash.eraseIdx le_rfl hlater.le hlater.ne' hcurrent hrect
        (hsized _ (List.mem_of_getElem? hcurrent)) hnested
  | @unite hpc rect2 hrect hnew hcur hnear hlt =>
      have hlater := (hs.later hpc).1
      have hcurrent := hs.current hpc
      have hset := hclash.set (u := Rect.union s.rect1 rect2) le_rfl hcurrent
        (hsized _ (List.mem_of_getElem? hcurrent)) (le_sup_left (b := rect2))
      refine hset.eraseIdx hlater.le le_rfl hlater.ne ?_ (List.getElem?_set_self hlt)
        (hsized _ (List.mem_of_getElem? hrect)) (le_sup_right (a := s.rect1))
      rw [List.getElem?_set_ne hlater.ne]
      exact hrect
  | skip => exact hclash
  | leave hpc hend =>
      obtain ⟨k, j, a, b, hk, hkj, ha, hb, htouch⟩ := hclash
      refine ⟨k, j, a, b, ?_, hkj, ha, hb, htouch⟩
      simp only [MergeState.leaveInner, hs.count_zero hpc, if_true]
      omega

/-! ## The fixpoint -/

/-- The loop stops when at most one rectangle is left from `index1` on. -/
theorem length_le_of_done {s : MergeState} {out : List Rect} (hs : WellIndexed s)
    (hdone : mergeStep s = .done out) :
    out = s.boundRect ∧ s.boundRect.length ≤ s.index1 + 1 := by
  obtain ⟨_, hstop, rfl⟩ := boundRect_of_done hdone
  rw [lt_sizeMinusOne (Nat.zero_lt_of_lt hs.index1_lt)] at hstop
  exact ⟨rfl, Nat.le_of_not_lt hstop⟩

/-- Two near rectangles of which neither contains the other are united. -/
theorem moves_unite {s : MergeState} (hs : WellIndexed s) (hpc : s.pc = .inner)
    {rect2 : Rect} (hrect : s.boundRect[s.index2]? = some rect2)
    (hnew : ¬ Rect.Nested rect2 s.rect1) (hcur : ¬ Rect.Nested s.rect1 rect2)
    (hnear : Rect.Near s.rect1 rect2) :
    Moves mergeStep s (s.afterErase
      ((s.boundRect.set s.index1 (Rect.union s.rect1 rect2)).eraseIdx s.index2)) := by
  have hlt2 := (List.getElem?_eq_some_iff.mp hrect).1
  unfold Moves mergeStep
  rw [hpc]
  simp only [hlt2, if_true]
  unfold compareRects
  rw [hrect, Outcome.access_some, if_neg hnew, if_neg hcur, if_pos hnear]
  simp [assignAt, eraseAt, hs.index1_lt, hlt2]

/-- What a run keeps once a clash is there: sound indices, nonnegative sizes
and the clash. -/
structure Clashing (s : MergeState) : Prop where
  indexed : WellIndexed s
  sized : Sized s.boundRect
  clash : Clash s.index1 s.boundRect

/-- A run that meets a clash returns a vector with a touching pair, since no
step removes it. -/
theorem Clashing.not_apart {s : MergeState} {out : List Rect} (hs : Clashing s)
    (h : Returns mergeStep s out) : ¬ out.Pairwise fun a b => ¬ Touches a b := by
  refine h.of_invariant (P := Clashing)
    (Q := fun out => ¬ out.Pairwise fun a b => ¬ Touches a b) ?_ ?_ hs
  · intro s t hs hmove
    have hstep := mergeStep_cases hmove
    exact ⟨wellIndexed_step hs.indexed hstep, sized_step hs.indexed hs.sized hstep,
      clash_step hs.indexed hs.sized hs.clash hstep⟩
  · intro s out hs hdone hapart
    obtain ⟨rfl, _⟩ := length_le_of_done hs.indexed hdone
    obtain ⟨k, j, a, b, _, hkj, ha, hb, htouch⟩ := hs.clash
    obtain ⟨hk, rfl⟩ := getElem_of_getElem? ha
    obtain ⟨hj, rfl⟩ := getElem_of_getElem? hb
    exact List.pairwise_iff_getElem.mp hapart k j hk hj hkj htouch

/-- A loop that stops with everything separated returns rectangles apart. -/
theorem Separated.apart {s : MergeState} {out : List Rect} (hs : Separated s)
    (hdone : mergeStep s = .done out) : out.Pairwise fun a b => ¬ Touches a b := by
  obtain ⟨rfl, hlen⟩ := length_le_of_done hs.indexed hdone
  rw [List.pairwise_iff_getElem]
  intro k j hk hj hkj
  exact hs.settled k j _ _ (by omega) hkj
    (List.getElem?_eq_getElem hk) (List.getElem?_eq_getElem hj)

/-- At the start nothing is settled, so nothing settled touches. -/
theorem separated_start {rects : List Rect} (hne : rects ≠ []) : Separated (startMerge rects) where
  indexed := wellIndexed_start hne
  settled k j a b hk := absurd hk (Nat.not_lt_zero k)
  compared h := by cases h

/-- **Exactly when merging reaches a fixpoint.**  No two rectangles of the
result satisfy a condition of the loop if and only if in every state of the
run the next union is clear of the rectangles before `index1`. -/
theorem merge_fixpoint_iff {rects : List Rect} (hne : rects ≠ []) (hsized : Sized rects) :
    (∃ out, Returns mergeStep (startMerge rects) out ∧
      out.Pairwise fun a b => ¬ Touches a b) ↔
    ∀ s, Reach mergeStep (startMerge rects) s → UnionClear s := by
  constructor
  · intro ⟨out, hout, hapart⟩ s hreach rect2 hpc hrect hnew hcur hnear k r hk hr htouch
    have hinv : WellIndexed s ∧ Sized s.boundRect := by
      refine invariant_of_steps (P := fun s => WellIndexed s ∧ Sized s.boundRect)
        ?_ hreach ⟨wellIndexed_start hne, hsized⟩
      intro s t hs hmove
      have hstep := mergeStep_cases hmove
      exact ⟨wellIndexed_step hs.1 hstep, sized_step hs.1 hs.2 hstep⟩
    have hmove := moves_unite hinv.1 hpc hrect hnew hcur hnear
    have hstep := mergeStep_cases hmove
    have hclash : Clashing (s.afterErase
        ((s.boundRect.set s.index1 (Rect.union s.rect1 rect2)).eraseIdx s.index2)) :=
      ⟨wellIndexed_step hinv.1 hstep, sized_step hinv.1 hinv.2 hstep,
        clash_of_union hk le_rfl (hinv.1.later hpc).1 hinv.1.index1_lt hr htouch⟩
    exact hclash.not_apart (hout.of_reach (hreach.tail hmove)) hapart
  · intro hclear
    obtain ⟨out, u, hreach, hdone⟩ := mergeLoop_returns hne
    have hsep : Separated u := by
      refine invariant_of_guarded (P := Separated) ?_ hclear hreach (separated_start hne)
      intro s t hs hok hmove
      exact separated_step hs hok (mergeStep_cases hmove)
    exact ⟨out, ⟨u, hreach, hdone⟩, hsep.apart hdone⟩

theorem merge_fixpoint_iff_pair :
    (∃ out, Returns mergeStep (startMerge [⟨0, 0, 90, 30⟩, ⟨95, 5, 60, 20⟩]) out ∧
      out.Pairwise fun a b => ¬ Touches a b) ↔
    ∀ s, Reach mergeStep (startMerge [⟨0, 0, 90, 30⟩, ⟨95, 5, 60, 20⟩]) s → UnionClear s :=
  merge_fixpoint_iff (by decide) (by unfold Sized; decide)

/-! ## A condition on the rectangles -/

/-- Touching is symmetric, although the loop tests it one way and then the
other. -/
theorem Touches.symm {a b : Rect} (h : Touches a b) : Touches b a := by
  rcases h with hba | hab | hnear
  · exact Or.inr (Or.inl hba)
  · exact Or.inl hab
  · obtain ⟨hlow, hhigh, hleft, hright⟩ := hnear
    exact Or.inr (Or.inr ⟨hhigh, hlow, by omega, by omega⟩)

/-- The boxes of two groups of the rectangles touch only if members of the
groups do. -/
def TouchByMembers (rects : List Rect) : Prop :=
  ∀ as bs others : List Rect, (as ++ bs ++ others).Perm rects →
    ∀ a b, IsLUB {r | r ∈ as} a → IsLUB {r | r ∈ bs} b → Touches a b →
      ∃ r ∈ as, ∃ q ∈ bs, Touches r q

/-- The next union is clear of what is settled: a rectangle it would reach
back to touches one of the two that are united, because contact of members is
contact of their boxes. -/
theorem unionClear_of_touchByMembers {rects : List Rect} (hsized : Sized rects)
    (htouch : TouchByMembers rects) {s : MergeState} (hs : Separated s)
    (hclus : IsClustering rects s.boundRect) : UnionClear s := by
  intro rect2 hpc hrect _ _ _ k r hk hr hback
  have hlater := (hs.indexed.later hpc).1
  have hcurrent := hs.indexed.current hpc
  have hapart : ¬ Touches r s.rect1 ∧ ¬ Touches r rect2 :=
    ⟨hs.settled k _ r _ hk hk hr hcurrent, hs.settled k _ r _ hk (hk.trans hlater) hr hrect⟩
  obtain ⟨_, hrk⟩ := getElem_of_getElem? hr
  obtain ⟨_, hcur⟩ := getElem_of_getElem? hcurrent
  obtain ⟨hlt, hnew⟩ := getElem_of_getElem? hrect
  obtain ⟨rest, hperm⟩ := perm_triple hk hlater hlt
  rw [hrk, hcur, hnew] at hperm
  obtain ⟨as, bs, cs, others, hxs, has, hbs, hcs⟩ := (hclus.perm_right hperm).blocks
  have hunion : IsLUB {q | q ∈ bs ++ cs} (Rect.union s.rect1 rect2) := by
    have hset : {q | q ∈ bs ++ cs} = {q | q ∈ bs} ∪ {q | q ∈ cs} := by
      ext q
      simp
    rw [hset]
    exact hbs.union hcs
  obtain ⟨p, hp, q, hq, hpq⟩ := htouch as (bs ++ cs) others hxs _ _ has hunion hback
  have hmem : ∀ x ∈ as ++ (bs ++ cs), 0 ≤ x.width ∧ 0 ≤ x.height :=
    fun x hx => hsized x (hxs.mem_iff.mp (List.mem_append_left others hx))
  have hpsize := hmem p (List.mem_append_left _ hp)
  have hqsize := hmem q (List.mem_append_right as hq)
  have hgrow : ∀ b, q ≤ b → Touches r b :=
    fun b hqb => ((hpq.mono hqsize hqb).symm.mono hpsize (has.1 hp)).symm
  rcases List.mem_append.mp hq with hqb | hqc
  · exact hapart.1 (hgrow _ (hbs.1 hqb))
  · exact hapart.2 (hgrow _ (hcs.1 hqc))

/-- **Rectangles that touch by members only are merged to a fixpoint.**
Whenever the bounding boxes of two disjoint groups touch, some members of them
do: a condition on the input alone, under which every union is clear. -/
theorem merge_fixpoint_of_touchByMembers {rects : List Rect} (hne : rects ≠ [])
    (hsized : Sized rects) (htouch : TouchByMembers rects) :
    ∃ out, Returns mergeStep (startMerge rects) out ∧ out.Pairwise fun a b => ¬ Touches a b := by
  obtain ⟨out, hout⟩ := mergeLoop_returns hne
  refine ⟨out, hout, ?_⟩
  refine hout.of_invariant (P := fun s => Separated s ∧ IsClustering rects s.boundRect)
    ?_ ?_ ⟨separated_start hne, .refl rects⟩
  · intro s t ⟨hs, hclus⟩ hmove
    have hstep := mergeStep_cases hmove
    have hclear := unionClear_of_touchByMembers hsized htouch hs hclus
    exact ⟨separated_step hs hclear hstep, isClustering_step hs.indexed hclus hstep⟩
  · intro s r ⟨hs, _⟩ hdone
    exact hs.apart hdone

/-- Three rectangles as the size filter keeps them, in sorted order.  The
first touches neither of the others and is settled; the union of the other two
reaches back to it and is left touching it. -/
theorem merge_not_fixpoint :
    ¬ ∀ rects : List Rect, rects ≠ [] → (∀ r ∈ rects, keepsRect r = true) →
      SortedByArea rects rects →
      ∃ out, Returns mergeStep (startMerge rects) out ∧
        out.Pairwise fun a b => ¬ Touches a b := by
  intro h
  obtain ⟨out, hout, hapart⟩ :=
    h [⟨0, 0, 100, 20⟩, ⟨116, 0, 40, 25⟩, ⟨80, 22, 30, 25⟩] (by decide) (by decide)
      ⟨.refl _, by decide⟩
  have hrun : Returns mergeStep
      (startMerge [⟨0, 0, 100, 20⟩, ⟨116, 0, 40, 25⟩, ⟨80, 22, 30, 25⟩])
      [⟨0, 0, 100, 20⟩, ⟨80, 0, 76, 47⟩] := returns_of_runFor (n := 20) (by decide)
  rw [hout.unique hrun] at hapart
  revert hapart
  decide

end CardScanner
