import Mathlib.Data.List.Nodup
import Mathlib.Data.Nat.Basic
import Mathlib.Order.Nat
import Mathlib.Tactic.Common

/-!
# Runs along a line of cells

A line is a test on positions.  A run, from a position `lo` on and below `n`,
is a stretch of positions that pass and that cannot be made longer on either
side (`IsRun`).  A run is found at its first position, which passes while the
one before it does not (`isStart`), and its end is where a walk from there
stops (`skip`).  `starts` lists the first positions of a stretch of the line;
what lies inside a run may be left out of it (`starts_skip`).  A scan that
erases what it has found comes upon the same positions (`Erased`).
-/

namespace LineRuns

/-- The first position at or after `p` that does not pass, at most `p + k`. -/
def skip (off : Nat → Bool) : Nat → Nat → Nat
  | 0, p => p
  | k + 1, p => if off p then skip off k (p + 1) else p

/-- A passing position without one before it, from `lo` on. -/
def isStart (off : Nat → Bool) (lo p : Nat) : Bool :=
  off p && (p == lo || !off (p - 1))

/-- The first positions of runs among the `k` positions from `p` on. -/
def starts (off : Nat → Bool) (lo p k : Nat) : List Nat :=
  (List.range' p k).filter (isStart off lo)

/-- The stretch from `first` to `last` passes and cannot be made longer within
the positions from `lo` on and below `n`. -/
structure IsRun (off : Nat → Bool) (lo n first last : Nat) : Prop where
  lo_le : lo ≤ first
  le : first ≤ last
  lt : last < n
  passes : ∀ p, first ≤ p → p ≤ last → off p = true
  left : first = lo ∨ off (first - 1) = false
  right : last + 1 = n ∨ off (last + 1) = false

variable {off : Nat → Bool} {lo n : Nat}

/-- A run starts at an OFF place if it is the first place of all or the one
before it is ON. -/
theorem isStart_iff {p : Nat} :
    isStart off lo p = true ↔ off p = true ∧ (p = lo ∨ off (p - 1) = false) := by
  simp [isStart]

/-- Behind a position that does not pass, a run begins where one passes. -/
theorem isStart_succ {p : Nat} (hp : off p = false) (h : off (p + 1) = true) :
    isStart off lo (p + 1) = true :=
  isStart_iff.mpr ⟨h, Or.inr hp⟩

/-! ## Where a walk stops -/

/-- Passing over OFF places never goes back. -/
theorem le_skip (k p : Nat) : p ≤ skip off k p := by
  induction k generalizing p with
  | zero => exact le_rfl
  | succ k ih =>
      unfold skip
      split
      · exact (Nat.le_succ p).trans (ih (p + 1))
      · exact le_rfl

theorem skip_le (k p : Nat) : skip off k p ≤ p + k := by
  induction k generalizing p with
  | zero => exact le_rfl
  | succ k ih =>
      unfold skip
      split
      · have := ih (p + 1)
        omega
      · omega

/-- Everything walked over passes. -/
theorem passes_of_lt_skip {k p q : Nat} (hpq : p ≤ q) (hq : q < skip off k p) : off q = true := by
  induction k generalizing p with
  | zero => exact absurd hq (by simp only [skip]; omega)
  | succ k ih =>
      unfold skip at hq
      split at hq
      · rename_i hp
        rcases hpq.eq_or_lt with rfl | hlt
        · exact hp
        · exact ih hlt hq
      · omega

/-- The walk stops for a reason. -/
theorem skip_stops {k p : Nat} (h : skip off k p < p + k) : off (skip off k p) = false := by
  induction k generalizing p with
  | zero => exact absurd h (by simp [skip])
  | succ k ih =>
      unfold skip at h ⊢
      split at h
      · rename_i hp
        rw [if_pos hp]
        exact ih (by omega)
      · rename_i hp
        rw [if_neg hp]
        exact Bool.not_eq_true _ ▸ hp

/-- The walk sees only what lies ahead of it. -/
theorem skip_congr {off' : Nat → Bool} {k p : Nat}
    (h : ∀ q, p ≤ q → q < p + k → off q = off' q) : skip off k p = skip off' k p := by
  induction k generalizing p with
  | zero => rfl
  | succ k ih =>
      unfold skip
      rw [h p le_rfl (by omega), ih fun q hq hq' => h q (by omega) (by omega)]

/-- A walk from a passing position makes at least one step. -/
theorem lt_skip {k p : Nat} (hk : 0 < k) (hp : off p = true) : p < skip off k p := by
  obtain ⟨k, rfl⟩ := Nat.exists_eq_succ_of_ne_zero hk.ne'
  unfold skip
  rw [if_pos hp]
  exact le_skip k (p + 1)

/-- A walk goes through whatever passes. -/
theorem lt_skip_of_passes {k p r : Nat} (hr : r < p + k)
    (h : ∀ q, p ≤ q → q ≤ r → off q = true) : r < skip off k p := by
  by_contra hle
  have hend := skip_stops (show skip off k p < p + k by omega)
  rw [h _ (le_skip k p) (by omega)] at hend
  exact absurd hend.symm Bool.false_ne_true

/-! ## Runs and their first positions -/

/-- From the first position of a run the walk goes to its end, or to that of
the line. -/
theorem isRun_of_isStart {p : Nat} (hlo : lo ≤ p) (hn : p < n) (hp : isStart off lo p = true) :
    IsRun off lo n p (skip off (n - p) p - 1) := by
  obtain ⟨hoff, hleft⟩ := isStart_iff.mp hp
  have hlt : p < skip off (n - p) p := lt_skip (by omega) hoff
  have hle : skip off (n - p) p ≤ p + (n - p) := skip_le _ _
  refine ⟨hlo, by omega, by omega, ?_, hleft, ?_⟩
  · intro q hpq hq
    have hqskip : q < skip off (n - p) p := by omega
    exact passes_of_lt_skip hpq hqskip
  · rw [Nat.sub_add_cancel (by omega)]
    rcases hle.eq_or_lt with heq | hlt
    · exact Or.inl (by omega)
    · exact Or.inr (skip_stops hlt)

theorem IsRun.isStart {first last : Nat} (h : IsRun off lo n first last) :
    isStart off lo first = true :=
  isStart_iff.mpr ⟨h.passes first le_rfl h.le, h.left⟩

/-- Past its first position, a run has no other one. -/
theorem IsRun.not_isStart {first last p : Nat} (h : IsRun off lo n first last) (hp : first < p)
    (hp' : p ≤ last) : LineRuns.isStart off lo p = false := by
  have hbefore : off (p - 1) = true := h.passes (p - 1) (by omega) (by omega)
  have hlo := h.lo_le
  grind [LineRuns.isStart]

/-- Right behind a run nothing passes, so what passed there would begin a run. -/
theorem IsRun.isStart_behind {first last : Nat} (h : IsRun off lo n first last)
    (hlt : last + 1 < n) (hoff : off (last + 1) = true) :
    LineRuns.isStart off lo (last + 1) = true := by
  rcases h.right with heq | hend
  · omega
  · rw [hend] at hoff
    exact absurd hoff Bool.false_ne_true

/-- Two runs that share a position are one: neither could begin or end within
the other. -/
theorem IsRun.unique {a b c d : Nat} (h : IsRun off lo n a b) (h' : IsRun off lo n c d)
    (had : a ≤ d) (hcb : c ≤ b) : a = c ∧ b = d := by
  have hfirst : ∀ {a b c d : Nat}, IsRun off lo n a b → IsRun off lo n c d → a ≤ d → ¬ c < a := by
    intro a b c d h h' had hca
    exact absurd h.isStart (by rw [h'.not_isStart hca had]; exact Bool.false_ne_true)
  have hlast : ∀ {a b c d : Nat}, IsRun off lo n a b → IsRun off lo n c d → c ≤ b → ¬ b < d := by
    intro a b c d h h' hcb hbd
    have hend := h'.passes (b + 1) (by omega) (by omega)
    have hn := h'.lt
    rcases h.right with heq | hoff
    · omega
    · exact absurd hend (by rw [hoff]; exact Bool.false_ne_true)
  have h1 := hfirst h h' had
  have h2 := hfirst h' h hcb
  have h3 := hlast h h' hcb
  have h4 := hlast h' h had
  omega

/-- The end of a run is where the walk from its first position stops. -/
theorem IsRun.last_eq {first last : Nat} (h : IsRun off lo n first last) :
    last = skip off (n - first) first - 1 := by
  have hlt := h.lt
  have hrun := isRun_of_isStart h.lo_le (h.le.trans_lt hlt) h.isStart
  exact (h.unique hrun hrun.le h.le).2

/-- A position behind all runs may be cut off, if it does not pass itself. -/
theorem isRun_succ_iff {m first last : Nat} (hm : off m = false) :
    IsRun off lo (m + 1) first last ↔ IsRun off lo m first last := by
  constructor
  · intro h
    have hlast : last ≠ m := by
      rintro rfl
      rw [h.passes last h.le le_rfl] at hm
      exact absurd hm.symm Bool.false_ne_true
    have hlt := h.lt
    exact ⟨h.lo_le, h.le, by omega, h.passes, h.left, Or.inr (h.right.resolve_left (by omega))⟩
  · intro h
    refine ⟨h.lo_le, h.le, h.lt.trans m.lt_succ_self, h.passes, h.left, Or.inr ?_⟩
    rcases h.right with heq | hoff
    · exact heq ▸ hm
    · exact hoff

/-- A run goes through every position that passes.  It begins at the last one,
going back, before which nothing passes. -/
theorem exists_isStart {p : Nat} (hlo : lo ≤ p) (hp : off p = true) :
    ∃ s, lo ≤ s ∧ s ≤ p ∧ isStart off lo s = true ∧ ∀ q, s ≤ q → q ≤ p → off q = true := by
  induction p with
  | zero =>
      refine ⟨0, hlo, le_rfl, isStart_iff.mpr ⟨hp, Or.inl (by omega)⟩, ?_⟩
      intro q _ hq
      rwa [Nat.le_zero.mp hq]
  | succ p ih =>
      by_cases hfirst : isStart off lo (p + 1) = true
      · refine ⟨p + 1, hlo, le_rfl, hfirst, ?_⟩
        intro q hq hq'
        rwa [le_antisymm hq' hq]
      · rw [isStart_iff, not_and_or, not_or] at hfirst
        have hbefore := hfirst.resolve_left (by simp [hp])
        obtain ⟨s, hs, hsp, hstart, hpass⟩ := ih (by omega) (by simpa using hbefore.2)
        refine ⟨s, hs, by omega, hstart, ?_⟩
        intro q hq hq'
        rcases hq'.eq_or_lt with rfl | hlt
        · exact hp
        · exact hpass q hq (by omega)

/-! ## The first positions of a stretch -/

/-- The loop meets every start in the part of the line it goes through. -/
theorem mem_starts {p k q : Nat} :
    q ∈ starts off lo p k ↔ (p ≤ q ∧ q < p + k) ∧ isStart off lo q = true := by
  simp [starts, List.mem_range'_1]

theorem nodup_starts (p k : Nat) : (starts off lo p k).Nodup :=
  List.Nodup.filter _ List.nodup_range'

@[simp] theorem starts_zero (p : Nat) : starts off lo p 0 = [] := rfl

theorem starts_succ (p k : Nat) :
    starts off lo p (k + 1) =
      if isStart off lo p then p :: starts off lo (p + 1) k else starts off lo (p + 1) k := by
  unfold starts
  rw [List.range'_succ, List.filter_cons]

/-- A stretch without first positions may be left out. -/
theorem starts_skip {p q k : Nat} (hpq : p ≤ q)
    (h : ∀ r, p ≤ r → r < q → isStart off lo r = false) :
    starts off lo p k = starts off lo q (p + k - q) := by
  induction k generalizing p with
  | zero => simp [Nat.sub_eq_zero_of_le hpq]
  | succ k ih =>
      rcases hpq.eq_or_lt with rfl | hlt
      · rw [Nat.add_sub_cancel_left]
      · rw [starts_succ, if_neg (by simp [h p le_rfl hlt]),
          ih hlt fun r hr => h r (by omega), Nat.succ_add_eq_add_succ]

/-- From the first position of a run on, it is listed and the rest of it is
not. -/
theorem IsRun.starts_eq {first last : Nat} (h : IsRun off lo n first last) (k : Nat) :
    starts off lo first (k + 1) = first :: starts off lo (last + 1) (first + k - last) := by
  have hle := h.le
  rw [starts_succ, if_pos h.isStart, starts_skip (show first + 1 ≤ last + 1 by omega)
    fun r hr hr' => h.not_isStart (by omega) (by omega)]
  congr 2
  omega

/-- A run is known by its start: its end is where passing over OFF places
stops. -/
theorem isRun_iff_mem_starts {first last : Nat} :
    IsRun off lo n first last ↔
      first ∈ starts off lo lo (n - lo) ∧ last = skip off (n - first) first - 1 := by
  constructor
  · intro h
    have hlo := h.lo_le
    have hlt := h.le.trans_lt h.lt
    exact ⟨mem_starts.mpr ⟨⟨hlo, by omega⟩, h.isStart⟩, h.last_eq⟩
  · rintro ⟨hmem, rfl⟩
    obtain ⟨⟨hlo, hn⟩, hstart⟩ := mem_starts.mp hmem
    exact isRun_of_isStart hlo (by omega) hstart

/-- The same before a last position that does not pass, so that no run is cut
off there. -/
theorem isRun_pred_iff_mem_starts (hlast : ∀ p, p + 1 = n → off p = false) {first last : Nat} :
    IsRun off lo (n - 1) first last ↔
      first ∈ starts off lo lo (n - 1 - lo) ∧ last = skip off (n - first) first - 1 := by
  cases n with
  | zero =>
      refine iff_of_false (fun h => absurd h.lt (Nat.not_lt_zero last)) ?_
      rintro ⟨hmem, -⟩
      obtain ⟨⟨hlo, hlt⟩, -⟩ := mem_starts.mp hmem
      omega
  | succ m =>
      have hm := hlast m rfl
      rw [Nat.add_sub_cancel, ← isRun_succ_iff hm, isRun_iff_mem_starts, mem_starts, mem_starts]
      refine and_congr_left fun _ => ⟨?_, ?_⟩
      · rintro ⟨⟨hlo, hlt⟩, hstart⟩
        have hne : first ≠ m := by
          rintro rfl
          rw [(isStart_iff.mp hstart).1] at hm
          exact absurd hm.symm Bool.false_ne_true
        exact ⟨⟨hlo, by omega⟩, hstart⟩
      · rintro ⟨⟨hlo, hlt⟩, hstart⟩
        exact ⟨⟨hlo, by omega⟩, hstart⟩

/-! ## Runs that are short and end before the line does -/

/-- From `lo` on, no run goes through the last two of the `n` positions, and no
`bound` positions in a row pass. -/
structure Fits (off : Nat → Bool) (lo n bound : Nat) : Prop where
  border : ∀ p, lo ≤ p → p + 2 = n → ¬ (off p = true ∧ off (p + 1) = true)
  short : ∀ p, lo ≤ p → p + bound ≤ n → ∃ q, p ≤ q ∧ q < p + bound ∧ off q = false

/-- In terms of the runs that begin before the last position: each ends within
the line, and is shorter than the bound. -/
theorem fits_iff {bound : Nat} (hbound : 2 ≤ bound) :
    Fits off lo n bound ↔ ∀ p ∈ starts off lo lo (n - 1 - lo),
      skip off (n - p) p < n ∧ skip off (n - p) p < p + bound := by
  constructor
  · intro h p hp
    obtain ⟨⟨hlo, hn⟩, hstart⟩ := mem_starts.mp hp
    have hle : skip off (n - p) p ≤ p + (n - p) := skip_le _ _
    refine ⟨?_, ?_⟩
    · by_contra hend
      refine h.border (n - 2) (by omega) (by omega) ⟨?_, ?_⟩
      · exact passes_of_lt_skip (k := n - p) (p := p) (by omega) (by omega)
      · exact passes_of_lt_skip (k := n - p) (p := p) (by omega) (by omega)
    · by_contra hlong
      obtain ⟨q, hpq, hq, hoff⟩ := h.short p hlo (by omega)
      have hpass : off q = true := passes_of_lt_skip (k := n - p) (p := p) hpq (by omega)
      rw [hoff] at hpass
      exact absurd hpass Bool.false_ne_true
  · intro h
    refine ⟨?_, ?_⟩
    · intro p hlo hp ⟨hoff, hoff'⟩
      obtain ⟨s, hs, hsp, hstart, hpass⟩ := exists_isStart hlo hoff
      have hmem := h s (mem_starts.mpr ⟨⟨hs, by omega⟩, hstart⟩)
      have hwalk := lt_skip_of_passes (k := n - s) (p := s) (r := p + 1) (by omega)
        (by
          intro q hq hq'
          rcases hq'.eq_or_lt with rfl | hlt
          · exact hoff'
          · exact hpass q hq (by omega))
      omega
    · intro p hlo hp
      by_contra hall
      have hpass : ∀ q, p ≤ q → q < p + bound → off q = true := by
        intro q hq hq'
        by_contra hoff
        exact hall ⟨q, hq, hq', Bool.not_eq_true _ ▸ hoff⟩
      obtain ⟨s, hs, hsp, hstart, hpass'⟩ := exists_isStart hlo (hpass p le_rfl (by omega))
      have hmem := h s (mem_starts.mpr ⟨⟨hs, by omega⟩, hstart⟩)
      have hwalk := lt_skip_of_passes (k := n - s) (p := s) (r := p + bound - 1) (by omega)
        (by
          intro q hq hq'
          rcases Nat.lt_or_ge q p with hlt | hge
          · exact hpass' q hq hlt.le
          · exact hpass q hge (by omega))
      omega

theorem Fits.mono {lo' bound : Nat} (h : Fits off lo n bound) (hlo : lo ≤ lo') :
    Fits off lo' n bound where
  border := fun p hp => h.border p (hlo.trans hp)
  short := fun p hp => h.short p (hlo.trans hp)

/-- If no run reaches the last place and each is short, all fit: positions
that pass in a row belong to one run. -/
theorem fits_of_runs {bound : Nat} (hbound : 2 ≤ bound) (hlast : ∀ p, p + 1 = n → off p = false)
    (hshort : ∀ first last, IsRun off lo n first last → last + 1 < first + bound) :
    Fits off lo n bound := by
  rw [fits_iff hbound]
  intro p hp
  obtain ⟨⟨hlo, hn⟩, hstart⟩ := mem_starts.mp hp
  have hrun := isRun_of_isStart hlo (show p < n by omega) hstart
  have hwalk : p < skip off (n - p) p := lt_skip (by omega) (isStart_iff.mp hstart).1
  have hlen := hshort _ _ hrun
  refine ⟨?_, by omega⟩
  by_contra hend
  have hoff := hrun.passes _ hrun.le le_rfl
  have hlt := hrun.lt
  rw [hlast _ (by omega)] at hoff
  exact absurd hoff Bool.false_ne_true

/-! ## Erasing the runs one by one

A scan that switches off the run it has found works on a line `cur` of its own.
-/

/-- At position `p` and behind it, the line being scanned is the original less
what is at or before `r`, the end of the run erased last. -/
structure Erased (off cur : Nat → Bool) (lo n p r : Nat) : Prop where
  ahead : ∀ q, p ≤ q → q < n → cur q = (off q && decide (r < q))
  done : ∀ q, p ≤ q → q ≤ r → isStart off lo q = false
  next : ∀ q, q = max p (r + 1) → q < n → off q = true → isStart off lo q = true

variable {cur : Nat → Bool} {p r : Nat}

/-- At the start nothing is erased. -/
theorem erased_self (hlo : 0 < lo) : Erased off off lo n lo 0 where
  ahead := by
    intro q hq _
    simp [show 0 < q by omega]
  done := by
    intro q hq hq0
    omega
  next := by
    intro q hq _ hoff
    exact isStart_iff.mpr ⟨hoff, Or.inl (by omega)⟩

/-- The scan comes upon what is left of a line exactly where a run begins. -/
theorem Erased.passes_iff (h : Erased off cur lo n p r) (hp : p < n) :
    cur p = true ↔ isStart off lo p = true := by
  rw [h.ahead p le_rfl hp, Bool.and_eq_true, decide_eq_true_eq]
  constructor
  · rintro ⟨hoff, hr⟩
    exact h.next p (by omega) hp hoff
  · intro hstart
    refine ⟨(isStart_iff.mp hstart).1, ?_⟩
    by_contra hr
    rw [h.done p le_rfl (by omega)] at hstart
    exact absurd hstart Bool.false_ne_true

/-- There it walks to the end of the run. -/
theorem Erased.skip_eq (h : Erased off cur lo n p r) (hp : p < n) (hcur : cur p = true) :
    skip cur (n - p) p = skip off (n - p) p := by
  have hr : r < p := by
    rw [h.ahead p le_rfl hp, Bool.and_eq_true, decide_eq_true_eq] at hcur
    exact hcur.2
  refine skip_congr fun q hpq hq => ?_
  rw [h.ahead q hpq (by omega), decide_eq_true (by omega), Bool.and_true]

/-- A position that is passed over, because it does not pass or has been
erased. -/
theorem Erased.pass (h : Erased off cur lo n p r) (hp : p < n) (hcur : cur p = false) :
    Erased off cur lo n (p + 1) r where
  ahead := fun q hq => h.ahead q (by omega)
  done := fun q hq => h.done q (by omega)
  next := by
    intro q hq hqn hoff
    rcases Nat.lt_or_ge r p with hr | hr
    · have hbefore : off p = false := by
        rw [h.ahead p le_rfl hp, decide_eq_true hr, Bool.and_true] at hcur
        exact hcur
      obtain rfl : q = p + 1 := by omega
      exact isStart_succ hbefore hoff
    · exact h.next q (by omega) hqn hoff

/-- A run that is found and erased: ahead of it the line is as it was, and no
position of the run passes any more. -/
theorem Erased.erase {cur' : Nat → Bool} {last : Nat} (h : Erased off cur lo n p r)
    (hcur : cur p = true) (hrun : IsRun off lo n p last)
    (hcur' : ∀ q, q < n → cur' q = (cur q && !decide (p ≤ q ∧ q ≤ last))) :
    Erased off cur' lo n (p + 1) last where
  ahead := by
    intro q hq hqn
    have hr : r < p := by
      rw [h.ahead p le_rfl (hrun.le.trans_lt hrun.lt), Bool.and_eq_true,
        decide_eq_true_eq] at hcur
      exact hcur.2
    rw [hcur' q hqn, h.ahead q (by omega) hqn, decide_eq_true (show r < q by omega),
      Bool.and_true]
    congr 1
    grind
  done := fun q hq hq' => hrun.not_isStart (by omega) hq'
  next := by
    intro q hq hqn hoff
    have hle := hrun.le
    obtain rfl : q = last + 1 := by omega
    exact hrun.isStart_behind hqn hoff

end LineRuns
