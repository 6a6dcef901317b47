import CardScanner.SeedFill

/-!
# What a fill clears

Along the line that a stretch leads to, the code fills one run after the other (`OnLine`);
then the stretch is done with, and the invariant of `Filling` holds without it
(`Filled.fillLine`).  Every step takes a stretch off the stack, and each one that it puts
on costs a third of a pixel (`SeedFill.weight`), so the fill ends.  The first step is apart:
both stretches on the stack then lie on the seed, which is not cleared yet.
-/

namespace CardScanner

open LineRuns Plateau Machine Components

/-! ## One line -/

section Line

variable {reach : ℕ} {seg : FillSeg} {s : SeedFill} {x : ℕ}

theorem le_runEnd : x ≤ s.runEnd seg x := le_skip _ _

theorem runEnd_le (hx : x ≤ s.pixs.width) : s.runEnd seg x ≤ s.pixs.width := by
  have hle : s.runEnd seg x ≤ x + (s.pixs.width - x) := skip_le _ _
  omega

/-- A run ends where the line ends or a pixel is not ON. -/
theorem runEnd_not_mem (hx : x ≤ s.pixs.width) :
    (s.runEnd seg x, seg.line) ∉ onPixels s.pixs := by
  intro hon
  have hlt : s.runEnd seg x < s.pixs.width := hon.1
  have hoff : lineOf s.pixs seg.line (s.runEnd seg x) = false :=
    skip_stops (show s.runEnd seg x < x + (s.pixs.width - x) by omega)
  exact absurd (hon.2.2.symm.trans hoff) (by simp)

/-- A run that was found from the left, with what stands before `x`. -/
theorem touches_of_runEnd {first : ℕ} (hx : x ≤ s.pixs.width)
    (hon : ∀ x', first ≤ x' → x' < x → s.pixs.pixel x' seg.line = true)
    (hleft : ∀ x', x' + 1 = first → (x', seg.line) ∉ onPixels s.pixs)
    (hlt : first < s.runEnd seg x) (hmeets : seg.xleft < s.runEnd seg x + reach)
    (hmeets' : first ≤ seg.xright + reach) :
    seg.Touches reach s.pixs first (s.runEnd seg x) := by
  refine ⟨hlt, runEnd_le hx, ?_, hleft, runEnd_not_mem hx, hmeets, hmeets'⟩
  intro x' hx' hx''
  rcases Nat.lt_or_ge x' x with hbefore | hafter
  · exact hon x' hx' hbefore
  · have hline : lineOf s.pixs seg.line x' = true := passes_of_lt_skip hafter hx''
    exact hline

theorem clearBits_clearBits {pixs : Raster Bool} {y first stop : ℕ} (hfirst : first ≤ x)
    (hstop : x ≤ stop) :
    clearBits (clearBits pixs y first x) y x stop = clearBits pixs y first stop := by
  have hpixel : (clearBits (clearBits pixs y first x) y x stop).pixel =
      (clearBits pixs y first stop).pixel := by
    funext x' y'
    simp only [clearBits]
    grind
  exact congrArg (Raster.mk pixs.width pixs.height) hpixel

/-- What was cleared before `x` does not matter for the run from `x` on. -/
theorem runEnd_clear {first : ℕ} {s' : SeedFill}
    (hs' : s'.pixs = clearBits s.pixs seg.line first x) : s'.runEnd seg x = s.runEnd seg x := by
  unfold SeedFill.runEnd
  rw [hs']
  refine skip_congr fun q hq _ => ?_
  simp only [lineOf, clearBits]
  grind

/-- A run that begins further right is filled by the body of the loop. -/
theorem extend_eq_fillRun {first : ℕ} (hfirst : seg.xleft + reach ≤ first + 1) :
    s.extend reach seg first first = s.fillRun reach seg first (s.runEnd seg first) := by
  unfold SeedFill.extend SeedFill.fillRun
  simp only [if_neg (Nat.not_lt.mpr hfirst)]

/-- The part of a run to the left of where it was met is cleared up to there. -/
theorem pixs_clearLeft {first : ℕ} : (s.clearLeft reach seg first x).pixs =
    clearBits s.pixs seg.line first x := by
  unfold SeedFill.clearLeft
  split_ifs <;> rfl

/-- Whether a stretch is pushed before or after pixels are cleared makes no
difference: the one changes the stack, the other the picture. -/
theorem clear_pushFillsegBB (xleft xright y y' first stop : ℕ) (dy : ℤ) :
    (s.pushFillsegBB xleft xright y dy).clear y' first stop =
      (s.clear y' first stop).pushFillsegBB xleft xright y dy := rfl

/-- The loop to the left and the first turn of the loop to the right fill one
run. -/
theorem extend_clearLeft {first : ℕ} (hlt : first < x) :
    (s.clearLeft reach seg first x).extend reach seg first x =
      s.fillRun reach seg first (s.runEnd seg x) := by
  have hclear : (s.clear seg.line first x).clear seg.line x (s.runEnd seg x) =
      s.clear seg.line first (s.runEnd seg x) :=
    congrArg (fun pixs => { s with pixs := pixs }) (clearBits_clearBits hlt.le le_runEnd)
  unfold SeedFill.extend
  rw [runEnd_clear pixs_clearLeft]
  unfold SeedFill.clearLeft SeedFill.fillRun
  by_cases hleft : first + 1 < seg.xleft + reach
  · simp only [if_pos hleft, clear_pushFillsegBB, hclear]
  · simp only [if_neg hleft, hclear]

/-- Nothing is ON where the loop behind `skip:` has been. -/
theorem not_mem_of_lt_skipOff {x' : ℕ} (hx : x ≤ x') (hx' : x' < s.skipOff reach seg x) :
    (x', seg.line) ∉ onPixels s.pixs := by
  intro hon
  have hoff := passes_of_lt_skip hx hx'
  have hpixel : s.pixs.pixel x' seg.line = true := hon.2.2
  simp [lineOf, hpixel] at hoff

/-- Where the loop behind `skip:` stops before its limit, a run begins. -/
theorem pixel_skipOff (hlt : s.skipOff reach seg x < s.limit reach seg) :
    s.pixs.pixel (s.skipOff reach seg x) seg.line = true := by
  have hle : x ≤ s.skipOff reach seg x := le_skip _ _
  have hstop : (!s.pixs.pixel (s.skipOff reach seg x) seg.line) = false :=
    skip_stops (show s.skipOff reach seg x < x + (s.limit reach seg - x) by omega)
  simpa using hstop

end Line

/-- The number of ON pixels. -/
def onCount (pixs : Raster Bool) : ℕ :=
  ((Finset.range pixs.width ×ˢ Finset.range pixs.height).filter
    fun q => pixs.pixel q.1 q.2 = true).card

/-- What every step makes less: three stretches for each ON pixel, and those
on the stack. -/
def SeedFill.weight (s : SeedFill) : ℕ := 3 * onCount s.pixs + s.stack.length

/-- There are fewer ON pixels where one is missing and none is new. -/
theorem onCount_lt {pixs pixs' : Raster Bool} (hsub : onPixels pixs' ⊆ onPixels pixs) {q : ℕ × ℕ}
    (hq : q ∈ onPixels pixs) (hq' : q ∉ onPixels pixs') : onCount pixs' < onCount pixs := by
  have hmem : ∀ (pixs : Raster Bool) (q : ℕ × ℕ),
      q ∈ (Finset.range pixs.width ×ˢ Finset.range pixs.height).filter
        (fun q => pixs.pixel q.1 q.2 = true) ↔ q ∈ onPixels pixs := by
    intro pixs q
    simp [onPixels, and_assoc]
  refine Finset.card_lt_card (Finset.ssubset_iff_subset_ne.mpr ⟨?_, fun heq => ?_⟩)
  · exact fun p hp => (hmem pixs p).mpr (hsub ((hmem pixs' p).mp hp))
  · exact hq' ((hmem pixs' q).mp (heq ▸ (hmem pixs q).mpr hq))

theorem onCount_le (pixs : Raster Bool) : onCount pixs ≤ pixs.width * pixs.height := by
  refine (Finset.card_filter_le _ _).trans ?_
  rw [Finset.card_product, Finset.card_range, Finset.card_range]

/-- Clearing a run pays for the stretches that it pushes, which are at most
three. -/
theorem weight_fillRun {reach : ℕ} {seg : FillSeg} {s : SeedFill} {first stop : ℕ}
    (htouch : seg.Touches reach s.pixs first stop) (hline : seg.line < s.pixs.height) :
    (s.fillRun reach seg first stop).weight ≤ s.weight := by
  have hlt := htouch.lt
  have hon : (first, seg.line) ∈ onPixels s.pixs :=
    ⟨hlt.trans_le htouch.stop_le, hline, htouch.on first le_rfl hlt⟩
  have hcount : onCount (clearBits s.pixs seg.line first stop) < onCount s.pixs :=
    onCount_lt (fun q hq => (mem_onPixels_clearBits.mp hq).1) hon
      fun hin => (mem_onPixels_clearBits.mp hin).2 ⟨rfl, le_rfl, hlt⟩
  have hlength : (s.fillRun reach seg first stop).stack.length ≤ s.stack.length + 3 :=
    length_fillRun
  unfold SeedFill.weight
  rw [pixs_fillRun]
  omega

/-- In the line that a stretch leads to, the positions before `x` are done. -/
structure OnLine (reach : ℕ) (pixs : Raster Bool) (seed : ℕ × ℕ) (weight : ℕ) (seg : FillSeg)
    (s : SeedFill) (x : ℕ) : Prop where
  filling : Filling reach pixs seed (seg.Reaches reach) s
  seed_off : seed ∉ onPixels s.pixs
  weight_le : s.weight ≤ weight
  spent : ∀ seg' ∈ s.stack, seg'.Spent reach s.pixs
  behind : seg.Spent reach s.pixs
  passed : ∀ x' < x, seg.xleft ≤ x' + reach → (x', seg.line) ∉ onPixels s.pixs

section OnLine

variable {reach : ℕ} {pixs : Raster Bool} {seed : ℕ × ℕ} {weight : ℕ} {seg : FillSeg}
  {s : SeedFill} {x : ℕ}

/-- The next run is filled, and the line is done beyond it.  The gap before
the run has no ON pixels that the stretch reaches. -/
theorem OnLine.fillRun (hreach : reach ≤ 1) (hseg : seg.Leads reach pixs seed)
    (h : OnLine reach pixs seed weight seg s x) {first stop : ℕ}
    (htouch : seg.Touches reach s.pixs first stop)
    (hgap : ∀ x', x ≤ x' → x' < first → seg.xleft ≤ x' + reach →
      (x', seg.line) ∉ onPixels s.pixs) :
    OnLine reach pixs seed weight seg (s.fillRun reach seg first stop) (stop + 1) := by
  have hsub : onPixels (s.fillRun reach seg first stop).pixs ⊆ onPixels s.pixs := by
    intro q hq
    rw [pixs_fillRun, mem_onPixels_clearBits] at hq
    exact hq.1
  constructor
  · exact h.filling.fillRun hreach hseg htouch fun x' _ _ hleft hright hon =>
      absurd hon (h.behind x' hleft hright)
  · exact fun hon => h.seed_off (hsub hon)
  · exact (weight_fillRun htouch (h.filling.height ▸ hseg.line_lt)).trans h.weight_le
  · intro seg' hin
    rcases mem_stack_fillRun.mp hin with hnew | hold
    · rw [pixs_fillRun]
      exact hnew.spent hreach htouch
    · exact fun x' hleft hright hon => h.spent seg' hold x' hleft hright (hsub hon)
  · exact fun x' hleft hright hon => h.behind x' hleft hright (hsub hon)
  · intro x' hx' hleft hon
    rcases Nat.lt_or_ge x' first with hbefore | hafter
    · rcases Nat.lt_or_ge x' x with hdone | hin
      · exact h.passed x' hdone hleft (hsub hon)
      · exact hgap x' hin hbefore hleft (hsub hon)
    · rcases (Nat.le_of_lt_succ hx').lt_or_eq with hin | rfl
      · rw [pixs_fillRun, mem_onPixels_clearBits] at hon
        exact hon.2 ⟨rfl, hafter, hin⟩
      · exact htouch.right (hsub hon)

/-- The rest of the line, run by run, as far as the stretch reaches.  By
induction on the positions that are left. -/
theorem OnLine.fromSkip (hreach : reach ≤ 1) (hseg : seg.Leads reach pixs seed) {k : ℕ}
    (hle : seg.xleft + 1 ≤ x + reach) (hk : pixs.width < x + k)
    (h : OnLine reach pixs seed weight seg s x) :
    OnLine reach pixs seed weight seg (s.fromSkip reach seg k x)
      (min (seg.xright + reach + 1) pixs.width) := by
  induction k generalizing s x with
  | zero =>
      refine ⟨h.filling, h.seed_off, h.weight_le, h.spent, h.behind, fun x' hx' => h.passed x' ?_⟩
      omega
  | succ k ih =>
      have hlimit : s.limit reach seg = min (seg.xright + reach + 1) pixs.width := by
        unfold SeedFill.limit
        rw [h.filling.width]
      have hx : x ≤ s.skipOff reach seg x := le_skip _ _
      have hgap : ∀ x', x ≤ x' → x' < s.skipOff reach seg x →
          (x', seg.line) ∉ onPixels s.pixs := fun x' => not_mem_of_lt_skipOff
      unfold SeedFill.fromSkip
      dsimp only
      split_ifs with hlt
      · have hpixel := pixel_skipOff hlt
        generalize s.skipOff reach seg x = first at hlt hx hgap hpixel ⊢
        have hfirst : first < s.pixs.width := hlt.trans_le (min_le_right _ _)
        have hrun : first < s.runEnd seg first := lt_skip (by omega) hpixel
        have hright : first ≤ seg.xright + reach := by omega
        have htouch : seg.Touches reach s.pixs first (s.runEnd seg first) := by
          refine touches_of_runEnd hfirst.le (fun x' hx' hx'' => by omega) ?_ hrun (by omega) hright
          intro x' hx'
          rcases Nat.lt_or_ge x' x with hdone | hin
          · exact h.passed x' hdone (by omega)
          · exact hgap x' hin (by omega)
        rw [extend_eq_fillRun (by omega)]
        exact ih (by omega) (by omega)
          (h.fillRun hreach hseg htouch fun x' hx' hx'' _ => hgap x' hx' hx'')
      · refine ⟨h.filling, h.seed_off, h.weight_le, h.spent, h.behind, fun x' hx' hleft => ?_⟩
        rcases Nat.lt_or_ge x' x with hdone | hin
        · exact h.passed x' hdone hleft
        · exact hgap x' hin (by omega)

/-- The run that the loop to the left finds: it goes no further to the left,
as that position would belong to it too. -/
theorem touches_of_leftEnd (hseg : seg.Leads reach pixs seed) (hwidth : s.pixs.width = pixs.width)
    (hlt : leftEnd (lineOf s.pixs seg.line) (seg.xleft + 1 - reach) < seg.xleft + 1 - reach) :
    seg.Touches reach s.pixs (leftEnd (lineOf s.pixs seg.line) (seg.xleft + 1 - reach))
      (s.runEnd seg (seg.xleft + 1 - reach)) := by
  have hx : seg.xleft + 1 - reach ≤ s.pixs.width := by
    have := hseg.left_lt
    omega
  have hle := hseg.le
  have hend : seg.xleft + 1 - reach ≤ s.runEnd seg (seg.xleft + 1 - reach) := le_runEnd
  have hpasses := (leftEnd_le_iff hlt.le).mp
    (le_refl (leftEnd (lineOf s.pixs seg.line) (seg.xleft + 1 - reach)))
  refine touches_of_runEnd hx hpasses ?_ (hlt.trans_le hend) (by omega) (by omega)
  intro x' hx' hon
  have hlonger : leftEnd (lineOf s.pixs seg.line) (seg.xleft + 1 - reach) ≤ x' := by
    refine (leftEnd_le_iff (by omega)).mpr fun j hj hj' => ?_
    rcases hj.lt_or_eq with hin | rfl
    · exact hpasses j (by omega) hj'
    · exact hon.2.2
  omega

/-- **One stretch.**  A line is filled from a stretch behind which all is
cleared: first the run that the loop to the left finds, then those that begin
further on, up to where the stretch still reaches. -/
theorem OnLine.fillLine (hreach : reach ≤ 1) (hseg : seg.Leads reach pixs seed)
    (h : OnLine reach pixs seed weight seg s 0) :
    OnLine reach pixs seed weight seg (s.fillLine reach seg)
      (min (seg.xright + reach + 1) pixs.width) := by
  unfold SeedFill.fillLine
  dsimp only
  split_ifs with hlt
  · have htouch := touches_of_leftEnd hseg h.filling.width hlt
    have hend : seg.xleft + 1 - reach ≤ s.runEnd seg (seg.xleft + 1 - reach) := le_runEnd
    generalize hfirst : leftEnd (lineOf s.pixs seg.line) (seg.xleft + 1 - reach) = first at *
    have hpixs : (s.clearLeft reach seg first (seg.xleft + 1 - reach)).pixs =
        clearBits s.pixs seg.line first (seg.xleft + 1 - reach) := pixs_clearLeft
    have hrest := h.fillRun hreach hseg htouch fun x' _ hx' hleft => by omega
    rw [extend_clearLeft hlt, runEnd_clear hpixs, hpixs]
    refine hrest.fromSkip hreach hseg (by omega) ?_
    have hwidth : (clearBits s.pixs seg.line first (seg.xleft + 1 - reach)).width = pixs.width :=
      h.filling.width
    omega
  · refine OnLine.fromSkip hreach hseg (by omega) ?_ 
      ⟨h.filling, h.seed_off, h.weight_le, h.spent, h.behind, ?_⟩
    · have hwidth := h.filling.width
      omega
    · intro x' hx' hleft hon
      have hjoined : leftEnd (lineOf s.pixs seg.line) (seg.xleft + 1 - reach) ≤ x' := by
        refine (leftEnd_le_iff hx'.le).mpr fun j hj hj' => ?_
        obtain rfl : j = x' := by omega
        exact hon.2.2
      omega

end OnLine

/-! ## The whole fill -/

/-- Between two steps, the seed being cleared. -/
structure Filled (reach : ℕ) (pixs : Raster Bool) (seed : ℕ × ℕ) (s : SeedFill) : Prop where
  filling : Filling reach pixs seed (fun _ => False) s
  seed_off : seed ∉ onPixels s.pixs
  spent : ∀ seg ∈ s.stack, seg.Spent reach s.pixs

section Fill

variable {reach : ℕ} {pixs : Raster Bool} {seed : ℕ × ℕ} {s : SeedFill}

/-- **One step.**  Either the line is done as far as the stretch reaches, or a
run on it is filled. -/
theorem Filled.fillLine (hreach : reach ≤ 1) (h : Filled reach pixs seed s) {seg : FillSeg}
    {stack : List FillSeg} (hstack : s.stack = seg :: stack) :
    Filled reach pixs seed ({ s with stack := stack }.fillLine reach seg) ∧
      ({ s with stack := stack }.fillLine reach seg).weight < s.weight := by
  have hmem : ∀ seg' ∈ stack, seg' ∈ s.stack := fun seg' hin =>
    hstack ▸ List.mem_cons_of_mem seg hin
  have hhead : seg ∈ s.stack := hstack ▸ List.mem_cons_self
  have hseg := h.filling.leads seg hhead
  have hweight : ({ s with stack := stack } : SeedFill).weight + 1 = s.weight := by
    simp only [SeedFill.weight, hstack, List.length_cons]
    omega
  have hpopped : Filling reach pixs seed (seg.Reaches reach) { s with stack := stack } := by
    refine ⟨h.filling.width, h.filling.height, h.filling.subset, h.filling.cleared, ?_,
      fun seg' hin => h.filling.leads seg' (hmem seg' hin), h.filling.spans⟩
    intro p hp hoff q hq hnear
    rcases h.filling.closed p hp hoff q hq hnear with ⟨seg', hin, hreaches⟩ | hfalse
    · rw [hstack] at hin
      rcases List.mem_cons.mp hin with rfl | hrest
      · exact Or.inr hreaches
      · exact Or.inl ⟨seg', hrest, hreaches⟩
    · exact hfalse.elim
  have hline := OnLine.fillLine hreach hseg (s := { s with stack := stack })
    ⟨hpopped, h.seed_off, le_refl _, fun seg' hin => h.spent seg' (hmem seg' hin),
      h.spent seg hhead, fun x' hx' => absurd hx' (Nat.not_lt_zero x')⟩
  have hdone := hline.filling
  refine ⟨⟨⟨hdone.width, hdone.height, hdone.subset, hdone.cleared, ?_, hdone.leads, hdone.spans⟩,
    hline.seed_off, hline.spent⟩, ?_⟩
  · intro p hp hoff q hq hnear
    rcases hdone.closed p hp hoff q hq hnear with hcovered | ⟨hy, hleft, hright⟩
    · exact Or.inl hcovered
    · obtain ⟨x, y⟩ := q
      obtain rfl : y = seg.line := hy
      have hx : x < pixs.width := (hdone.subset hq).1
      exact absurd hq (hline.passed x (by omega) hleft)
  · have hle := hline.weight_le
    omega

/-- With the stack empty, what is left is the picture without the component. -/
theorem Filled.onPixels_eq (h : Filled reach pixs seed s) (hseed : seed ∈ onPixels pixs)
    (hstack : s.stack = []) :
    onPixels s.pixs = onPixels pixs \ pixelComponent reach pixs seed := by
  have hcomponent : pixelComponent reach pixs seed ⊆ onPixels pixs \ onPixels s.pixs := by
    have hclosed : ∀ p ∈ onPixels pixs \ onPixels s.pixs, ∀ q ∈ onPixels pixs,
        Touching reach p q → q ∈ onPixels pixs \ onPixels s.pixs := by
      intro p hp q hq hnear
      refine ⟨hq, fun hleft => ?_⟩
      rcases h.filling.closed p hp.1 hp.2 q hleft hnear with ⟨seg, hin, _⟩ | hfalse
      · simp [hstack] at hin
      · exact hfalse
    exact component_subset_of_closed ⟨hseed, h.seed_off⟩ hclosed
  ext q
  constructor
  · exact fun hq => ⟨h.filling.subset hq, fun hin => (hcomponent hin).2 hq⟩
  · intro hq
    by_contra hoff
    exact hq.2 (h.filling.cleared q hq.1 hoff)

/-- The loop behind `skip:` does not go beyond its limit. -/
theorem fromSkip_of_limit_le {seg : FillSeg} {x : ℕ} (hx : s.limit reach seg ≤ x) (k : ℕ) :
    s.fromSkip reach seg k x = s := by
  cases k with
  | zero => rfl
  | succ k =>
      have hle : x ≤ s.skipOff reach seg x := le_skip _ _
      unfold SeedFill.fromSkip
      dsimp only
      rw [if_neg (by omega)]

/-- How far a stretch is followed along its line does not change on the way. -/
theorem limit_fillRun {seg : FillSeg} {first stop : ℕ} :
    (s.fillRun reach seg first stop).limit reach seg = s.limit reach seg := by
  unfold SeedFill.limit
  rw [pixs_fillRun]
  rfl

/-- With four neighbours, the run above a stretch of one ON pixel is what the
loop to the left begins. -/
theorem fillLine_four {seg : FillSeg} (hone : seg.xright = seg.xleft)
    (hon : lineOf s.pixs seg.line seg.xleft = true)
    (hend : leftEnd (lineOf s.pixs seg.line) seg.xleft = seg.xleft) :
    s.fillLine 0 seg = s.fillRun 0 seg seg.xleft (s.runEnd seg (seg.xleft + 1)) := by
  have hstart : leftEnd (lineOf s.pixs seg.line) (seg.xleft + 1 - 0) = seg.xleft := by
    rw [Nat.sub_zero, leftEnd_succ, if_pos hon, hend]
  have hstop : seg.xleft + 1 ≤ s.runEnd seg (seg.xleft + 1) := le_runEnd
  unfold SeedFill.fillLine
  dsimp only
  rw [hstart, if_pos (by omega), extend_clearLeft (by omega), runEnd_clear pixs_clearLeft]
  apply fromSkip_of_limit_le
  rw [limit_fillRun, SeedFill.limit, Nat.sub_zero]
  omega

/-- With eight neighbours, it is what the loop behind `skip:` begins. -/
theorem fillLine_eight {seg : FillSeg} (hone : seg.xright = seg.xleft)
    (hx : seg.xleft < s.pixs.width) (hon : lineOf s.pixs seg.line seg.xleft = true)
    (hend : leftEnd (lineOf s.pixs seg.line) seg.xleft = seg.xleft) :
    s.fillLine 1 seg = s.fillRun 1 seg seg.xleft (s.runEnd seg seg.xleft) := by
  have hlimit : s.limit 1 seg = min (seg.xleft + 1 + 1) s.pixs.width := by
    rw [SeedFill.limit, hone]
  have hstop : seg.xleft < s.runEnd seg seg.xleft := lt_skip (by omega) hon
  have hskip : s.skipOff 1 seg seg.xleft = seg.xleft := by
    unfold SeedFill.skipOff
    cases s.limit 1 seg - seg.xleft with
    | zero => rfl
    | succ k =>
        unfold skip
        rw [if_neg (by simp [hon])]
  unfold SeedFill.fillLine
  dsimp only
  rw [Nat.add_sub_cancel, hend, if_neg (lt_irrefl _)]
  unfold SeedFill.fromSkip
  dsimp only
  rw [hskip, if_pos (by omega), extend_eq_fillRun le_rfl]
  apply fromSkip_of_limit_le
  rw [limit_fillRun]
  omega

/-- The first stretch of a fill, taken off the stack. -/
def firstFill (pixs : Raster Bool) (x y : ℕ) : SeedFill :=
  { startFill pixs x y with stack := (startFill pixs x y).stack.tail }

/-- From the first stretch, the run of the seed is filled, which begins at the
seed itself. -/
theorem fillLine_firstFill (hreach : reach ≤ 1) {x y : ℕ} (hseed : (x, y) ∈ onPixels pixs)
    (hleft : ∀ x', x' + 1 = x → (x', y) ∉ onPixels pixs) :
    ∃ stop, (⟨x, x, y + 1, -1⟩ : FillSeg).Touches reach pixs x stop ∧
      (firstFill pixs x y).fillLine reach ⟨x, x, y + 1, -1⟩ =
        (firstFill pixs x y).fillRun reach ⟨x, x, y + 1, -1⟩ x stop := by
  obtain ⟨hx, hy, hpixel⟩ := hseed
  simp only at hx hy hpixel
  have hline : (⟨x, x, y + 1, -1⟩ : FillSeg).line = y := by simp [FillSeg.line]
  have hend : leftEnd (lineOf pixs y) x = x := by
    cases x with
    | zero => rfl
    | succ n =>
        have hoff : ¬ lineOf pixs y n = true := fun hon =>
          hleft n rfl ⟨by simp only; omega, hy, hon⟩
        rw [leftEnd_succ, if_neg hoff]
  rw [← hline] at hleft hpixel hend
  rcases Nat.le_one_iff_eq_zero_or_eq_one.mp hreach with rfl | rfl
  · have hstop : x + 1 ≤ (firstFill pixs x y).runEnd ⟨x, x, y + 1, -1⟩ (x + 1) := le_runEnd
    refine ⟨_, ?_, fillLine_four rfl hpixel hend⟩
    refine touches_of_runEnd (s := firstFill pixs x y) hx ?_ hleft hstop (by simp only; omega)
      (by simp only; omega)
    intro x' hx' hx''
    obtain rfl : x' = x := by simp only at hx' hx''; omega
    exact hpixel
  · have hstop : x < (firstFill pixs x y).runEnd ⟨x, x, y + 1, -1⟩ x :=
      lt_skip (Nat.sub_pos_of_lt hx) hpixel
    refine ⟨_, ?_, fillLine_eight rfl hx hpixel hend⟩
    exact touches_of_runEnd (s := firstFill pixs x y) hx.le
      (fun x' hx' hx'' => absurd hx'' (Nat.not_lt.mpr hx')) hleft hstop (by simp only; omega)
      (by simp only; omega)

/-- The stretch that is taken off first is the one from the line below the seed
upwards. -/
theorem stack_startFill {x y : ℕ} (hy : y < pixs.height) :
    (startFill pixs x y).stack = ⟨x, x, y + 1, -1⟩ :: (firstFill pixs x y).stack := by
  have hstack : (startFill pixs x y).stack =
      ⟨x, x, y + 1, -1⟩ :: (startFill pixs x y).stack.tail := by
    simp only [startFill, SeedFill.pushFillsegBB]
    rw [if_pos (by constructor <;> omega)]
    rfl
  exact hstack

/-- Behind it there is the one downwards, if there is a line below the seed. -/
theorem mem_stack_firstFill {x y : ℕ} (hy : y < pixs.height) {seg : FillSeg} :
    seg ∈ (firstFill pixs x y).stack ↔ y + 1 < pixs.height ∧ seg = ⟨x, x, y, 1⟩ := by
  have hstack : (firstFill pixs x y).stack =
      if 0 ≤ (y : ℤ) + 1 ∧ (y : ℤ) + 1 < pixs.height then [⟨x, x, y, 1⟩] else [] := by
    simp only [firstFill, startFill, SeedFill.pushFillsegBB]
    rw [if_pos (by constructor <;> omega)]
    rfl
  rw [hstack]
  split_ifs with h
  · simp only [List.mem_singleton]
    constructor
    · exact fun hseg => ⟨by omega, hseg⟩
    · exact fun hseg => hseg.2
  · simp only [List.not_mem_nil, false_iff]
    omega

/-- The two stretches on the seed lead to its component: one for the seed's
own line, and one for the line below. -/
theorem leads_seed (hreach : reach ≤ 1) {x y : ℕ} (hseed : (x, y) ∈ onPixels pixs)
    {seg : FillSeg} (hleft : seg.xleft = x) (hright : seg.xright = x)
    (hline : seg.y = y ∧ seg.dy = 1 ∧ y + 1 < pixs.height ∨ seg.y = y + 1 ∧ seg.dy = -1) :
    seg.Leads reach pixs (x, y) := by
  have hx : x < pixs.width := hseed.1
  have hy : y < pixs.height := hseed.2.1
  refine ⟨by omega, by omega, by omega, by omega, by omega, ?_⟩
  intro q hq hreaches
  obtain ⟨hqy, hqleft, hqright⟩ := hreaches
  refine component_step (mem_component_self hseed) ?_ hq
  simp only [FillSeg.line] at hqy
  unfold Touching
  simp only
  omega

/-- The fill's invariant holds from there on: nothing is cleared yet, and
nothing is owed but what the seed leads to. -/
theorem filling_firstFill (hreach : reach ≤ 1) {x y : ℕ} (hseed : (x, y) ∈ onPixels pixs) :
    Filling reach pixs (x, y) (fun _ => False) (firstFill pixs x y) := by
  refine ⟨rfl, rfl, subset_rfl, fun q hq hoff => absurd hq hoff, fun p hp hoff => absurd hp hoff,
    ?_, ?_⟩
  · intro seg hin
    obtain ⟨hy, rfl⟩ := (mem_stack_firstFill hseed.2.1).mp hin
    exact leads_seed hreach hseed rfl rfl (Or.inl ⟨rfl, rfl, hy⟩)
  · have hset : insert (x, y) (onPixels pixs \ onPixels (firstFill pixs x y).pixs) =
        lineSpan y x (x + 1) := by
      ext q
      have hpixs : (firstFill pixs x y).pixs = pixs := rfl
      simp only [hpixs, sdiff_self, Set.bot_eq_empty, insert_empty_eq, Set.mem_singleton_iff,
        lineSpan, Set.mem_ofPred_eq, Prod.ext_iff]
      omega
    rw [hset]
    exact spans_lineSpan (Nat.lt_succ_self x)

/-- **The first step.**  It clears the run of the seed; what that leaves ON on
the line below is reached from the other stretch on the seed. -/
theorem filled_firstFill (hreach : reach ≤ 1) {x y : ℕ} (hseed : (x, y) ∈ onPixels pixs)
    (hleft : ∀ x', x' + 1 = x → (x', y) ∉ onPixels pixs) :
    Filled reach pixs (x, y) ((firstFill pixs x y).fillLine reach ⟨x, x, y + 1, -1⟩) ∧
      ((firstFill pixs x y).fillLine reach ⟨x, x, y + 1, -1⟩).weight <
        (startFill pixs x y).weight := by
  have hy : y < pixs.height := hseed.2.1
  obtain ⟨stop, htouch, hline⟩ := fillLine_firstFill hreach hseed hleft
  have hsegline : (⟨x, x, y + 1, -1⟩ : FillSeg).line = y := by simp [FillSeg.line]
  have hseg : (⟨x, x, y + 1, -1⟩ : FillSeg).Leads reach pixs (x, y) :=
    leads_seed hreach hseed rfl rfl (Or.inr ⟨rfl, rfl⟩)
  have hon : ∀ q, q ∈ onPixels (clearBits pixs y x stop) ↔
      q ∈ onPixels pixs ∧ ¬ (q.2 = y ∧ x ≤ q.1 ∧ q.1 < stop) := fun q => mem_onPixels_clearBits
  have hpixs : ((firstFill pixs x y).fillRun reach ⟨x, x, y + 1, -1⟩ x stop).pixs =
      clearBits pixs y x stop := by
    rw [pixs_fillRun, hsegline]
    rfl
  rw [hline]
  refine ⟨⟨?_, ?_, ?_⟩, ?_⟩
  · refine (filling_firstFill hreach hseed).fillRun hreach hseg htouch ?_
    intro x' hx' _ _ hright hq
    refine ⟨⟨x, x, y, 1⟩, (mem_stack_firstFill hy).mpr ⟨hq.2.1, rfl⟩, ?_, hx', hright⟩
    simp only [FillSeg.line]
    omega
  · rw [hpixs, hon]
    exact fun hin => hin.2 ⟨rfl, le_rfl, htouch.lt⟩
  · intro seg hin
    rcases mem_stack_fillRun.mp hin with hnew | hold
    · rw [pixs_fillRun]
      exact hnew.spent hreach htouch
    · obtain ⟨_, rfl⟩ := (mem_stack_firstFill hy).mp hold
      intro x' hx' hx'' hq
      rw [hpixs, hon] at hq
      obtain ⟨hq, hout⟩ := hq
      simp only at hx' hx'' hout
      have hlt := htouch.lt
      rcases Nat.lt_or_ge x' x with hbefore | hafter
      · exact hleft x' (by omega) hq
      · by_cases hstop : x' = stop
        · have hright := htouch.right
          rw [hsegline] at hright
          exact hright (hstop ▸ hq)
        · exact hout ⟨trivial, hafter, by omega⟩
  · have hle : ((firstFill pixs x y).fillRun reach ⟨x, x, y + 1, -1⟩ x stop).weight ≤
        (firstFill pixs x y).weight := weight_fillRun htouch (hsegline.symm ▸ hy)
    have hpop : (firstFill pixs x y).weight + 1 = (startFill pixs x y).weight := by
      simp only [SeedFill.weight, stack_startFill hy, List.length_cons]
      rfl
    omega

/-- **A turn of the main loop** keeps the invariant, which holds after the
first turn, and takes away from the weight.  So it serves for both what is
cleared and that the loop ends. -/
theorem filled_of_moves (hreach : reach ≤ 1) {x y : ℕ} (hseed : (x, y) ∈ onPixels pixs)
    (hleft : ∀ x', x' + 1 = x → (x', y) ∉ onPixels pixs) {t : SeedFill}
    (hs : s = startFill pixs x y ∨ Filled reach pixs (x, y) s)
    (hmove : Moves (SeedFill.fillStep reach) s t) :
    Filled reach pixs (x, y) t ∧ t.weight < s.weight := by
  unfold Moves SeedFill.fillStep at hmove
  rcases hs with rfl | hs
  · rw [stack_startFill hseed.2.1] at hmove
    obtain rfl := Outcome.next.inj hmove
    exact filled_firstFill hreach hseed hleft
  · cases hempty : s.stack with
    | nil => simp [hempty] at hmove
    | cons seg stack =>
        rw [hempty] at hmove
        obtain rfl := Outcome.next.inj hmove
        exact hs.fillLine hreach hempty

/-- **The main loop** ends with an empty stack, after no more turns than the
weight at its beginning. -/
theorem runFor_fillStep (hreach : reach ≤ 1) {x y : ℕ} (hseed : (x, y) ∈ onPixels pixs)
    (hleft : ∀ x', x' + 1 = x → (x', y) ∉ onPixels pixs) :
    ∃ t, Filled reach pixs (x, y) t ∧ t.stack = [] ∧
      runFor (SeedFill.fillStep reach) (3 * (pixs.width * pixs.height) + 3)
        (startFill pixs x y) =
        .done (t.pixs, ⟨t.minx, t.miny, t.maxx - t.minx + 1, t.maxy - t.miny + 1⟩) := by
  have hstack := stack_startFill (x := x) hseed.2.1
  have hstep : ∀ s t, (s = startFill pixs x y ∨ Filled reach pixs (x, y) s) →
      Moves (SeedFill.fillStep reach) s t →
      (t = startFill pixs x y ∨ Filled reach pixs (x, y) t) ∧ t.weight < s.weight := by
    intro s t hs hmove
    obtain ⟨hfilled, hlt⟩ := filled_of_moves hreach hseed hleft hs hmove
    exact ⟨Or.inr hfilled, hlt⟩
  have hfault : ∀ s, (s = startFill pixs x y ∨ Filled reach pixs (x, y) s) →
      SeedFill.fillStep reach s ≠ .fault := by
    intro s _
    unfold SeedFill.fillStep
    split <;> simp
  have hbound : (startFill pixs x y).weight < 3 * (pixs.width * pixs.height) + 3 := by
    have hpixs : onCount (startFill pixs x y).pixs = onCount pixs := rfl
    have hcount := onCount_le pixs
    have hlength : (firstFill pixs x y).stack.length ≤ 1 := by
      simp only [firstFill, startFill, SeedFill.pushFillsegBB]
      split_ifs <;> simp
    simp only [SeedFill.weight, hstack, List.length_cons, hpixs]
    omega
  obtain ⟨t, r, ht, hdone, hrun⟩ :=
    runFor_of_measure SeedFill.weight hstep hfault (Or.inl rfl) hbound
  unfold SeedFill.fillStep at hdone
  rcases ht with rfl | ht
  · rw [hstack] at hdone
    simp at hdone
  · cases hempty : t.stack with
    | cons seg stack => simp [hempty] at hdone
    | nil =>
        rw [hempty] at hdone
        obtain rfl := Outcome.done.inj hdone
        exact ⟨t, ht, hempty, hrun⟩

end Fill

/-- A box is the least one around a set of pixels. -/
def BoundingBox (box : Box) (pixels : Set (ℕ × ℕ)) : Prop :=
  ∃ minx maxx miny maxy : ℕ, Spans pixels minx maxx miny maxy ∧
    box = ⟨minx, miny, maxx - minx + 1, maxy - miny + 1⟩

/-- **The fill.**  From the first pixel of its run, a fill clears exactly the
component of the seed, and its box is the component's. -/
theorem seedfillBB_component {reach : ℕ} (hreach : reach ≤ 1) {pixs : Raster Bool} {x y : ℕ}
    (hseed : (x, y) ∈ onPixels pixs) (hleft : ∀ x', x' + 1 = x → (x', y) ∉ onPixels pixs) :
    ∃ pixs' box, seedfillBB reach pixs x y = some (pixs', box) ∧ pixs'.width = pixs.width ∧
      pixs'.height = pixs.height ∧
      onPixels pixs' = onPixels pixs \ pixelComponent reach pixs (x, y) ∧
      BoundingBox box (pixelComponent reach pixs (x, y)) := by
  obtain ⟨t, hfilled, hempty, hrun⟩ := runFor_fillStep hreach hseed hleft
  have hrest := hfilled.onPixels_eq hseed hempty
  have hcleared : insert (x, y) (onPixels pixs \ onPixels t.pixs) =
      pixelComponent reach pixs (x, y) := by
    rw [hrest, Set.sdiff_sdiff_cancel_left component_subset]
    exact Set.insert_eq_of_mem (mem_component_self hseed)
  refine ⟨_, _, ?_, hfilled.filling.width, hfilled.filling.height, hrest, t.minx, t.maxx, t.miny,
    t.maxy, hcleared ▸ hfilled.filling.spans, rfl⟩
  unfold seedfillBB
  rw [if_pos ⟨hseed.1, hseed.2.1, hseed.2.2⟩, hrun]

end CardScanner
