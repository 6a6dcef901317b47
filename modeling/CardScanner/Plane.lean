import Mathlib.Algebra.Order.Field.Basic
import Mathlib.Tactic.FieldSimp
import Mathlib.Tactic.Linarith
import Mathlib.Tactic.LinearCombination
import Mathlib.Tactic.Ring

/-!
# Quadrilaterals in the plane

Points, the cross and dot product at a corner, and four-cornered outlines.  An
outline that turns the same way at each corner (`Turns`) has each side on the
outer side of the two corners it does not join, so opposite sides are apart and
neighbouring ones share their corner only (`Convex.simple`); its diagonals
cross, which is the weighted equation `diagonals`.
-/

namespace Plane

theorem pair_of_perm {α : Type*} {r s x y : α} (h : [r, s].Perm [x, y]) :
    (r = x ∧ s = y) ∨ (r = y ∧ s = x) := by
  have hr : r ∈ [x, y] := h.subset List.mem_cons_self
  simp only [List.mem_cons, List.not_mem_nil, or_false] at hr
  rcases hr with rfl | rfl
  · exact Or.inl ⟨rfl, List.singleton_inj.mp (List.singleton_perm.mp h.cons_inv)⟩
  · have hswap := (h.trans (List.Perm.swap _ _ _)).cons_inv
    exact Or.inr ⟨rfl, List.singleton_inj.mp (List.singleton_perm.mp hswap)⟩

/-- The corners of an outline named in another order: for a relation that does
not mind where the outline starts and which way it is read, this is the outline
itself, or it with the last two or with the middle two exchanged. -/
theorem outline_of_perm {α : Type*} {R : α → α → α → α → Prop}
    (hrotate : ∀ {a b c d}, R a b c d → R b c d a) (hreverse : ∀ {a b c d}, R a b c d → R d c b a)
    {a b c d p q r s : α} (h : R a b c d) (hperm : [p, q, r, s].Perm [a, b, c, d]) :
    R p q r s ∨ R p q s r ∨ R p r q s := by
  obtain ⟨x, y, z, hxyz, hrest⟩ : ∃ x y z, R p x y z ∧ [q, r, s].Perm [x, y, z] := by
    have hb := hperm.trans (List.perm_append_singleton a [b, c, d]).symm
    have hc := hb.trans (List.perm_append_singleton b [c, d, a]).symm
    have hd := hc.trans (List.perm_append_singleton c [d, a, b]).symm
    have hp : p ∈ [a, b, c, d] := hperm.subset List.mem_cons_self
    simp only [List.mem_cons, List.not_mem_nil, or_false] at hp
    rcases hp with rfl | rfl | rfl | rfl
    · exact ⟨b, c, d, h, hperm.cons_inv⟩
    · exact ⟨c, d, a, hrotate h, hb.cons_inv⟩
    · exact ⟨d, a, b, hrotate (hrotate h), hc.cons_inv⟩
    · exact ⟨a, b, c, hrotate (hrotate (hrotate h)), hd.cons_inv⟩
  have hzyx : R p z y x := hrotate (hrotate (hrotate (hreverse hxyz)))
  have hy := hrest.trans (List.perm_append_singleton x [y, z]).symm
  have hz := hy.trans (List.perm_append_singleton y [z, x]).symm
  have hq : q ∈ [x, y, z] := hrest.subset List.mem_cons_self
  simp only [List.mem_cons, List.not_mem_nil, or_false] at hq
  rcases hq with rfl | rfl | rfl
  · rcases pair_of_perm hrest.cons_inv with ⟨rfl, rfl⟩ | ⟨rfl, rfl⟩
    · exact Or.inl hxyz
    · exact Or.inr (Or.inl hxyz)
  · rcases pair_of_perm hy.cons_inv with ⟨rfl, rfl⟩ | ⟨rfl, rfl⟩
    · exact Or.inr (Or.inr hzyx)
    · exact Or.inr (Or.inr hxyz)
  · rcases pair_of_perm hz.cons_inv with ⟨rfl, rfl⟩ | ⟨rfl, rfl⟩
    · exact Or.inr (Or.inl hzyx)
    · exact Or.inl hzyx

/-- A point of the plane, over any ring. -/
@[ext] structure Point (K : Type*) where
  x : K
  y : K
  deriving DecidableEq, Repr

section Products

variable {K : Type*} [CommRing K]

/-- The cross product of the two directions from `o` to `p` and to `q`. -/
def cross (o p q : Point K) : K := (p.x - o.x) * (q.y - o.y) - (p.y - o.y) * (q.x - o.x)

/-- Their dot product. -/
def dot (o p q : Point K) : K := (p.x - o.x) * (q.x - o.x) + (p.y - o.y) * (q.y - o.y)

/-- Twice the area of a triangle does not depend on the corner one begins
with. -/
theorem cross_rotate (o p q : Point K) : cross p q o = cross o p q := by
  unfold cross
  ring

theorem cross_swap (o p q : Point K) : cross o q p = -cross o p q := by
  unfold cross
  ring

/-- The product of the squared lengths splits into both products' squares. -/
theorem dot_sq_add_cross_sq (o p q : Point K) :
    dot o p q ^ 2 + cross o p q ^ 2 = dot o p p * dot o q q := by
  unfold dot cross
  ring

/-- A quadrilateral's diagonals cross: with the triangles' areas as weights,
two opposite corners balance at the same point as the other two. -/
theorem diagonals (a b c d : Point K) (f : Point K → K) (hf : f = Point.x ∨ f = Point.y) :
    cross b c d * f a + cross d a b * f c = cross c d a * f b + cross a b c * f d := by
  rcases hf with rfl | rfl <;>
  · unfold cross
    ring

theorem diagonal_weights (a b c d : Point K) :
    cross b c d + cross d a b = cross c d a + cross a b c := by
  unfold cross
  ring

variable [LinearOrder K]

/-- The outline turns to the same, positive, side at each of its corners. -/
structure Turns (a b c d : Point K) : Prop where
  abc : 0 < cross a b c
  bcd : 0 < cross b c d
  cda : 0 < cross c d a
  dab : 0 < cross d a b

/-- Which way an outline turns does not depend on the corner one begins with. -/
theorem Turns.rotate {a b c d : Point K} (h : Turns a b c d) : Turns b c d a :=
  ⟨h.bcd, h.cda, h.dab, h.abc⟩

/-- The outline turns the same way at each corner, to the one side or, read
backwards, to the other. -/
def Convex (a b c d : Point K) : Prop := Turns a b c d ∨ Turns d c b a

/-- Convexity does not depend on the direction. -/
theorem Convex.reverse {a b c d : Point K} (h : Convex a b c d) : Convex d c b a := h.symm

theorem Convex.rotate {a b c d : Point K} (h : Convex a b c d) : Convex b c d a := by
  rcases h with h | h
  · exact Or.inl h.rotate
  · exact Or.inr h.rotate.rotate.rotate

/-- A mirrored outline turns the same way when it is read backwards. -/
theorem Turns.mirror {f : Point K → Point K}
    (hf : ∀ o p q, cross (f o) (f p) (f q) = -cross o p q) {a b c d : Point K}
    (h : Turns a b c d) : Turns (f d) (f c) (f b) (f a) := by
  have hback : ∀ o p q : Point K, cross (f q) (f p) (f o) = cross o p q := by
    intro o p q
    rw [hf, ← cross_rotate, cross_swap, neg_neg, cross_rotate]
  refine ⟨?_, ?_, ?_, ?_⟩ <;> rw [hback]
  · exact h.bcd
  · exact h.abc
  · exact h.dab
  · exact h.cda

variable [IsStrictOrderedRing K]

theorem dot_self_nonneg (p q : Point K) : 0 ≤ dot p q q := by
  unfold dot
  exact add_nonneg (mul_self_nonneg _) (mul_self_nonneg _)

/-- Two opposite corners that are nowhere below the other two are level with
them. -/
theorem Turns.level {a b c d : Point K} (h : Turns a b c d) (hab : a.y ≤ b.y) (had : a.y ≤ d.y)
    (hca : c.y ≤ a.y) : c.y = a.y ∧ b.y = a.y ∧ d.y = a.y := by
  have hbalance := diagonals a b c d Point.y (Or.inr rfl)
  have hweights := diagonal_weights a b c d
  have hc : 0 ≤ cross d a b * (a.y - c.y) := mul_nonneg h.dab.le (sub_nonneg.mpr hca)
  have hb : 0 ≤ cross c d a * (b.y - a.y) := mul_nonneg h.cda.le (sub_nonneg.mpr hab)
  have hd : 0 ≤ cross a b c * (d.y - a.y) := mul_nonneg h.abc.le (sub_nonneg.mpr had)
  have hzero : cross d a b * (a.y - c.y) + cross c d a * (b.y - a.y) +
      cross a b c * (d.y - a.y) = 0 := by
    linear_combination a.y * hweights - hbalance
  have hc0 : cross d a b * (a.y - c.y) = 0 := by linarith
  have hb0 : cross c d a * (b.y - a.y) = 0 := by linarith
  have hd0 : cross a b c * (d.y - a.y) = 0 := by linarith
  refine ⟨?_, ?_, ?_⟩
  · exact (sub_eq_zero.mp ((mul_eq_zero.mp hc0).resolve_left h.dab.ne')).symm
  · exact sub_eq_zero.mp ((mul_eq_zero.mp hb0).resolve_left h.cda.ne')
  · exact sub_eq_zero.mp ((mul_eq_zero.mp hd0).resolve_left h.abc.ne')

/-- Opposite corners of a convex outline do not both lie above the other two. -/
theorem Convex.level {a b c d : Point K} (h : Convex a b c d) (hab : a.y ≤ b.y)
    (had : a.y ≤ d.y) (hcb : c.y ≤ b.y) (hcd : c.y ≤ d.y) :
    c.y = a.y ∧ b.y = a.y ∧ d.y = a.y := by
  have hturns : ∀ {a b c d : Point K}, Turns a b c d → a.y ≤ b.y → a.y ≤ d.y → c.y ≤ b.y →
      c.y ≤ d.y → c.y = a.y ∧ b.y = a.y ∧ d.y = a.y := by
    intro a b c d h hab had hcb hcd
    rcases le_total c.y a.y with hca | hac
    · exact h.level hab had hca
    · obtain ⟨h1, h2, h3⟩ := h.rotate.rotate.level hcd hcb hac
      exact ⟨h1.symm, h3.trans h1.symm, h2.trans h1.symm⟩
  rcases h with h | h
  · exact hturns h hab had hcb hcd
  · obtain ⟨h1, h2, h3⟩ := hturns h.rotate hcb hcd hab had
    exact ⟨h1.symm, h2.trans h1.symm, h3.trans h1.symm⟩

end Products

section Outlines

variable {K : Type*} [Field K] [LinearOrder K] [IsStrictOrderedRing K]

/-- A point of the closed segment from `a` to `b`. -/
def OnSegment (a b p : Point K) : Prop :=
  ∃ t : K, 0 ≤ t ∧ t ≤ 1 ∧ p.x = a.x + t * (b.x - a.x) ∧ p.y = a.y + t * (b.y - a.y)

theorem onSegment_left (a b : Point K) : OnSegment a b a :=
  ⟨0, le_rfl, zero_le_one, by ring, by ring⟩

theorem OnSegment.symm {a b p : Point K} (h : OnSegment a b p) : OnSegment b a p := by
  obtain ⟨t, h0, h1, hx, hy⟩ := h
  refine ⟨1 - t, by linarith, by linarith, ?_, ?_⟩
  · rw [hx]
    ring
  · rw [hy]
    ring

omit [IsStrictOrderedRing K] in
/-- Along a segment the cross product runs from one end's to the other's. -/
theorem cross_of_onSegment {a b p : Point K} (h : OnSegment a b p) (u v : Point K) :
    ∃ t : K, 0 ≤ t ∧ t ≤ 1 ∧ cross u v p = (1 - t) * cross u v a + t * cross u v b ∧
      p.x = a.x + t * (b.x - a.x) ∧ p.y = a.y + t * (b.y - a.y) := by
  obtain ⟨t, h0, h1, hx, hy⟩ := h
  refine ⟨t, h0, h1, ?_, hx, hy⟩
  unfold cross
  rw [hx, hy]
  ring

omit [IsStrictOrderedRing K] in
/-- A point of a segment makes no angle with its ends. -/
theorem cross_self_segment {a b p : Point K} (h : OnSegment a b p) : cross a b p = 0 := by
  obtain ⟨t, _, _, hcross, _⟩ := cross_of_onSegment h a b
  rw [hcross]
  unfold cross
  ring

/-- A segment with both ends strictly on one side of a line stays there. -/
theorem cross_pos_of_onSegment {u v a b p : Point K} (ha : 0 < cross u v a)
    (hb : 0 < cross u v b) (h : OnSegment a b p) : 0 < cross u v p := by
  obtain ⟨t, h0, h1, hcross, _⟩ := cross_of_onSegment h u v
  rw [hcross]
  rcases h0.eq_or_lt with heq | hlt
  · rw [← heq]
    linarith
  · have hfirst : 0 ≤ (1 - t) * cross u v a := mul_nonneg (by linarith) ha.le
    have hsecond : 0 < t * cross u v b := mul_pos hlt hb
    linarith

/-- Joining the four corners in order does not make sides cross: opposite sides
have no common point and neighbouring sides only the corner between them. -/
structure SimpleOutline (a b c d : Point K) : Prop where
  opposite : ∀ p, OnSegment a b p → ¬ OnSegment c d p
  opposite' : ∀ p, OnSegment b c p → ¬ OnSegment d a p
  at_a : ∀ p, OnSegment d a p → OnSegment a b p → p = a
  at_b : ∀ p, OnSegment a b p → OnSegment b c p → p = b
  at_c : ∀ p, OnSegment b c p → OnSegment c d p → p = c
  at_d : ∀ p, OnSegment c d p → OnSegment d a p → p = d

/-- An outline that does not cross itself may be read the other way. -/
theorem SimpleOutline.reverse {a b c d : Point K} (h : SimpleOutline a b c d) :
    SimpleOutline d c b a where
  opposite := fun p hdc hba => h.opposite p hba.symm hdc.symm
  opposite' := fun p hcb had => h.opposite' p hcb.symm had.symm
  at_a := fun p had hdc => h.at_d p hdc.symm had.symm
  at_b := fun p hdc hcb => h.at_c p hcb.symm hdc.symm
  at_c := fun p hcb hba => h.at_b p hba.symm hcb.symm
  at_d := fun p hba had => h.at_a p had.symm hba.symm

theorem Turns.opposite {a b c d : Point K} (h : Turns a b c d) (p : Point K)
    (hab : OnSegment a b p) : ¬ OnSegment c d p := by
  intro hcd
  have hd : 0 < cross a b d := by
    rw [cross_rotate]
    exact h.dab
  have hpos := cross_pos_of_onSegment h.abc hd hcd
  rw [cross_self_segment hab] at hpos
  exact hpos.false

/-- Neighbouring ones meet in their corner only. -/
theorem Turns.corner {a b c d : Point K} (h : Turns a b c d) (p : Point K)
    (hab : OnSegment a b p) (hbc : OnSegment b c p) : p = b := by
  obtain ⟨t, _, _, hcross, hx, hy⟩ := cross_of_onSegment hbc a b
  have hbb : cross a b b = 0 := by
    unfold cross
    ring
  rw [cross_self_segment hab, hbb, mul_zero, zero_add] at hcross
  have ht : t = 0 := (mul_eq_zero.mp hcross.symm).resolve_right h.abc.ne'
  rw [ht, zero_mul, add_zero] at hx hy
  exact Point.ext hx hy

theorem Turns.simple {a b c d : Point K} (h : Turns a b c d) : SimpleOutline a b c d where
  opposite := h.opposite
  opposite' := h.rotate.opposite
  at_a := h.rotate.rotate.rotate.corner
  at_b := h.corner
  at_c := h.rotate.corner
  at_d := h.rotate.rotate.corner

/-- A convex outline does not cross itself. -/
theorem Convex.simple {a b c d : Point K} (h : Convex a b c d) : SimpleOutline a b c d := by
  rcases h with h | h
  · exact h.simple
  · exact h.simple.reverse

/-! Points with whole coordinates. -/

/-- An integer point in the plane over an ordered field. -/
def Point.ofInt (p : Point ℤ) : Point K := ⟨p.x, p.y⟩

omit [LinearOrder K] [IsStrictOrderedRing K] in
theorem cross_ofInt (o p q : Point ℤ) :
    cross (Point.ofInt o : Point K) (Point.ofInt p) (Point.ofInt q) = (cross o p q : ℤ) := by
  unfold cross Point.ofInt
  push_cast
  rfl

theorem Convex.ofInt {a b c d : Point ℤ} (h : Convex a b c d) :
    Convex (Point.ofInt a : Point K) (Point.ofInt b) (Point.ofInt c) (Point.ofInt d) := by
  have hturns : ∀ {a b c d : Point ℤ}, Turns a b c d →
      Turns (Point.ofInt a : Point K) (Point.ofInt b) (Point.ofInt c) (Point.ofInt d) := by
    intro a b c d h
    refine ⟨?_, ?_, ?_, ?_⟩ <;> rw [cross_ofInt, Int.cast_pos]
    · exact h.abc
    · exact h.bcd
    · exact h.cda
    · exact h.dab
  exact h.imp hturns hturns

end Outlines

section Sides

variable {K : Type*} [Field K] [LinearOrder K]

/-! ## Inside and outside -/

/-- A point of the outline. -/
def OnOutline (a b c d p : Point K) : Prop :=
  OnSegment a b p ∨ OnSegment b c p ∨ OnSegment c d p ∨ OnSegment d a p

/-- The outline is the same from every corner. -/
theorem OnOutline.rotate {a b c d p : Point K} (h : OnOutline a b c d p) :
    OnOutline b c d a p := by
  rcases h with h | h | h | h
  · exact Or.inr (Or.inr (Or.inr h))
  · exact Or.inl h
  · exact Or.inr (Or.inl h)
  · exact Or.inr (Or.inr (Or.inl h))

/-- Strictly on the inner side of each side of an outline that `Turns`. -/
structure Inside (a b c d p : Point K) : Prop where
  ab : 0 < cross a b p
  bc : 0 < cross b c p
  cd : 0 < cross c d p
  da : 0 < cross d a p

/-- So is what lies inside. -/
theorem Inside.rotate {a b c d p : Point K} (h : Inside a b c d p) : Inside b c d a p :=
  ⟨h.bc, h.cd, h.da, h.ab⟩

/-- Strictly on the outer side of one of them. -/
def Outside (a b c d p : Point K) : Prop :=
  cross a b p < 0 ∨ cross b c p < 0 ∨ cross c d p < 0 ∨ cross d a p < 0

/-- The squared distance to every point of the outline is more than `r`. -/
def Far (a b c d : Point K) (r : K) (p : Point K) : Prop :=
  ∀ q, OnOutline a b c d q → r < dot p q q

theorem Far.rotate {a b c d p : Point K} {r : K} (h : Far a b c d r p) : Far b c d a r p :=
  fun q hq => h q hq.rotate.rotate.rotate

/-- The point at the fraction `t` of the way from `p` to `q`. -/
def between (p q : Point K) (t : K) : Point K :=
  ⟨p.x + t * (q.x - p.x), p.y + t * (q.y - p.y)⟩

omit [LinearOrder K] in
/-- Along a segment a cross product changes linearly, from the value at one
end to that at the other. -/
theorem cross_between (u v p q : Point K) (t : K) :
    cross u v (between p q t) = (1 - t) * cross u v p + t * cross u v q := by
  unfold cross between
  ring

omit [LinearOrder K] in
theorem dot_between (p q : Point K) (t : K) :
    dot p (between p q t) (between p q t) = t ^ 2 * dot p q q := by
  unfold dot between
  ring

variable [IsStrictOrderedRing K]

theorem dot_self_pos_of_cross {a b p : Point K} (h : 0 < cross a b p) : 0 < dot a b b := by
  have hsplit := dot_sq_add_cross_sq a b p
  have hcross : 0 < cross a b p ^ 2 := pow_pos h 2
  have hproduct : 0 < dot a b b * dot a p p := by
    rw [← hsplit]
    exact add_pos_of_nonneg_of_pos (sq_nonneg _) hcross
  exact pos_of_mul_pos_left hproduct (dot_self_nonneg a p)

/-- Some quantities change linearly and are positive at the start.  If not all
are positive at the end, there is a moment at which none is negative and one
is zero: the first among the moments at which one of those that fall is zero.
By induction on the list. -/
theorem exists_exit (l : List (K × K)) (hstart : ∀ e ∈ l, 0 < e.1) :
    (∀ e ∈ l, 0 < e.2) ∨ ∃ t, 0 ≤ t ∧ t ≤ 1 ∧
      (∀ e ∈ l, 0 ≤ (1 - t) * e.1 + t * e.2) ∧ ∃ e ∈ l, (1 - t) * e.1 + t * e.2 = 0 := by
  induction l with
  | nil => exact Or.inl fun e he => absurd he List.not_mem_nil
  | cons e l ih =>
      obtain ⟨u, v⟩ := e
      obtain ⟨hu, hl⟩ := List.forall_mem_cons.mp hstart
      simp only [List.forall_mem_cons, List.exists_mem_cons_iff]
      have hzero : ∀ w : K, 0 < u - w → (1 - u / (u - w)) * u + u / (u - w) * w = 0 := by
        intro w hw
        field_simp
        ring
      rcases ih hl with hall | ⟨t, h0, h1, hnonneg, e, he, hexit⟩
      · by_cases hv : 0 < v
        · exact Or.inl ⟨hv, hall⟩
        · have hfall : 0 < u - v := by linarith
          have hle : u / (u - v) ≤ 1 := (div_le_one hfall).mpr (by linarith)
          have hge : 0 ≤ u / (u - v) := div_nonneg hu.le hfall.le
          refine Or.inr ⟨u / (u - v), hge, hle, ⟨(hzero v hfall).ge, ?_⟩, Or.inl (hzero v hfall)⟩
          intro e he
          exact add_nonneg (mul_nonneg (by linarith) (hl e he).le) (mul_nonneg hge (hall e he).le)
      · by_cases hv : 0 ≤ (1 - t) * u + t * v
        · exact Or.inr ⟨t, h0, h1, ⟨hv, hnonneg⟩, Or.inr ⟨e, he, hexit⟩⟩
        · have hut : u < t * (u - v) := by linarith
          have hfall : 0 < u - v := pos_of_mul_pos_right (hu.trans hut) h0
          have ht : 0 < t := pos_of_mul_pos_left (hu.trans hut) hfall.le
          have hge : 0 ≤ u / (u - v) := div_nonneg hu.le hfall.le
          have hlt : u / (u - v) < t := (div_lt_iff₀ hfall).mpr hut
          refine Or.inr ⟨u / (u - v), hge, by linarith, ⟨(hzero v hfall).ge, ?_⟩,
            Or.inl (hzero v hfall)⟩
          intro e he
          have hscaled : t * ((1 - u / (u - v)) * e.1 + u / (u - v) * e.2) =
              (t - u / (u - v)) * e.1 + u / (u - v) * ((1 - t) * e.1 + t * e.2) := by ring
          refine (mul_nonneg_iff_of_pos_left ht).mp ?_
          rw [hscaled]
          exact add_nonneg (mul_nonneg (by linarith) (hl e he).le) (mul_nonneg hge (hnonneg e he))

/-- The foot of the perpendicular from `p` on the line through `a` and `b`. -/
def foot (a b p : Point K) : Point K := between a b (dot a b p / dot a b b)

omit [LinearOrder K] [IsStrictOrderedRing K] in
theorem cross_foot (a b p : Point K) : cross a b (foot a b p) = 0 := by
  unfold foot
  rw [cross_between]
  unfold cross
  ring

omit [LinearOrder K] [IsStrictOrderedRing K] in
/-- The squared distance to a line, times the squared length of the segment on
it: the square of the cross product. -/
theorem dot_foot {a b : Point K} (hab : dot a b b ≠ 0) (p : Point K) :
    dot p (foot a b p) (foot a b p) * dot a b b = cross a b p ^ 2 := by
  have hx : ((foot a b p).x - p.x) * dot a b b = (b.y - a.y) * cross a b p := by
    unfold foot between
    field_simp
    unfold dot cross
    ring
  have hy : ((foot a b p).y - p.y) * dot a b b = -((b.x - a.x) * cross a b p) := by
    unfold foot between
    field_simp
    unfold dot cross
    ring
  have hscaled : dot p (foot a b p) (foot a b p) * dot a b b * dot a b b =
      cross a b p ^ 2 * dot a b b := by
    calc dot p (foot a b p) (foot a b p) * dot a b b * dot a b b
        = (((foot a b p).x - p.x) * dot a b b) ^ 2 + (((foot a b p).y - p.y) * dot a b b) ^ 2 := by
          unfold dot
          ring
      _ = cross a b p ^ 2 * dot a b b := by
          rw [hx, hy]
          unfold dot
          ring
  exact mul_right_cancel₀ hab hscaled

/-- A point of a line is its own foot. -/
theorem eq_foot {a b q : Point K} (hab : 0 < dot a b b) (hq : cross a b q = 0) :
    q = foot a b q := by
  have hdist := dot_foot hab.ne' q
  rw [hq, zero_pow two_ne_zero] at hdist
  have hzero := (mul_eq_zero.mp hdist).resolve_right hab.ne'
  unfold dot at hzero
  have hx := mul_self_eq_zero.mp
    ((add_eq_zero_iff_of_nonneg (mul_self_nonneg _) (mul_self_nonneg _)).mp hzero).1
  have hy := mul_self_eq_zero.mp
    ((add_eq_zero_iff_of_nonneg (mul_self_nonneg _) (mul_self_nonneg _)).mp hzero).2
  exact Point.ext (sub_eq_zero.mp hx).symm (sub_eq_zero.mp hy).symm

/-- A point of a side's line that is on the inner side of its neighbours is on
the side. -/
theorem Turns.onSegment {a b c d q : Point K} (h : Turns a b c d) (hab : cross a b q = 0)
    (hbc : 0 ≤ cross b c q) (hda : 0 ≤ cross d a q) : OnSegment a b q := by
  have hfoot := eq_foot (dot_self_pos_of_cross h.abc) hab
  unfold foot at hfoot
  generalize dot a b q / dot a b b = t at hfoot
  rw [hfoot, cross_between] at hbc hda
  have hbca : cross b c a = cross a b c := cross_rotate a b c
  have hself : cross d a a = 0 ∧ cross b c b = 0 := by
    unfold cross
    constructor <;> ring
  rw [hself.1, mul_zero, zero_add] at hda
  rw [hself.2, mul_zero, add_zero, hbca] at hbc
  refine ⟨t, nonneg_of_mul_nonneg_left hda h.dab, ?_, congrArg Point.x hfoot,
    congrArg Point.y hfoot⟩
  exact sub_nonneg.mp (nonneg_of_mul_nonneg_left hbc h.abc)

/-- The way from a point inside to one that is not meets the outline. -/
theorem Turns.meets {a b c d p f : Point K} (h : Turns a b c d) (hp : Inside a b c d p)
    (hf : ¬ Inside a b c d f) : ∃ t, 0 ≤ t ∧ t ≤ 1 ∧ OnOutline a b c d (between p f t) := by
  have hexit := exists_exit
    [(cross a b p, cross a b f), (cross b c p, cross b c f), (cross c d p, cross c d f),
      (cross d a p, cross d a f)]
    (by simpa using ⟨hp.ab, hp.bc, hp.cd, hp.da⟩)
  simp only [List.forall_mem_cons, List.exists_mem_cons_iff, ← cross_between] at hexit
  rcases hexit with ⟨hab, hbc, hcd, hda, _⟩ | ⟨t, h0, h1, ⟨hab, hbc, hcd, hda, _⟩, hzero⟩
  · exact absurd ⟨hab, hbc, hcd, hda⟩ hf
  · refine ⟨t, h0, h1, ?_⟩
    rcases hzero with hzero | hzero | hzero | hzero | hzero
    · exact Or.inl (h.onSegment hzero hbc hda)
    · exact Or.inr (Or.inl (h.rotate.onSegment hzero hcd hab))
    · exact Or.inr (Or.inr (Or.inl (h.rotate.rotate.onSegment hzero hda hbc)))
    · exact Or.inr (Or.inr (Or.inr (h.rotate.rotate.rotate.onSegment hzero hab hcd)))
    · simp at hzero

/-- Inside and far from the sides is far from their lines. -/
theorem Turns.line_far {a b c d p : Point K} {r : K} (h : Turns a b c d)
    (hp : Inside a b c d p) (hfar : Far a b c d r p) : r * dot a b b < cross a b p ^ 2 := by
  have hlength : 0 < dot a b b := dot_self_pos_of_cross h.abc
  have hout : ¬ Inside a b c d (foot a b p) := fun hinside =>
    hinside.ab.ne' (cross_foot a b p)
  obtain ⟨t, h0, h1, hon⟩ := h.meets hp hout
  have hmeets := hfar _ hon
  rw [dot_between] at hmeets
  have hshorter : t ^ 2 * dot p (foot a b p) (foot a b p) ≤ dot p (foot a b p) (foot a b p) :=
    mul_le_of_le_one_left (dot_self_nonneg _ _) (pow_le_one₀ h0 h1)
  rw [← dot_foot hlength.ne' p]
  exact mul_lt_mul_of_pos_right (hmeets.trans_le hshorter) hlength

end Sides

end Plane
