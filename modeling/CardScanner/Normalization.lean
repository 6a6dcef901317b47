import Mathlib.Data.List.DropRight
import Mathlib.Data.List.Perm.Basic

/-!
# Canonical decomposition

Normalization form D replaces every character by its decomposition and then
sorts each run of combining characters by combining class, keeping the order of
those of one class.  A character of class zero is never moved and nothing moves
past it, so the form of a text with such a character in it is put together from
the forms of the parts (`nfd_append`).

A combining character splits the form as well if those joined to it before are
of no higher class and those behind of no lower one.  Where only some characters
are looked at afterwards, only these need to be so
(`filter_canonicalOrder_append`): removing characters and sorting the rest is
the same in either order within a run (`filter_canonicalOrder`).

`canonicalOrder_rel` is the induction rule: a relation that holds whenever two
neighbouring combining characters change places relates the ordered list to the
list itself.
-/

namespace Normalization

variable {α : Type*} (ccc : α → Nat)

/-- Put a character in front of an ordered list, behind the combining
characters of a lower class at its start. -/
def insertMark (c : α) : List α → List α
  | [] => [c]
  | d :: l => if 0 < ccc d ∧ ccc d < ccc c then d :: insertMark c l else c :: d :: l

/-- The canonical ordering. -/
def canonicalOrder : List α → List α
  | [] => []
  | c :: l => insertMark ccc c (canonicalOrder l)

/-- Normalization form D, for the full decompositions of the characters. -/
def nfd (decomp : α → List α) (s : List α) : List α := canonicalOrder ccc (s.flatMap decomp)

variable {ccc}

/-- A character stays in front if no lower combining character follows. -/
theorem insertMark_front {c : α} {l : List α} (h : ∀ d ∈ l.head?, ¬ (0 < ccc d ∧ ccc d < ccc c)) :
    insertMark ccc c l = c :: l := by
  cases l with
  | nil => rfl
  | cons d l => exact if_neg (h d rfl)

/-- Nothing is inserted behind a character that is no lower combining
character. -/
theorem insertMark_append {c d : α} (hd : ¬ (0 < ccc d ∧ ccc d < ccc c)) (a b : List α) :
    insertMark ccc c (a ++ d :: b) = insertMark ccc c a ++ d :: b := by
  induction a with
  | nil => exact if_neg hd
  | cons x a ih =>
      rw [List.cons_append, insertMark, insertMark, ih]
      split_ifs
      · rfl
      · rfl

/-- Nothing moves past a character of class zero. -/
theorem canonicalOrder_append {d : α} (hd : ccc d = 0) (a b : List α) :
    canonicalOrder ccc (a ++ d :: b) = canonicalOrder ccc a ++ d :: canonicalOrder ccc b := by
  induction a with
  | nil =>
      apply insertMark_front
      omega
  | cons x a ih =>
      have hstay : ¬ (0 < ccc d ∧ ccc d < ccc x) := by omega
      rw [List.cons_append, canonicalOrder, ih, insertMark_append hstay, canonicalOrder]

section Relation

variable {R : List α → List α → Prop} (hrefl : ∀ l, R l l)
  (htrans : ∀ {l m n}, R l m → R m n → R l n) (hcons : ∀ c {l m}, R l m → R (c :: l) (c :: m))
  (hswap : ∀ {c d} l, 0 < ccc d → ccc d < ccc c → R (d :: c :: l) (c :: d :: l))
include hrefl htrans hcons hswap

/-- Inserting is a chain of exchanges of neighbours, so what such an exchange
respects, inserting respects. -/
theorem insertMark_rel (c : α) (l : List α) : R (insertMark ccc c l) (c :: l) := by
  induction l with
  | nil => exact hrefl [c]
  | cons d l ih =>
      unfold insertMark
      split_ifs with hlower
      · exact htrans (hcons d ih) (hswap l hlower.1 hlower.2)
      · exact hrefl _

/-- **Ordering swaps neighbouring combining characters.**  Whatever is
respected by exchanging two of them that are out of order is respected by the
whole. -/
theorem canonicalOrder_rel (l : List α) : R (canonicalOrder ccc l) l := by
  induction l with
  | nil => exact hrefl []
  | cons c l ih =>
      exact htrans (insertMark_rel hrefl htrans hcons hswap c _) (hcons c ih)

end Relation

theorem canonicalOrder_perm (l : List α) : (canonicalOrder ccc l).Perm l :=
  canonicalOrder_rel List.Perm.refl List.Perm.trans List.Perm.cons
    (fun l _ _ => List.Perm.swap _ _ l) l

/-! ## Runs of combining characters -/

/-- A combining character. -/
def mark (ccc : α → Nat) (c : α) : Bool := 0 < ccc c

/-- A starter at the head of the second part separates the two. -/
theorem canonicalOrder_head {a b : List α} (hb : ∀ d ∈ b.head?, ccc d = 0) :
    canonicalOrder ccc (a ++ b) = canonicalOrder ccc a ++ canonicalOrder ccc b := by
  cases b with
  | nil => simp [canonicalOrder]
  | cons d b =>
      have hd : ccc d = 0 := hb d rfl
      have hfirst := canonicalOrder_append hd [] b
      rw [List.nil_append] at hfirst
      rw [canonicalOrder_append hd, hfirst]
      rfl

theorem canonicalOrder_last {a b : List α} (ha : ∀ d ∈ a.getLast?, ccc d = 0) :
    canonicalOrder ccc (a ++ b) = canonicalOrder ccc a ++ canonicalOrder ccc b := by
  rcases List.eq_nil_or_concat a with rfl | ⟨a, d, rfl⟩
  · rfl
  · have hd : ccc d = 0 := ha d (by simp)
    have hlast := canonicalOrder_append hd a []
    rw [List.concat_eq_append, List.append_assoc, List.singleton_append, canonicalOrder_append hd,
      hlast]
    simp [canonicalOrder]

/-- A text is ordered before its last run, in it and behind its first one. -/
theorem canonicalOrder_runs (a l b : List α) :
    canonicalOrder ccc (a ++ (l ++ b)) =
      canonicalOrder ccc (a.rdropWhile (mark ccc)) ++
        (canonicalOrder ccc (a.rtakeWhile (mark ccc) ++ (l ++ b.takeWhile (mark ccc))) ++
          canonicalOrder ccc (b.dropWhile (mark ccc))) := by
  have hlast : ∀ d ∈ (a.rdropWhile (mark ccc)).getLast?, ccc d = 0 := by
    intro d hd
    obtain ⟨hne, rfl⟩ := List.mem_getLast?_eq_getLast hd
    have hnot := List.rdropWhile_last_not (mark ccc) a hne
    simpa [mark] using hnot
  have hhead : ∀ d ∈ (b.dropWhile (mark ccc)).head?, ccc d = 0 := by
    intro d hd
    have hnot := List.head?_dropWhile_not (mark ccc) b
    rw [Option.mem_def.mp hd] at hnot
    simpa [mark] using hnot
  have hwhole := List.rdropWhile_append_rtakeWhile (p := mark ccc) (l := a)
  rw [← canonicalOrder_head hhead, ← canonicalOrder_last hlast, List.append_assoc,
    List.append_assoc, List.takeWhile_append_dropWhile, ← List.append_assoc _ _ (l ++ b), hwhole]

theorem pairwise_insertMark {c : α} {l : List α} (hpos : ∀ d ∈ l, 0 < ccc d)
    (hl : l.Pairwise (ccc · ≤ ccc ·)) : (insertMark ccc c l).Pairwise (ccc · ≤ ccc ·) := by
  induction l with
  | nil => simp [insertMark]
  | cons d l ih =>
      obtain ⟨hd, hl'⟩ := List.pairwise_cons.mp hl
      have hdpos := hpos d (by simp)
      unfold insertMark
      split_ifs with hlower
      · have hperm : (insertMark ccc c l).Perm (c :: l) :=
          insertMark_rel List.Perm.refl List.Perm.trans List.Perm.cons
            (fun l _ _ => List.Perm.swap _ _ l) c l
        refine List.pairwise_cons.mpr ⟨?_, ih (fun e he => hpos e (by simp [he])) hl'⟩
        intro e he
        rcases List.mem_cons.mp (hperm.mem_iff.mp he) with rfl | he
        · omega
        · exact hd e he
      · refine List.pairwise_cons.mpr ⟨?_, hl⟩
        intro e he
        rcases List.mem_cons.mp he with rfl | he
        · omega
        · have hde := hd e he
          omega

/-- A run comes out in the order of its classes. -/
theorem pairwise_canonicalOrder {l : List α} (hpos : ∀ d ∈ l, 0 < ccc d) :
    (canonicalOrder ccc l).Pairwise (ccc · ≤ ccc ·) := by
  induction l with
  | nil => exact List.Pairwise.nil
  | cons c l ih =>
      have htail := ih fun d hd => hpos d (List.mem_cons_of_mem _ hd)
      apply pairwise_insertMark _ htail
      intro d hd
      exact hpos d (List.mem_cons_of_mem _ ((canonicalOrder_perm l).mem_iff.mp hd))

section Filter

variable {p : α → Bool}

theorem filter_insertMark_gone {c : α} (hc : p c = false) (l : List α) :
    (insertMark ccc c l).filter p = l.filter p := by
  induction l with
  | nil => simp [insertMark, hc]
  | cons d l ih =>
      unfold insertMark
      split_ifs
      · rw [List.filter_cons, ih, List.filter_cons]
      · simp [hc]

theorem filter_insertMark {c : α} (hc : p c = true) {l : List α} (hpos : ∀ d ∈ l, 0 < ccc d)
    (hl : l.Pairwise (ccc · ≤ ccc ·)) :
    (insertMark ccc c l).filter p = insertMark ccc c (l.filter p) := by
  induction l with
  | nil => simp [insertMark, hc]
  | cons d l ih =>
      obtain ⟨hd, hl'⟩ := List.pairwise_cons.mp hl
      have htail := ih (fun e he => hpos e (by simp [he])) hl'
      rw [insertMark]
      split_ifs with hlower
      · rw [List.filter_cons, htail, List.filter_cons]
        split_ifs
        · rw [insertMark, if_pos hlower]
        · rfl
      · have hdpos := hpos d (by simp)
        have hfront : ∀ e ∈ ((d :: l).filter p).head?, ¬ (0 < ccc e ∧ ccc e < ccc c) := by
          intro e he
          have hmem := (List.mem_filter.mp (List.mem_of_mem_head? he)).1
          rcases List.mem_cons.mp hmem with rfl | hmem
          · exact hlower
          · have hde := hd e hmem
            omega
        rw [insertMark_front hfront, List.filter_cons_of_pos hc]

/-- **A run may be thinned out before it is ordered or after it.**  By
induction on the run: inserting a character commutes with the filter, or does
nothing that the filter leaves. -/
theorem filter_canonicalOrder {l : List α} (hpos : ∀ d ∈ l, 0 < ccc d) :
    (canonicalOrder ccc l).filter p = canonicalOrder ccc (l.filter p) := by
  induction l with
  | nil => rfl
  | cons c l ih =>
      have hpos' : ∀ d ∈ l, 0 < ccc d := fun d hd => hpos d (List.mem_cons_of_mem _ hd)
      have hordered : ∀ d ∈ canonicalOrder ccc l, 0 < ccc d :=
        fun d hd => hpos' d ((canonicalOrder_perm l).mem_iff.mp hd)
      rw [canonicalOrder]
      cases hc : p c with
      | true =>
          rw [filter_insertMark hc hordered (pairwise_canonicalOrder hpos'), ih hpos',
            List.filter_cons_of_pos hc]
          rfl
      | false =>
          rw [filter_insertMark_gone hc, ih hpos', List.filter_cons_of_neg (by simp [hc])]

/-- A character between lower and higher ones splits the ordering: neither
side moves past it. -/
theorem canonicalOrder_between {a b : List α} {c : α} (ha : ∀ d ∈ a, ccc d ≤ ccc c)
    (hb : ∀ d ∈ b, ccc c ≤ ccc d) :
    canonicalOrder ccc (a ++ c :: b) = canonicalOrder ccc a ++ c :: canonicalOrder ccc b := by
  induction a with
  | nil =>
      apply insertMark_front
      intro d hd
      have hcd := hb d ((canonicalOrder_perm b).mem_iff.mp (List.mem_of_mem_head? hd))
      omega
  | cons x a ih =>
      have hx := ha x (by simp)
      have hstay : ¬ (0 < ccc c ∧ ccc c < ccc x) := by omega
      rw [List.cons_append, canonicalOrder, ih fun d hd => ha d (List.mem_cons_of_mem _ hd),
        insertMark_append hstay, canonicalOrder]

/-- **A character that nothing looked at moves past splits the ordering**, as
far as one looks.  To both sides only the run that is joined to it matters,
and that is in order with it already. -/
theorem filter_canonicalOrder_append {a b : List α} {c : α} (hc : p c = true)
    (ha : 0 < ccc c → ∀ d ∈ a.rtakeWhile (mark ccc), p d = true → ccc d ≤ ccc c)
    (hb : 0 < ccc c → ∀ d ∈ b.takeWhile (mark ccc), p d = true → ccc c ≤ ccc d) :
    (canonicalOrder ccc (a ++ c :: b)).filter p =
      (canonicalOrder ccc a).filter p ++ c :: (canonicalOrder ccc b).filter p := by
  rcases Nat.eq_zero_or_pos (ccc c) with hzero | hpos
  · rw [canonicalOrder_append hzero, List.filter_append, List.filter_cons_of_pos hc]
  · have hbefore : ∀ d ∈ a.rtakeWhile (mark ccc), 0 < ccc d := by
      intro d hd
      simpa [mark] using List.mem_rtakeWhile_imp hd
    have hbehind : ∀ d ∈ b.takeWhile (mark ccc), 0 < ccc d := by
      intro d hd
      simpa [mark] using List.mem_takeWhile_imp hd
    have hrun : (canonicalOrder ccc (a.rtakeWhile (mark ccc) ++
        ([c] ++ b.takeWhile (mark ccc)))).filter p =
        (canonicalOrder ccc (a.rtakeWhile (mark ccc))).filter p ++
          c :: (canonicalOrder ccc (b.takeWhile (mark ccc))).filter p := by
      rw [filter_canonicalOrder, filter_canonicalOrder hbefore, filter_canonicalOrder hbehind,
        List.filter_append, List.singleton_append, List.filter_cons_of_pos hc]
      · apply canonicalOrder_between
        · intro d hd
          exact ha hpos d (List.mem_filter.mp hd).1 (List.mem_filter.mp hd).2
        · intro d hd
          exact hb hpos d (List.mem_filter.mp hd).1 (List.mem_filter.mp hd).2
      · intro d hd
        simp only [List.mem_append, List.mem_singleton] at hd
        rcases hd with hd | rfl | hd
        · exact hbefore d hd
        · exact hpos
        · exact hbehind d hd
    have hfirst : canonicalOrder ccc (a ++ ([] ++ [])) = _ := canonicalOrder_runs a [] []
    have hlast : canonicalOrder ccc ([] ++ ([] ++ b)) = _ := canonicalOrder_runs [] [] b
    simp only [List.nil_append, List.append_nil, List.takeWhile_nil, List.dropWhile_nil,
      List.rtakeWhile_nil, List.rdropWhile_nil, canonicalOrder] at hfirst hlast
    change (canonicalOrder ccc (a ++ ([c] ++ b))).filter p = _
    rw [canonicalOrder_runs, hfirst, hlast, List.filter_append, List.filter_append, hrun]
    simp

end Filter

/-! ## The form -/

/-- A character of class zero that is its own decomposition splits the form. -/
theorem nfd_append {decomp : α → List α} {c : α} (hdecomp : decomp c = [c]) (hc : ccc c = 0)
    (a b : List α) : nfd ccc decomp (a ++ c :: b) = nfd ccc decomp a ++ c :: nfd ccc decomp b := by
  unfold nfd
  rw [List.flatMap_append, List.flatMap_cons, hdecomp]
  exact canonicalOrder_append hc _ _

/-- The characters of a decomposed text are those of its characters'
decompositions. -/
theorem mem_nfd {decomp : α → List α} {c : α} {s : List α} :
    c ∈ nfd ccc decomp s ↔ ∃ d ∈ s, c ∈ decomp d := by
  rw [← List.mem_flatMap]
  exact (canonicalOrder_perm _).mem_iff

end Normalization
