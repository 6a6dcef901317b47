import CardScanner.JavaText
import CardScanner.Machine
import Mathlib.Data.List.Chain

/-!
# Repairing a text before e-mail addresses are looked up

Recognition often reads `'@'` as a copyright or registered sign and puts spaces
around it.  `correctString` replaces the signs and leaves out the spaces next to
an `'@'`, in one pass over the characters: each space is judged by its
neighbours in the array.

The neighbours are those of the text, not of the output, so of two spaces next
to an `'@'` only one goes; and the test for the character before,
`i - 1 > 0`, misses the text's first character.  `Loose` names the texts in
which one of the two matters.
-/

namespace CardScanner

open Machine

/-! ## The code -/

/-- The copyright sign or the registered sign. -/
def isSign (c : Char) : Bool := c.toNat == 169 || c.toNat == 174

/-- The locals of `correctString`'s loop. -/
structure CorrectScan where
  listChars : List Char
  builder : List Char

/-- A sign at index `i` becomes an `'@'`; no result for an index outside. -/
def replaceSign (listChars : List Char) (i : Nat) : Option (List Char) :=
  listChars[i]?.map fun c => if isSign c then listChars.set i '@' else listChars

/-- The condition under which the character at `i` is left out. -/
def skipsSpace (listChars : List Char) (i : Nat) : Option Bool := do
  let here ← listChars[i]?
  if here = ' ' then
    let next ← listChars[i + 1]?
    if next = '@' then pure true
    else if i - 1 > 0 then
      let previous ← listChars[i - 1]?
      pure (previous == '@')
    else pure false
  else pure false

/-- The body of the loop. -/
def CorrectScan.read (s : CorrectScan) (i : Nat) : Option CorrectScan := do
  let listChars ← replaceSign s.listChars i
  let listChars ←
    (if i + 1 < listChars.length then replaceSign listChars (i + 1) else some listChars)
  let skip ← skipsSpace listChars i
  let here ← listChars[i]?
  pure ⟨listChars, if skip then s.builder else s.builder ++ [here]⟩

/-- `correctString`; no result stands for an index outside the string. -/
def correctString (input : List Char) : Option (List Char) :=
  let listChars := trim input
  ((List.range listChars.length).foldlM CorrectScan.read ⟨listChars, []⟩).map (·.builder)

/-! ## What it should do -/

/-- A sign that is read for an `@` becomes one. -/
def fixSign (c : Char) : Char := if isSign c then '@' else c

/-- The trimmed text with the signs replaced. -/
def signsFixed (input : List Char) : List Char := (trim input).map fixSign

/-- `t` with some spaces removed. -/
inductive SpacesRemoved : List Char → List Char → Prop where
  | nil : SpacesRemoved [] []
  | keep (c : Char) {t out : List Char} (h : SpacesRemoved t out) :
      SpacesRemoved (c :: t) (c :: out)
  | remove {t out : List Char} (h : SpacesRemoved t out) : SpacesRemoved (' ' :: t) out

/-- Two characters that may stand next to each other. -/
def Tight (a b : Char) : Prop := ¬ (a = ' ' ∧ b = '@') ∧ ¬ (a = '@' ∧ b = ' ')

instance (a b : Char) : Decidable (Tight a b) :=
  inferInstanceAs (Decidable (¬ (a = ' ' ∧ b = '@') ∧ ¬ (a = '@' ∧ b = ' ')))

/-- A text in which spaces next to an `'@'` survive: it begins with an `'@'`
and a space that no `'@'` follows, or two spaces stand between an `'@'` and
something else. -/
def Loose (t : List Char) : Prop :=
  (∃ c rest, t = '@' :: ' ' :: c :: rest ∧ c ≠ '@') ∨
  (∃ u z v, t = u ++ z :: ' ' :: ' ' :: '@' :: v ∧ z ≠ '@') ∨
  (∃ u z v, t = u ++ '@' :: ' ' :: ' ' :: z :: v ∧ z ≠ '@')

/-! ## The pass -/

/-- A space next to an `'@'`. -/
def dropsSpace (prev : Option Char) (c : Char) (rest : List Char) : Bool :=
  c == ' ' && (rest.head? == some '@' || prev == some '@')

/-- A text without the spaces next to an `'@'`; `prev` is the character before
it. -/
def squeeze (prev : Option Char) : List Char → List Char
  | [] => []
  | c :: rest =>
      if dropsSpace prev c rest then squeeze (some c) rest
      else c :: squeeze (some c) rest

/-- The output: the second character is judged as if nothing stood before it. -/
def squeezed (t : List Char) : List Char := t.take 1 ++ squeeze none (t.drop 1)

/-- What the loop has still to append at index `i`. -/
def ahead (t : List Char) (i : Nat) : List Char :=
  if i = 0 then squeezed t else squeeze (if 1 < i then t[i - 1]? else none) (t.drop i)

theorem fixSign_at : fixSign '@' = '@' := by decide

/-- The array at some point of the loop: signs replaced below `i`. -/
def FixedBelow (t : List Char) (i : Nat) (listChars : List Char) : Prop :=
  listChars.map fixSign = t ∧ ∀ k < i, listChars[k]? = t[k]?

/-- A turn of the first loop fixes the sign at its place, and leaves those
before it as they are. -/
theorem FixedBelow.replaceSign {t listChars : List Char} {i : Nat}
    (h : FixedBelow t i listChars) (hi : i < t.length) :
    ∃ listChars', replaceSign listChars i = some listChars' ∧ FixedBelow t (i + 1) listChars' := by
  obtain ⟨hmap, hbelow⟩ := h
  have hlen : i < listChars.length := by
    rw [← hmap, List.length_map] at hi
    exact hi
  have ht : t[i]? = some (fixSign listChars[i]) := by
    rw [← hmap, List.getElem?_map, List.getElem?_eq_getElem hlen]
    rfl
  unfold CardScanner.replaceSign
  rw [List.getElem?_eq_getElem hlen, Option.map_some]
  refine ⟨_, rfl, ?_⟩
  by_cases hsign : isSign listChars[i] = true
  · rw [if_pos hsign]
    have hfix : fixSign listChars[i] = '@' := if_pos hsign
    refine ⟨?_, ?_⟩
    · rw [List.map_set, hmap, fixSign_at]
      apply List.ext_getElem?
      intro k
      rw [List.getElem?_set]
      by_cases hk : i = k
      · rw [← hk, if_pos rfl, if_pos hi, ht, hfix]
      · rw [if_neg hk]
    · intro k hk
      rw [List.getElem?_set]
      by_cases hik : i = k
      · rw [← hik, if_pos rfl, if_pos hlen, ht, hfix]
      · rw [if_neg hik]
        exact hbelow k (by omega)
  · rw [if_neg hsign]
    refine ⟨hmap, ?_⟩
    intro k hk
    by_cases hik : k = i
    · rw [hik, ht, List.getElem?_eq_getElem hlen, show fixSign listChars[i] = listChars[i] from
        if_neg hsign]
    · exact hbelow k (by omega)

/-- The condition in terms of the replaced text.  The loop reads its
neighbours from the array, which is replaced from the front up to there. -/
theorem skipsSpace_eq {t listChars : List Char} {i : Nat} (h : FixedBelow t (i + 2) listChars)
    (hi : i < t.length) (hlast : t.getLast? ≠ some ' ') :
    skipsSpace listChars i =
      some (dropsSpace (if 1 < i then t[i - 1]? else none) t[i] (t.drop (i + 1))) := by
  have hhere : listChars[i]? = some t[i] := by
    rw [h.2 i (by omega), List.getElem?_eq_getElem hi]
  have hnext : listChars[i + 1]? = t[i + 1]? := h.2 (i + 1) (by omega)
  have hprev : listChars[i - 1]? = t[i - 1]? := h.2 (i - 1) (by omega)
  unfold skipsSpace dropsSpace
  rw [hhere, hnext, hprev, List.head?_drop]
  by_cases hspace : t[i] = ' '
  · have hmore : i + 1 < t.length := by
      by_contra hend
      apply hlast
      rw [List.getLast?_eq_getElem?, show t.length - 1 = i by omega,
        List.getElem?_eq_getElem hi, hspace]
    have hbefore : i - 1 < t.length := by omega
    rw [List.getElem?_eq_getElem hmore, List.getElem?_eq_getElem hbefore]
    by_cases hat : t[i + 1] = '@'
    · simp [hspace, hat]
    · by_cases hfirst : 1 < i
      · have hpos : 0 < i - 1 := by omega
        simp [hspace, hat, hfirst, hpos]
      · have hzero : ¬ 0 < i - 1 := by omega
        simp [hspace, hat, hfirst, hzero]
  · simp [hspace]

/-- One step ahead: the character is left out or kept by what stands before
and behind it. -/
theorem ahead_step {t : List Char} {i : Nat} (hi : i < t.length)
    (hfirst : t.head? ≠ some ' ') :
    ahead t i = (if dropsSpace (if 1 < i then t[i - 1]? else none) t[i] (t.drop (i + 1)) then []
      else [t[i]]) ++ ahead t (i + 1) := by
  by_cases hzero : i = 0
  · subst hzero
    have hne : t[0] ≠ ' ' := by
      intro h
      apply hfirst
      rw [List.head?_eq_getElem?, List.getElem?_eq_getElem hi, h]
    have hkeep : dropsSpace none t[0] (t.drop 1) = false := by simp [dropsSpace, hne]
    have htake : t.take 1 = [t[0]] := by
      rw [List.take_succ_eq_append_getElem hi]
      simp
    have hone : ahead t 1 = squeeze none (t.drop 1) := rfl
    have hstart : ahead t 0 = t.take 1 ++ squeeze none (t.drop 1) := rfl
    rw [if_neg (show ¬ 1 < 0 by omega), Nat.zero_add, hkeep, hstart, hone, htake]
    rfl
  · unfold ahead
    rw [if_neg hzero, if_neg (Nat.succ_ne_zero i), if_pos (show 1 < i + 1 by omega),
      Nat.add_sub_cancel, List.drop_eq_getElem_cons hi, squeeze, List.getElem?_eq_getElem hi]
    split_ifs <;> rfl

/-- The loop before index `i`: what it has appended and what it has still to
append make up the output. -/
structure ScanAt (t : List Char) (i : Nat) (s : CorrectScan) : Prop where
  fixedBelow : FixedBelow t i s.listChars
  builder : s.builder ++ ahead t i = squeezed t

/-- A turn of the second loop: the builder holds what `squeeze` makes of the
characters up to there. -/
theorem ScanAt.read {t : List Char} {i : Nat} {s : CorrectScan} (h : ScanAt t i s)
    (hi : i < t.length) (hfirst : t.head? ≠ some ' ') (hlast : t.getLast? ≠ some ' ') :
    ∃ s', s.read i = some s' ∧ ScanAt t (i + 1) s' := by
  obtain ⟨next, hnext, hfixed⟩ := h.fixedBelow.replaceSign hi
  have hlen : next.length = t.length := by rw [← hfixed.1, List.length_map]
  have hsecond : ∃ l, (if i + 1 < next.length then replaceSign next (i + 1) else some next) =
      some l ∧ FixedBelow t (i + 2) l := by
    split_ifs with hmore
    · exact hfixed.replaceSign (by omega)
    · refine ⟨next, rfl, hfixed.1, ?_⟩
      intro k hk
      by_cases hki : k < i + 1
      · exact hfixed.2 k hki
      · rw [List.getElem?_eq_none (by omega), List.getElem?_eq_none (by omega)]
  obtain ⟨l, hl, hfixed⟩ := hsecond
  have hskip := skipsSpace_eq hfixed hi hlast
  have hhere : l[i]? = some t[i] := by
    rw [hfixed.2 i (by omega), List.getElem?_eq_getElem hi]
  refine ⟨⟨l, if dropsSpace (if 1 < i then t[i - 1]? else none) t[i] (t.drop (i + 1)) then
    s.builder else s.builder ++ [t[i]]⟩, ?_, ⟨hfixed.1, fun k hk => hfixed.2 k (by omega)⟩, ?_⟩
  · unfold CorrectScan.read
    simp only [hnext, hl, hskip, hhere, Option.bind_eq_bind, Option.bind_some, Option.pure_def]
  · rw [← h.builder, ahead_step hi hfirst]
    split_ifs <;> simp

/-- **The loop.**  On a text that neither begins nor ends with a space no
index is outside, and the output is the squeezed text.  What carries the
induction is `ScanAt`: what has been written and what is to come make up the
squeezed text. -/
theorem foldlM_read_eq {t listChars : List Char} (hmap : listChars.map fixSign = t)
    (hfirst : t.head? ≠ some ' ') (hlast : t.getLast? ≠ some ' ') :
    ((List.range listChars.length).foldlM CorrectScan.read ⟨listChars, []⟩).map (·.builder) =
      some (squeezed t) := by
  have hlen : listChars.length = t.length := by rw [← hmap, List.length_map]
  have hstart : ScanAt t 0 ⟨listChars, []⟩ :=
    ⟨⟨hmap, fun k hk => absurd hk (Nat.not_lt_zero k)⟩, rfl⟩
  obtain ⟨s, hrun, hs⟩ := foldlM_range_invariant
    (fun i _ hi h => ScanAt.read h hi hfirst hlast) hstart
  have hend : ahead t t.length = [] := by
    unfold ahead
    by_cases hnil : t.length = 0
    · rw [List.length_eq_zero_iff.mp hnil]
      rfl
    · rw [if_neg hnil, List.drop_length]
      rfl
  have hbuilder := hs.builder
  rw [hend, List.append_nil] at hbuilder
  rw [hlen, hrun, Option.map_some, hbuilder]

/-! ## The squeezed text -/

theorem dropsSpace_eq_false {prev : Option Char} {c : Char} (rest : List Char) (hc : c ≠ ' ') :
    dropsSpace prev c rest = false := by simp [dropsSpace, hc]

/-- A blank stays unless an `@` stands beside it, in the text read so far or
in that to come. -/
theorem dropsSpace_space {prev : Option Char} {rest : List Char} :
    dropsSpace prev ' ' rest = false ↔ rest.head? ≠ some '@' ∧ prev ≠ some '@' := by
  simp [dropsSpace]

/-- Squeezing removes blanks and nothing else, whatever stood before the text. -/
theorem spacesRemoved_squeeze (prev : Option Char) (t : List Char) :
    SpacesRemoved t (squeeze prev t) := by
  induction t generalizing prev with
  | nil => exact .nil
  | cons c rest ih =>
      rw [squeeze]
      split_ifs with hdrop
      · have hc : c = ' ' := by
          by_contra hc
          rw [dropsSpace_eq_false rest hc] at hdrop
          cases hdrop
        rw [hc]
        exact .remove (ih _)
      · exact .keep c (ih _)

theorem spacesRemoved_squeezed (t : List Char) : SpacesRemoved t (squeezed t) := by
  cases t with
  | nil => exact .nil
  | cons c rest => exact .keep c (spacesRemoved_squeeze none rest)

theorem SpacesRemoved.sublist {t out : List Char} (h : SpacesRemoved t out) :
    out.Sublist t := by
  induction h with
  | nil => exact List.Sublist.refl []
  | keep c _ ih => exact ih.cons_cons c
  | remove _ ih => exact ih.cons ' '

/-- A text that does not end with a space keeps its last character, as only
spaces are left out. -/
theorem getLast?_squeeze (prev : Option Char) {t : List Char} (hlast : t.getLast? ≠ some ' ') :
    (squeeze prev t).getLast? = t.getLast? := by
  induction t generalizing prev with
  | nil => rfl
  | cons c rest ih =>
      cases rest with
      | nil =>
          have hc : c ≠ ' ' := fun hc => hlast (by rw [hc]; rfl)
          rw [squeeze, dropsSpace_eq_false [] hc]
          rfl
      | cons d rest =>
          rw [List.getLast?_cons_cons] at hlast ⊢
          rw [squeeze]
          split_ifs
          · exact ih (some c) hlast
          · rw [List.getLast?_cons, ih (some c) hlast, List.getLast?_cons]
            rfl

/-- What is kept before a place, and from the place on: of the text before it
only the last character matters there. -/
theorem squeeze_append (prev : Option Char) (l s : List Char) :
    ∃ front, squeeze prev (l ++ s) = front ++ squeeze (l.getLast?.or prev) s := by
  induction l generalizing prev with
  | nil => exact ⟨[], by simp⟩
  | cons c l ih =>
      obtain ⟨front, hfront⟩ := ih (some c)
      have hlast : (c :: l).getLast?.or prev = l.getLast?.or (some c) := by
        rw [List.getLast?_cons]
        cases l.getLast? <;> rfl
      rw [List.cons_append, squeeze, hlast, hfront]
      split_ifs
      · exact ⟨front, rfl⟩
      · exact ⟨c :: front, rfl⟩

/-- Where a kept character comes from: the text splits there, and what is kept
behind it is what is left of the rest. -/
theorem of_squeeze_eq_append {prev : Option Char} {t u v : List Char} {x : Char}
    (h : squeeze prev t = u ++ x :: v) :
    ∃ s₁ s₂, t = s₁ ++ x :: s₂ ∧ v = squeeze (some x) s₂ ∧
      dropsSpace (s₁.getLast?.or prev) x s₂ = false := by
  induction t generalizing prev u with
  | nil => simp [squeeze] at h
  | cons c rest ih =>
      have hlast : ∀ s₁ : List Char, (c :: s₁).getLast?.or prev = s₁.getLast?.or (some c) := by
        intro s₁
        rw [List.getLast?_cons]
        cases s₁.getLast? <;> rfl
      rw [squeeze] at h
      split_ifs at h with hdrop
      · obtain ⟨s₁, s₂, rfl, hv, hkeep⟩ := ih h
        exact ⟨c :: s₁, s₂, rfl, hv, by rw [hlast]; exact hkeep⟩
      · cases u with
        | nil =>
            obtain ⟨rfl, rfl⟩ := List.cons.inj h
            exact ⟨[], rest, rfl, rfl, by simpa using hdrop⟩
        | cons d u =>
            obtain ⟨s₁, s₂, rfl, hv, hkeep⟩ := ih (List.cons.inj h).2
            exact ⟨c :: s₁, s₂, rfl, hv, by rw [hlast]; exact hkeep⟩

/-- Before the first kept character there are only spaces, since nothing else
is left out. -/
theorem of_squeeze_eq_cons {prev : Option Char} {t v : List Char} {y : Char}
    (h : squeeze prev t = y :: v) :
    ∃ m s, t = List.replicate m ' ' ++ y :: s ∧
      dropsSpace (if m = 0 then prev else some ' ') y s = false := by
  induction t generalizing prev with
  | nil => simp [squeeze] at h
  | cons c rest ih =>
      rw [squeeze] at h
      split_ifs at h with hdrop
      · have hc : c = ' ' := by
          by_contra hc
          rw [dropsSpace_eq_false rest hc] at hdrop
          cases hdrop
        subst hc
        obtain ⟨m, s, rfl, hkeep⟩ := ih h
        refine ⟨m + 1, s, rfl, ?_⟩
        cases m <;> exact hkeep
      · obtain ⟨rfl, rfl⟩ := List.cons.inj h
        exact ⟨0, rest, rfl, by simpa using hdrop⟩

/-- Nothing is left out of a tight text, unless it begins with a space behind
an `'@'`. -/
theorem squeeze_eq_self {prev : Option Char} {t : List Char} (hprev : prev ≠ some '@' ∨
    t.head? ≠ some ' ') (h : t.IsChain Tight) : squeeze prev t = t := by
  induction t generalizing prev with
  | nil => rfl
  | cons c rest ih =>
      have hkeep : dropsSpace prev c rest = false := by
        by_cases hc : c = ' '
        · subst hc
          rw [dropsSpace_space]
          refine ⟨?_, by simpa using hprev⟩
          intro hhead
          cases rest with
          | nil => cases hhead
          | cons d rest =>
              cases hhead
              exact (List.isChain_cons_cons.mp h).1.1 ⟨rfl, rfl⟩
        · exact dropsSpace_eq_false rest hc
      have hnext : some c ≠ some '@' ∨ rest.head? ≠ some ' ' := by
        by_contra hboth
        simp only [not_or, not_not] at hboth
        obtain ⟨hc, hhead⟩ := hboth
        cases rest with
        | nil => cases hhead
        | cons d rest =>
            cases hc
            cases hhead
            exact (List.isChain_cons_cons.mp h).1.2 ⟨rfl, rfl⟩
      rw [squeeze, hkeep, ih hnext h.tail]
      rfl

theorem squeezed_eq_self {t : List Char} (h : t.IsChain Tight) : squeezed t = t := by
  cases t with
  | nil => rfl
  | cons c rest => exact congrArg (c :: ·) (squeeze_eq_self (Or.inl (by simp)) h.tail)

/-! ## Spaces that survive -/

/-- A pair that may not stand in a text makes it not tight. -/
theorem not_isChain_of_pair {u v : List Char} {x y : Char} (hxy : ¬ Tight x y) :
    ¬ (u ++ x :: y :: v).IsChain Tight := by
  intro h
  exact hxy (List.isChain_iff_forall_rel_of_append_cons_cons.mp h rfl)

/-- In a loose text a blank stays beside an `@`.  The three cases are those of
`Loose`. -/
theorem Loose.not_isChain {t : List Char} (h : Loose t) (hfirst : t.head? ≠ some ' ') :
    ¬ (squeezed t).IsChain Tight := by
  have hspaceAt : ¬ Tight ' ' '@' := by decide
  have hatSpace : ¬ Tight '@' ' ' := by decide
  rcases h with ⟨c, rest, rfl, hc⟩ | ⟨u, z, v, rfl, hz⟩ | ⟨u, z, v, rfl, hz⟩
  · have hkeep : dropsSpace none ' ' (c :: rest) = false := by simp [dropsSpace, hc]
    have hout : squeezed ('@' :: ' ' :: c :: rest) =
        [] ++ '@' :: ' ' :: squeeze (some ' ') (c :: rest) := by
      simp [squeezed, squeeze, hkeep]
    rw [hout]
    exact not_isChain_of_pair hatSpace
  · have hend : ∀ prev, prev ≠ some '@' → squeeze prev (' ' :: ' ' :: '@' :: v) =
        ' ' :: '@' :: squeeze (some '@') v := by
      intro prev hprev
      simp [squeeze, dropsSpace, hprev]
    cases u with
    | nil =>
        have hout : squeezed ([] ++ z :: ' ' :: ' ' :: '@' :: v) =
            [z] ++ ' ' :: '@' :: squeeze (some '@') v := by
          simp [squeezed, hend none (by simp)]
        rw [hout]
        exact not_isChain_of_pair hspaceAt
    | cons c u =>
        obtain ⟨front, hfront⟩ := squeeze_append none (u ++ [z]) (' ' :: ' ' :: '@' :: v)
        have hprev : (u ++ [z]).getLast?.or none ≠ some '@' := by simpa using hz
        have hout : squeezed (c :: u ++ z :: ' ' :: ' ' :: '@' :: v) =
            (c :: front) ++ ' ' :: '@' :: squeeze (some '@') v := by
          rw [hend _ hprev, List.append_assoc, List.singleton_append] at hfront
          simp [squeezed, hfront]
        rw [hout]
        exact not_isChain_of_pair hspaceAt
  · have hend : ∀ prev, squeeze prev ('@' :: ' ' :: ' ' :: z :: v) =
        '@' :: ' ' :: squeeze (some ' ') (z :: v) := by
      intro prev
      simp [squeeze, dropsSpace, hz]
    cases u with
    | nil =>
        have hout : squeezed ([] ++ '@' :: ' ' :: ' ' :: z :: v) =
            [] ++ '@' :: ' ' :: squeeze (some ' ') (' ' :: z :: v) := by
          simp [squeezed, squeeze, dropsSpace]
        rw [hout]
        exact not_isChain_of_pair hatSpace
    | cons c u =>
        obtain ⟨front, hfront⟩ := squeeze_append none u ('@' :: ' ' :: ' ' :: z :: v)
        have hout : squeezed (c :: u ++ '@' :: ' ' :: ' ' :: z :: v) =
            (c :: front) ++ '@' :: ' ' :: squeeze (some ' ') (z :: v) := by
          rw [hend] at hfront
          simp [squeezed, hfront]
        rw [hout]
        exact not_isChain_of_pair hatSpace

/-- A space kept behind an `'@'`: two spaces follow the `'@'` in the text. -/
theorem loose_of_at_space {u s₂ v : List Char} (hv : squeeze (some '@') s₂ = ' ' :: v)
    (hlast : (u ++ '@' :: s₂).getLast? ≠ some ' ') : Loose (u ++ '@' :: s₂) := by
  obtain ⟨m, s, rfl, hkeep⟩ := of_squeeze_eq_cons hv
  rw [dropsSpace_space] at hkeep
  cases m with
  | zero => exact absurd rfl hkeep.2
  | succ m =>
      cases m with
      | zero =>
          cases s with
          | nil => exact absurd (by simp) hlast
          | cons z s =>
              have hz : z ≠ '@' := fun hz => hkeep.1 (by rw [hz]; rfl)
              exact Or.inr (Or.inr ⟨u, z, s, rfl, hz⟩)
      | succ m =>
          obtain ⟨w, hw⟩ : ∃ w, List.replicate m ' ' ++ ' ' :: s = ' ' :: w := by
            cases m with
            | zero => exact ⟨s, rfl⟩
            | succ m => exact ⟨_, rfl⟩
          refine Or.inr (Or.inr ⟨u, ' ', w, ?_, by decide⟩)
          rw [← hw]
          rfl

/-- A space kept before an `'@'`: two spaces precede the `'@'` in the text.
Either no `'@'` stands before them, or it is the first character of the text,
behind which the first space is kept as well. -/
theorem loose_of_space_at {c : Char} {s₁ s₂ v : List Char}
    (hv : squeeze (some ' ') s₂ = '@' :: v) (hkeep : dropsSpace s₁.getLast? ' ' s₂ = false) :
    Loose (c :: s₁ ++ ' ' :: s₂) := by
  obtain ⟨m, s, rfl, _⟩ := of_squeeze_eq_cons hv
  rw [dropsSpace_space] at hkeep
  cases m with
  | zero => exact absurd rfl hkeep.1
  | succ m =>
      have hspaces : ' ' :: List.replicate (m + 1) ' ' = List.replicate m ' ' ++ [' ', ' '] := by
        rw [← List.replicate_succ, List.replicate_succ', List.replicate_succ', List.append_assoc]
        rfl
      have htext : c :: s₁ ++ ' ' :: (List.replicate (m + 1) ' ' ++ '@' :: s) =
          c :: s₁ ++ List.replicate m ' ' ++ ' ' :: ' ' :: '@' :: s := by
        rw [← List.cons_append, hspaces]
        simp
      obtain ⟨u, z, hu⟩ : ∃ u z, c :: s₁ ++ List.replicate m ' ' = u ++ [z] :=
        ⟨_, _, (List.dropLast_append_getLast (List.cons_ne_nil c _)).symm⟩
      rw [htext, hu, List.append_assoc]
      by_cases hz : z = '@'
      · have hlast := congrArg List.getLast? hu
        rw [List.getLast?_concat, hz] at hlast
        have hm : m = 0 := by
          by_contra hm
          rw [List.getLast?_append, List.getLast?_replicate, if_neg hm] at hlast
          simp at hlast
        subst hm
        rw [List.replicate_zero, List.append_nil, List.getLast?_cons] at hlast
        have hnil : s₁ = [] := by
          by_contra hne
          rw [List.getLast?_eq_getLast_of_ne_nil hne] at hlast hkeep
          exact hkeep.2 hlast
        subst hnil
        have hu' : u = [] := by simpa using congrArg List.length hu
        subst hu'
        exact Or.inl ⟨' ', '@' :: s, by rw [hz]; rfl, by decide⟩
      · exact Or.inr (Or.inl ⟨u, z, s, rfl, hz⟩)

/-- Two characters that stand next to each other against the rule. -/
theorem not_tight_cases {x y : Char} (h : ¬ Tight x y) :
    (x = ' ' ∧ y = '@') ∨ (x = '@' ∧ y = ' ') := by
  unfold Tight at h
  grind

theorem loose_of_not_isChain {t : List Char} (hfirst : t.head? ≠ some ' ')
    (hlast : t.getLast? ≠ some ' ') (h : ¬ (squeezed t).IsChain Tight) : Loose t := by
  rw [List.isChain_iff_forall_rel_of_append_cons_cons] at h
  simp only [not_forall] at h
  obtain ⟨x, y, u, v, hout, hxy⟩ := h
  cases t with
  | nil => simp [squeezed, squeeze] at hout
  | cons c rest =>
      change c :: squeeze none rest = u ++ x :: y :: v at hout
      cases u with
      | nil =>
          obtain ⟨rfl, hrest⟩ := List.cons.inj hout
          have hc : c ≠ ' ' := fun hc => hfirst (by rw [hc]; rfl)
          rcases not_tight_cases hxy with ⟨hspace, _⟩ | ⟨rfl, rfl⟩
          · exact absurd hspace hc
          · obtain ⟨m, s, rfl, hkeep⟩ := of_squeeze_eq_cons hrest
            rw [dropsSpace_space] at hkeep
            cases m with
            | zero =>
                cases s with
                | nil => exact absurd rfl hlast
                | cons z s => exact Or.inl ⟨z, s, rfl, fun hz => hkeep.1 (by rw [hz]; rfl)⟩
            | succ m =>
                cases m with
                | zero => exact Or.inl ⟨' ', s, rfl, by decide⟩
                | succ m => exact Or.inl ⟨' ', _, rfl, by decide⟩
      | cons d u =>
          obtain ⟨rfl, hrest⟩ := List.cons.inj hout
          obtain ⟨s₁, s₂, rfl, hv, hkeep⟩ := of_squeeze_eq_append hrest
          rw [Option.or_none] at hkeep
          rcases not_tight_cases hxy with ⟨rfl, rfl⟩ | ⟨rfl, rfl⟩
          · exact loose_of_space_at hv.symm hkeep
          · exact loose_of_at_space (u := c :: s₁) hv.symm hlast

/-! ## The output -/

theorem fixSign_fixSign (c : Char) : fixSign (fixSign c) = fixSign c := by
  by_cases hsign : isSign c = true
  · rw [show fixSign c = '@' from if_pos hsign, fixSign_at]
  · rw [show fixSign c = c from if_neg hsign]
    exact if_neg hsign

/-- A replaced sign is no space or control character either. -/
theorem lt_fixSign {c : Char} (hc : 32 < c.toNat) : 32 < (fixSign c).toNat := by
  unfold fixSign
  split_ifs
  · decide
  · exact hc

/-- The text is trimmed, so its first character is no blank. -/
theorem lt_of_head?_signsFixed {input : List Char} {c : Char}
    (hc : (signsFixed input).head? = some c) : 32 < c.toNat := by
  unfold signsFixed at hc
  rw [List.head?_map, Option.map_eq_some_iff] at hc
  obtain ⟨d, hd, rfl⟩ := hc
  exact lt_fixSign (lt_of_head?_trim hd)

theorem lt_of_getLast?_signsFixed {input : List Char} {c : Char}
    (hc : (signsFixed input).getLast? = some c) : 32 < c.toNat := by
  unfold signsFixed at hc
  rw [List.getLast?_map, Option.map_eq_some_iff] at hc
  obtain ⟨d, hd, rfl⟩ := hc
  exact lt_fixSign (lt_of_getLast?_trim hd)

theorem head?_signsFixed_ne (input : List Char) : (signsFixed input).head? ≠ some ' ' :=
  fun h => absurd (lt_of_head?_signsFixed h) (by decide)

theorem getLast?_signsFixed_ne (input : List Char) :
    (signsFixed input).getLast? ≠ some ' ' :=
  fun h => absurd (lt_of_getLast?_signsFixed h) (by decide)

/-- **The pass.**  No index is outside, and the output is the squeezed text.
The text is trimmed before the loop, so the loop's lemma applies. -/
theorem correctString_eq (input : List Char) :
    correctString input = some (squeezed (signsFixed input)) :=
  foldlM_read_eq rfl (head?_signsFixed_ne input) (getLast?_signsFixed_ne input)

theorem head?_squeezed (t : List Char) : (squeezed t).head? = t.head? := by
  cases t <;> rfl

theorem getLast?_squeezed {t : List Char} (hlast : t.getLast? ≠ some ' ') :
    (squeezed t).getLast? = t.getLast? := by
  cases t with
  | nil => rfl
  | cons c rest =>
      have hrest : rest.getLast? ≠ some ' ' := by
        intro h
        rw [List.getLast?_cons, h] at hlast
        exact hlast rfl
      change (c :: squeeze none rest).getLast? = _
      rw [List.getLast?_cons, getLast?_squeeze none hrest, List.getLast?_cons]

/-- The output has no signs, and nothing to trim.  So a second correction
begins where the first one ended. -/
theorem signsFixed_squeezed (input : List Char) :
    signsFixed (squeezed (signsFixed input)) = squeezed (signsFixed input) := by
  have htrim : trim (squeezed (signsFixed input)) = squeezed (signsFixed input) := by
    refine trim_eq_self ?_ ?_
    · intro c hc
      rw [head?_squeezed] at hc
      exact lt_of_head?_signsFixed hc
    · intro c hc
      rw [getLast?_squeezed (getLast?_signsFixed_ne input)] at hc
      exact lt_of_getLast?_signsFixed hc
  have hfixed : ∀ c ∈ squeezed (signsFixed input), fixSign c = c := by
    intro c hc
    have hmem := (spacesRemoved_squeezed (signsFixed input)).sublist.subset hc
    obtain ⟨d, _, rfl⟩ := List.mem_map.mp hmem
    exact fixSign_fixSign d
  change (trim (squeezed (signsFixed input))).map fixSign = _
  rw [htrim]
  exact (List.map_congr_left hfixed).trans (List.map_id' _)

/-- What `correctString` is to do. -/
structure Corrects (input out : List Char) : Prop where
  returned : correctString input = some out
  removed : SpacesRemoved (signsFixed input) out
  tight : out.IsChain Tight
  idempotent : correctString out = some out

/-- **When the correction is complete.**  The output has no space next to an
`'@'` and a second pass leaves it alone exactly when the trimmed text with the
signs replaced is not loose. -/
theorem corrects_iff (input : List Char) :
    (∃ out, Corrects input out) ↔ ¬ Loose (signsFixed input) := by
  have hfirst := head?_signsFixed_ne input
  have hlast := getLast?_signsFixed_ne input
  constructor
  · intro ⟨out, hout⟩ hloose
    have heq : squeezed (signsFixed input) = out := by
      simpa [correctString_eq] using hout.returned
    exact hloose.not_isChain hfirst (heq ▸ hout.tight)
  · intro hloose
    have htight : (squeezed (signsFixed input)).IsChain Tight := by
      by_contra h
      exact hloose (loose_of_not_isChain hfirst hlast h)
    refine ⟨squeezed (signsFixed input), correctString_eq input,
      spacesRemoved_squeezed _, htight, ?_⟩
    rw [correctString_eq, signsFixed_squeezed, squeezed_eq_self htight]

/-- Of two spaces before an `'@'` one stays. -/
theorem not_corrects : ¬ ∀ input : List Char, ∃ out, Corrects input out := by
  intro h
  obtain ⟨out, hout⟩ := h ['a', ' ', ' ', '@', 'b']
  have heq : correctString ['a', ' ', ' ', '@', 'b'] = some ['a', ' ', '@', 'b'] := by decide
  have hreturned := hout.returned
  rw [heq, Option.some.injEq] at hreturned
  have htight := hout.tight
  rw [← hreturned] at htight
  exact absurd htight (by decide)

end CardScanner
