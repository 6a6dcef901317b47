import Mathlib.Data.List.Basic

/-!
# Backtracking regular expressions

A pattern is matched at the front of a text by trying its choices in order:
every repetition is greedy, so it first takes as much as it can and gives back
one piece at a time.  `rests` lists what is left of the text after each way to
match, in the order they are tried; the head of the list is the match a
backtracking engine reports.  `mem_rests_iff` says that the search is complete:
the ways to match are the prefixes the pattern accepts.

`find` looks for the first place where the pattern matches, `findAll` goes on
behind each match.
-/

namespace Regex

/-- Patterns over an alphabet.  `between m k a` stands for `a{m,m+k}`. -/
inductive Pattern (α : Type*) where
  | one (p : α → Bool)
  | seq (a b : Pattern α)
  | plus (a : Pattern α)
  | between (m k : Nat) (a : Pattern α)

variable {α : Type*}

/-- The words of a pattern. -/
inductive Accepts : Pattern α → List α → Prop where
  | one {p : α → Bool} {c : α} (hc : p c = true) : Accepts (.one p) [c]
  | seq {a b : Pattern α} {u v : List α} (hu : Accepts a u) (hv : Accepts b v) :
      Accepts (.seq a b) (u ++ v)
  | plusOne {a : Pattern α} {u : List α} (hu : Accepts a u) : Accepts (.plus a) u
  | plusMore {a : Pattern α} {u v : List α} (hu : Accepts a u) (hv : Accepts (.plus a) v) :
      Accepts (.plus a) (u ++ v)
  | enough {k : Nat} {a : Pattern α} : Accepts (.between 0 k a) []
  | may {k : Nat} {a : Pattern α} {u v : List α} (hu : Accepts a u)
      (hv : Accepts (.between 0 k a) v) : Accepts (.between 0 (k + 1) a) (u ++ v)
  | must {m k : Nat} {a : Pattern α} {u v : List α} (hu : Accepts a u)
      (hv : Accepts (.between m k a) v) : Accepts (.between (m + 1) k a) (u ++ v)

/-- One or more times, as often as possible first.  A piece that takes nothing
ends the repetition. -/
def plusRests (body : List α → List (List α)) : Nat → List α → List (List α)
  | 0, _ => []
  | n + 1, s => (body s).flatMap fun r =>
      (if r.length < s.length then plusRests body n r else []) ++ [r]

/-- At most `k` times, as often as possible first. -/
def upToRests (body : List α → List (List α)) : Nat → List α → List (List α)
  | 0, s => [s]
  | k + 1, s => (body s).flatMap (upToRests body k) ++ [s]

/-- Between `m` and `m + k` times, as often as possible first. -/
def betweenRests (body : List α → List (List α)) (k : Nat) : Nat → List α → List (List α)
  | 0, s => upToRests body k s
  | m + 1, s => (body s).flatMap (betweenRests body k m)

/-- What is left of a text after each way to match at its front, in the order
in which backtracking tries them. -/
def rests : Pattern α → List α → List (List α)
  | .one _, [] => []
  | .one p, c :: s => if p c then [s] else []
  | .seq a b, s => (rests a s).flatMap (rests b)
  | .plus a, s => plusRests (rests a) (s.length + 1) s
  | .between m k a, s => betweenRests (rests a) k m s

/-! ## The equations of `rests` -/

/-- Fuel beyond the length of the text makes no difference. -/
theorem plusRests_fuel (body : List α → List (List α)) {n m : Nat} {s : List α}
    (hn : s.length < n) (hm : s.length < m) : plusRests body n s = plusRests body m s := by
  induction n generalizing m s with
  | zero => omega
  | succ n ih =>
      cases m with
      | zero => omega
      | succ m =>
          have hbody : ∀ r, (if r.length < s.length then plusRests body n r else []) =
              if r.length < s.length then plusRests body m r else [] := by
            intro r
            split_ifs with hr
            · exact ih (by omega) (by omega)
            · rfl
          simp only [plusRests, hbody]

/-- A repetition is one piece, then another repetition or nothing. -/
theorem rests_plus (a : Pattern α) (s : List α) :
    rests (.plus a) s = (rests a s).flatMap fun r =>
      (if r.length < s.length then rests (.plus a) r else []) ++ [r] := by
  have hbody : ∀ r, (if r.length < s.length then plusRests (rests a) s.length r else []) =
      if r.length < s.length then rests (.plus a) r else [] := by
    intro r
    split_ifs with hr
    · exact plusRests_fuel (rests a) hr (Nat.lt_succ_self _)
    · rfl
  change plusRests (rests a) (s.length + 1) s = _
  simp only [plusRests, hbody]

/-- One or more of a character: as many as can be had, then the shorter ones.
The order is that in which a greedy search tries them. -/
theorem rests_plus_one_cons {p : α → Bool} {c : α} (hc : p c = true) (s : List α) :
    rests (.plus (.one p)) (c :: s) = rests (.plus (.one p)) s ++ [s] := by
  rw [rests_plus]
  simp [rests, hc]

theorem rests_plus_one_of_not {p : α → Bool} {s : List α} (hs : ∀ c ∈ s.head?, p c = false) :
    rests (.plus (.one p)) s = [] := by
  rw [rests_plus]
  cases s with
  | nil => rfl
  | cons c s => simp [rests, hs c rfl]

/-! ## The search is complete -/

/-- The optional repetitions take a word each, and no more than their number. -/
theorem exists_of_mem_upToRests {a : Pattern α} {k : Nat} {s r : List α}
    (ha : ∀ {s r : List α}, r ∈ rests a s → ∃ w, Accepts a w ∧ s = w ++ r)
    (hr : r ∈ upToRests (rests a) k s) : ∃ w, Accepts (.between 0 k a) w ∧ s = w ++ r := by
  induction k generalizing s with
  | zero =>
      rw [upToRests, List.mem_singleton] at hr
      exact ⟨[], .enough, by rw [hr]; rfl⟩
  | succ k ih =>
      rw [upToRests, List.mem_append] at hr
      rcases hr with hr | hr
      · obtain ⟨q, hq, hrq⟩ := List.mem_flatMap.mp hr
        obtain ⟨u, hu, rfl⟩ := ha hq
        obtain ⟨v, hv, rfl⟩ := ih hrq
        exact ⟨u ++ v, .may hu hv, (List.append_assoc u v r).symm⟩
      · rw [List.mem_singleton.mp hr]
        exact ⟨[], .enough, rfl⟩

/-- And so do those that are required. -/
theorem exists_of_mem_betweenRests {a : Pattern α} {m k : Nat} {s r : List α}
    (ha : ∀ {s r : List α}, r ∈ rests a s → ∃ w, Accepts a w ∧ s = w ++ r)
    (hr : r ∈ betweenRests (rests a) k m s) :
    ∃ w, Accepts (.between m k a) w ∧ s = w ++ r := by
  induction m generalizing s with
  | zero => exact exists_of_mem_upToRests ha hr
  | succ m ih =>
      rw [betweenRests] at hr
      obtain ⟨q, hq, hrq⟩ := List.mem_flatMap.mp hr
      obtain ⟨u, hu, rfl⟩ := ha hq
      obtain ⟨v, hv, rfl⟩ := ih hrq
      exact ⟨u ++ v, .must hu hv, (List.append_assoc u v r).symm⟩

/-- What backtracking leaves is what is behind a word of the pattern. -/
theorem exists_of_mem_rests {e : Pattern α} {s r : List α} (hr : r ∈ rests e s) :
    ∃ w, Accepts e w ∧ s = w ++ r := by
  induction e generalizing s r with
  | one p =>
      cases s with
      | nil => simp [rests] at hr
      | cons c s =>
          rw [rests] at hr
          split_ifs at hr with hc
          · exact ⟨[c], .one hc, by rw [List.mem_singleton.mp hr]; rfl⟩
          · simp at hr
  | seq a b iha ihb =>
      obtain ⟨q, hq, hrq⟩ := List.mem_flatMap.mp hr
      obtain ⟨u, hu, rfl⟩ := iha hq
      obtain ⟨v, hv, rfl⟩ := ihb hrq
      exact ⟨u ++ v, .seq hu hv, (List.append_assoc u v r).symm⟩
  | plus a ih =>
      induction hn : s.length using Nat.strongRecOn generalizing s r with
      | ind n ihn =>
          rw [rests_plus] at hr
          obtain ⟨q, hq, hrq⟩ := List.mem_flatMap.mp hr
          obtain ⟨u, hu, rfl⟩ := ih hq
          rcases List.mem_append.mp hrq with hr | hr
          · split_ifs at hr with hlt
            · obtain ⟨v, hv, rfl⟩ := ihn q.length (hn ▸ hlt) hr rfl
              exact ⟨u ++ v, .plusMore hu hv, (List.append_assoc u v r).symm⟩
            · simp at hr
          · rw [List.mem_singleton.mp hr]
            exact ⟨u, .plusOne hu, rfl⟩
  | between m k a ih => exact exists_of_mem_betweenRests ih hr

/-- Every word of the pattern at the front of a text is tried.  By induction
on how the pattern accepts the word. -/
theorem mem_rests_of_accepts {e : Pattern α} {w : List α} (h : Accepts e w) (r : List α) :
    r ∈ rests e (w ++ r) := by
  induction h generalizing r with
  | one hc => simp [rests, hc]
  | @seq a b u v _ _ ihu ihv =>
      rw [List.append_assoc]
      exact List.mem_flatMap.mpr ⟨v ++ r, ihu (v ++ r), ihv r⟩
  | plusOne _ ih =>
      rw [rests_plus]
      exact List.mem_flatMap.mpr ⟨r, ih r, by simp⟩
  | @plusMore a u v _ _ ihu ihv =>
      by_cases hu : u = []
      · rw [hu]
        exact ihv r
      · have hlt : (v ++ r).length < (u ++ (v ++ r)).length := by
          have hpos := List.length_pos_iff.mpr hu
          simp only [List.length_append]
          omega
        rw [List.append_assoc, rests_plus]
        refine List.mem_flatMap.mpr ⟨v ++ r, ihu (v ++ r), ?_⟩
        rw [if_pos hlt]
        exact List.mem_append_left _ (ihv r)
  | @enough k a =>
      change r ∈ upToRests (rests a) k r
      cases k <;> simp [upToRests]
  | @may k a u v _ _ ihu ihv =>
      rw [List.append_assoc]
      change r ∈ upToRests (rests a) (k + 1) (u ++ (v ++ r))
      rw [upToRests]
      exact List.mem_append_left _ (List.mem_flatMap.mpr ⟨v ++ r, ihu (v ++ r), ihv r⟩)
  | @must m k a u v _ _ ihu ihv =>
      rw [List.append_assoc]
      change r ∈ betweenRests (rests a) k (m + 1) (u ++ (v ++ r))
      rw [betweenRests]
      exact List.mem_flatMap.mpr ⟨v ++ r, ihu (v ++ r), ihv r⟩

/-- **The search is complete.**  What the backtracking search leaves behind a
match is what is left behind some prefix that the pattern accepts, and every
such prefix is tried.  By induction on the pattern. -/
theorem mem_rests_iff {e : Pattern α} {s r : List α} :
    r ∈ rests e s ↔ ∃ w, Accepts e w ∧ s = w ++ r := by
  constructor
  · exact exists_of_mem_rests
  · rintro ⟨w, hw, rfl⟩
    exact mem_rests_of_accepts hw r

/-- What is left is a suffix. -/
theorem suffix_of_mem_rests {e : Pattern α} {s r : List α} (hr : r ∈ rests e s) : r <:+ s := by
  obtain ⟨w, _, rfl⟩ := exists_of_mem_rests hr
  exact List.suffix_append w r

theorem accepts_one_iff {p : α → Bool} {w : List α} :
    Accepts (.one p) w ↔ ∃ c, p c = true ∧ w = [c] := by
  constructor
  · intro h
    cases h with
    | one hc => exact ⟨_, hc, rfl⟩
  · rintro ⟨c, hc, rfl⟩
    exact .one hc

theorem accepts_seq_iff {a b : Pattern α} {w : List α} :
    Accepts (.seq a b) w ↔ ∃ u v, Accepts a u ∧ Accepts b v ∧ w = u ++ v := by
  constructor
  · intro h
    cases h with
    | seq hu hv => exact ⟨_, _, hu, hv, rfl⟩
  · rintro ⟨u, v, hu, hv, rfl⟩
    exact .seq hu hv

/-- The words of a repeated character class: any but the empty one, of
characters of the class. -/
theorem accepts_plus_one_iff {p : α → Bool} {w : List α} :
    Accepts (.plus (.one p)) w ↔ w ≠ [] ∧ ∀ c ∈ w, p c = true := by
  constructor
  · intro h
    generalize he : Pattern.plus (.one p) = e at h
    induction h with
    | plusOne hu =>
        cases he
        obtain ⟨c, hc, rfl⟩ := accepts_one_iff.mp hu
        simpa using hc
    | plusMore hu _ _ ih =>
        cases he
        obtain ⟨c, hc, rfl⟩ := accepts_one_iff.mp hu
        simpa [hc] using (ih rfl).2
    | _ => cases he
  · intro ⟨hne, hall⟩
    induction w with
    | nil => exact absurd rfl hne
    | cons c w ih =>
        have hc : Accepts (.one p) [c] := .one (hall c List.mem_cons_self)
        cases w with
        | nil => exact .plusOne hc
        | cons d w =>
            exact .plusMore hc (ih (by simp) fun x hx => hall x (List.mem_cons_of_mem _ hx))

/-! ## Character classes -/

/-- A repeated class and a character outside it: the class takes all it can or
the pattern fails. -/
theorem rests_plus_one_seq_one {p q : α → Bool} (hpq : ∀ c, q c = true → p c = false)
    (s : List α) :
    rests (.seq (.plus (.one p)) (.one q)) s =
      if s.takeWhile p = [] then [] else rests (.one q) (s.dropWhile p) := by
  change (rests (.plus (.one p)) s).flatMap (rests (.one q)) = _
  induction s with
  | nil => rw [rests_plus_one_of_not (by simp)]; rfl
  | cons c s ih =>
      by_cases hc : p c = true
      · rw [rests_plus_one_cons hc, List.flatMap_append, ih, List.takeWhile_cons_of_pos hc,
          List.dropWhile_cons_of_pos hc, if_neg (List.cons_ne_nil c _), List.flatMap_singleton]
        cases s with
        | nil => rfl
        | cons d s =>
            by_cases hd : p d = true
            · have hq : q d ≠ true := fun hq => absurd ((hpq d hq).symm.trans hd) (by decide)
              have hnone : rests (.one q) (d :: s) = [] := if_neg hq
              rw [hnone, List.append_nil, if_neg (by simp [hd])]
            · rw [List.takeWhile_cons_of_neg hd, List.dropWhile_cons_of_neg hd, if_pos rfl,
                List.nil_append]
      · rw [Bool.not_eq_true] at hc
        rw [rests_plus_one_of_not (by simp [hc])]
        simp [hc]

/-- A bounded repetition of a class takes as many as there are, at most its
bound; with fewer than its least number it fails. -/
theorem head?_rests_between_one (p : α → Bool) (m k : Nat) (s : List α) :
    (rests (.between m k (.one p)) s).head? =
      if m ≤ (s.takeWhile p).length then some (s.drop (min (m + k) (s.takeWhile p).length))
      else none := by
  change (betweenRests (rests (.one p)) k m s).head? = _
  induction m generalizing s with
  | zero =>
      rw [if_pos (Nat.zero_le _), betweenRests]
      induction k generalizing s with
      | zero => simp [upToRests]
      | succ k ih =>
          rw [upToRests]
          cases s with
          | nil => simp [rests]
          | cons c s =>
              by_cases hc : p c = true
              · have hmin : min (0 + (k + 1)) ((s.takeWhile p).length + 1) =
                    min (0 + k) (s.takeWhile p).length + 1 := by omega
                rw [List.takeWhile_cons_of_pos hc, List.length_cons, hmin]
                simp [rests, hc, List.head?_append, ih]
              · simp [rests, hc]
  | succ m ih =>
      rw [betweenRests]
      cases s with
      | nil => simp [rests]
      | cons c s =>
          by_cases hc : p c = true
          · have hmin : min (m + 1 + k) ((s.takeWhile p).length + 1) =
                min (m + k) (s.takeWhile p).length + 1 := by omega
            simp [rests, hc, ih, hmin]
          · simp [rests, hc]

/-! ## Searching -/

/-- A match, with the text before and behind it. -/
structure Found (α : Type*) where
  before : List α
  matched : List α
  after : List α
  deriving DecidableEq, Repr

/-- The first place of a text at which the pattern matches, and the first way
it matches there.  `before` is the text already passed. -/
def find (e : Pattern α) (before : List α) : List α → Option (Found α)
  | [] => (rests e []).head?.map fun r => ⟨before, [], r⟩
  | c :: s =>
      match (rests e (c :: s)).head? with
      | some r => some ⟨before, (c :: s).take ((c :: s).length - r.length), r⟩
      | none => find e (before ++ [c]) s

/-- All matches, each searched for behind the one before it; an empty match
passes one character. -/
def findAllFrom (e : Pattern α) : Nat → List α → List α → List (Found α)
  | 0, _, _ => []
  | n + 1, before, s =>
      match find e before s with
      | none => []
      | some m => m ::
          if m.matched = [] then
            match m.after with
            | [] => []
            | c :: rest => findAllFrom e n (m.before ++ [c]) rest
          else findAllFrom e n (m.before ++ m.matched) m.after

/-- All matches from left to right, each behind the one before. -/
def findAll (e : Pattern α) (s : List α) : List (Found α) := findAllFrom e (s.length + 1) [] s

/-- What a match consists of: the text is what is before, the match and what
is after, and the pattern, tried there, can leave the last. -/
theorem of_find_eq_some {e : Pattern α} {before s : List α} {m : Found α}
    (h : find e before s = some m) :
    ∃ u, m.before = before ++ u ∧ s = u ++ (m.matched ++ m.after) ∧
      m.after ∈ rests e (m.matched ++ m.after) := by
  induction s generalizing before with
  | nil =>
      rw [find, Option.map_eq_some_iff] at h
      obtain ⟨r, hr, rfl⟩ := h
      have hmem := List.mem_of_mem_head? hr
      have hnil : r = [] := List.suffix_nil.mp (suffix_of_mem_rests hmem)
      subst hnil
      exact ⟨[], (List.append_nil before).symm, rfl, hmem⟩
  | cons c s ih =>
      rw [find] at h
      cases hhead : (rests e (c :: s)).head? with
      | none =>
          rw [hhead] at h
          obtain ⟨u, hbefore, hs, hafter⟩ := ih h
          refine ⟨c :: u, ?_, congrArg (c :: ·) hs, hafter⟩
          rw [hbefore, List.append_assoc]
          rfl
      | some r =>
          rw [hhead] at h
          simp only [Option.some.injEq] at h
          have hmem := List.mem_of_mem_head? hhead
          obtain ⟨w, hw⟩ := suffix_of_mem_rests hmem
          have htake : (c :: s).take ((c :: s).length - r.length) = w := by
            rw [← hw, List.length_append, Nat.add_sub_cancel]
            exact List.take_left
          rw [htake] at h
          subst h
          exact ⟨[], (List.append_nil before).symm, hw.symm, by rw [hw]; exact hmem⟩

/-- The pattern never matches the empty word. -/
def Proper (e : Pattern α) : Prop := ∀ s r, r ∈ rests e s → r.length < s.length

/-- A sequence that begins with a character is proper. -/
theorem proper_seq_one (p : α → Bool) (e : Pattern α) : Proper (.seq (.one p) e) := by
  intro s r hr
  obtain ⟨q, hq, hrq⟩ := List.mem_flatMap.mp hr
  have hle := (suffix_of_mem_rests hrq).length_le
  cases s with
  | nil => simp [rests] at hq
  | cons c s =>
      have hsuffix := suffix_of_mem_rests hq
      rw [rests] at hq
      split_ifs at hq
      · rw [List.mem_singleton.mp hq] at hle
        exact Nat.lt_succ_of_le hle
      · simp at hq

theorem Proper.seq {a : Pattern α} (ha : Proper a) (b : Pattern α) : Proper (.seq a b) := by
  intro s r hr
  obtain ⟨q, hq, hrq⟩ := List.mem_flatMap.mp hr
  exact Nat.lt_of_le_of_lt (suffix_of_mem_rests hrq).length_le (ha s q hq)

/-- A match of a proper pattern is not empty, and less is left behind it. -/
theorem Proper.find {e : Pattern α} (he : Proper e) {before s : List α} {m : Found α}
    (h : Regex.find e before s = some m) : m.matched ≠ [] ∧ m.after.length < s.length := by
  obtain ⟨u, _, hs, hafter⟩ := of_find_eq_some h
  have hlt := he _ _ hafter
  rw [List.length_append] at hlt
  constructor
  · intro hnil
    simp [hnil] at hlt
  · rw [hs]
    simp only [List.length_append]
    omega

/-- Fuel beyond the length of the text makes no difference. -/
theorem Proper.findAllFrom_fuel {e : Pattern α} (he : Proper e) {n k : Nat} {before s : List α}
    (hn : s.length < n) (hk : s.length < k) :
    findAllFrom e n before s = findAllFrom e k before s := by
  induction n generalizing k before s with
  | zero => omega
  | succ n ih =>
      cases k with
      | zero => omega
      | succ k =>
          rw [findAllFrom, findAllFrom]
          cases hfind : Regex.find e before s with
          | none => rfl
          | some m =>
              obtain ⟨hne, hlt⟩ := he.find hfind
              have hrest : findAllFrom e n (m.before ++ m.matched) m.after =
                  findAllFrom e k (m.before ++ m.matched) m.after := ih (by omega) (by omega)
              simp only [if_neg hne, hrest]

/-- The matches from a place on: the first one, then those behind it. -/
theorem Proper.findAllFrom_eq {e : Pattern α} (he : Proper e) (before s : List α) :
    findAllFrom e (s.length + 1) before s =
      match Regex.find e before s with
      | none => []
      | some m => m ::
          findAllFrom e (m.after.length + 1) (m.before ++ m.matched) m.after := by
  rw [findAllFrom]
  cases hfind : Regex.find e before s with
  | none => rfl
  | some m =>
      obtain ⟨hne, hlt⟩ := he.find hfind
      simp only [if_neg hne]
      rw [he.findAllFrom_fuel hlt (Nat.lt_succ_self _)]

/-- Places at which the pattern does not match are passed. -/
theorem find_skip {e : Pattern α} (before u v : List α)
    (hu : ∀ u₁ u₂, u = u₁ ++ u₂ → u₂ ≠ [] → rests e (u₂ ++ v) = []) :
    find e before (u ++ v) = find e (before ++ u) v := by
  induction u generalizing before with
  | nil => rw [List.append_nil, List.nil_append]
  | cons c u ih =>
      have hnone : rests e (c :: (u ++ v)) = [] := hu [] (c :: u) rfl (List.cons_ne_nil c u)
      rw [List.cons_append, find, hnone]
      have hrest := ih (before ++ [c]) fun u₁ u₂ hsplit =>
        hu (c :: u₁) u₂ (congrArg (c :: ·) hsplit)
      simpa using hrest

/-- A place at which it matches is found, if the match is the first one that
is tried there. -/
theorem find_hit {e : Pattern α} (before : List α) {w r : List α}
    (h : (rests e (w ++ r)).head? = some r) : find e before (w ++ r) = some ⟨before, w, r⟩ := by
  cases hs : w ++ r with
  | nil =>
      obtain ⟨rfl, rfl⟩ := List.append_eq_nil_iff.mp hs
      rw [List.append_nil] at h
      rw [find, h]
      rfl
  | cons c s =>
      rw [hs] at h
      have htake : (c :: s).take ((c :: s).length - r.length) = w := by
        rw [← hs, List.length_append, Nat.add_sub_cancel]
        exact List.take_left
      rw [find, h]
      simp only [htake]

end Regex
