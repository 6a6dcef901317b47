import Mathlib.Logic.Relation
import Mathlib.Order.WellFounded

/-!
# Step systems: invariants, loops that can fault, termination

A program loop is a step function whose outcome is the next state, a result,
or a fault (an access the language leaves undefined).  A concurrent component
is a labelled step relation.  Both are run through Mathlib's
`Relation.ReflTransGen`, and everything proved about a run goes through the
three rules of this file:

* `invariant_of_steps` / `invariant_of_guarded` -- what one step preserves,
  a run preserves;
* `safe_of_invariant` -- an invariant under which no step faults;
* `returns_of_measure` -- a measure that every step decreases under such an
  invariant makes the loop return.
-/

namespace Machine

open Relation

variable {σ ρ α : Type*}

/-! ## Runs of a step relation -/

/-- What every step preserves, every run preserves. -/
theorem invariant_of_steps {r : σ → σ → Prop} {P : σ → Prop}
    (hstep : ∀ s t, P s → r s t → P t) {s t : σ}
    (hrun : ReflTransGen r s t) (hs : P s) : P t := by
  induction hrun with
  | refl => exact hs
  | tail _ hlast ih => exact hstep _ _ ih hlast

/-- The same when a step preserves `P` only from states meeting `ok`, and
every state the run can reach meets it. -/
theorem invariant_of_guarded {r : σ → σ → Prop} {P ok : σ → Prop}
    (hstep : ∀ s t, P s → ok s → r s t → P t) {s t : σ}
    (hok : ∀ u, ReflTransGen r s u → ok u)
    (hrun : ReflTransGen r s t) (hs : P s) : P t := by
  induction hrun with
  | refl => exact hs
  | tail hreach hlast ih => exact hstep _ _ ih (hok _ hreach) hlast

/-- One step of a labelled system whose label meets `ok` in the state it is
taken from. -/
def GuardedStep (step : σ → α → σ → Prop) (ok : σ → α → Prop) (s t : σ) : Prop :=
  ∃ a, ok s a ∧ step s a t

/-! ## Loops -/

/-- What one step of a loop does. -/
inductive Outcome (σ ρ : Type*) where
  | next (s : σ)
  | done (r : ρ)
  | fault
  deriving DecidableEq, Repr

/-- Use the value of an access, or fault where the access is undefined. -/
def Outcome.access (o : Option α) (k : α → Outcome σ ρ) : Outcome σ ρ :=
  match o with
  | some a => k a
  | none => .fault

@[simp] theorem Outcome.access_some (a : α) (k : α → Outcome σ ρ) :
    Outcome.access (some a) k = k a := rfl

@[simp] theorem Outcome.access_none (k : α → Outcome σ ρ) :
    Outcome.access none k = .fault := rfl

/-- An access that does not fault has a value, with which the step goes on. -/
theorem Outcome.exists_of_access {o : Option α} {k : α → Outcome σ ρ} {out : Outcome σ ρ}
    (h : Outcome.access o k = out) (hout : out ≠ .fault) : ∃ a, o = some a ∧ k a = out := by
  cases o with
  | none => exact absurd h.symm hout
  | some a => exact ⟨a, rfl, h⟩

variable (step : σ → Outcome σ ρ)

/-- The loop goes on from `s` to `t`. -/
def Moves (s t : σ) : Prop := step s = .next t

/-- The loop started in `s` can be in state `t`. -/
abbrev Reach (s t : σ) : Prop := ReflTransGen (Moves step) s t

/-- The loop started in `s` terminates with result `r`. -/
def Returns (s : σ) (r : ρ) : Prop := ∃ t, Reach step s t ∧ step t = .done r

/-- No step of the loop started in `s` faults. -/
def Safe (s : σ) : Prop := ∀ t, Reach step s t → step t ≠ .fault

/-- Run at most `n` steps. -/
def runFor : Nat → σ → Outcome σ ρ
  | 0, s => .next s
  | n + 1, s =>
      match step s with
      | .next t => runFor n t
      | .done r => .done r
      | .fault => .fault

variable {step}

/-- A result computed within some number of steps is the loop's result. -/
theorem returns_of_runFor {n : Nat} {s : σ} {r : ρ}
    (h : runFor step n s = .done r) : Returns step s r := by
  induction n generalizing s with
  | zero => simp [runFor] at h
  | succ n ih =>
      simp only [runFor] at h
      cases hs : step s with
      | next t =>
          rw [hs] at h
          obtain ⟨u, hreach, hdone⟩ := ih h
          exact ⟨u, ReflTransGen.head hs hreach, hdone⟩
      | done r' =>
          rw [hs] at h
          cases h
          exact ⟨s, .refl, hs⟩
      | fault => simp [hs] at h

/-- A state that returns has no successor. -/
theorem eq_of_done_reach {s t : σ} {r : ρ} (hdone : step s = .done r)
    (hreach : Reach step s t) : t = s := by
  rcases hreach.cases_head with heq | ⟨u, hu, _⟩
  · exact heq.symm
  · exact absurd (hdone.symm.trans hu) (by simp)

/-- A loop is deterministic: every state on the way has the same result. -/
theorem Returns.of_reach {s t : σ} {r : ρ} (hreach : Reach step s t)
    (h : Returns step s r) : Returns step t r := by
  obtain ⟨u, hu, hdone⟩ := h
  have hdet : Relator.RightUnique (Moves step) := by
    intro a b c hb hc
    exact Outcome.next.inj (hb.symm.trans hc)
  rcases ReflTransGen.total_of_right_unique hdet hreach hu with htu | hut
  · exact ⟨u, htu, hdone⟩
  · have heq := eq_of_done_reach hdone hut
    exact ⟨t, .refl, heq ▸ hdone⟩

/-- A loop returns at most one result. -/
theorem Returns.unique {s : σ} {r r' : ρ}
    (h : Returns step s r) (h' : Returns step s r') : r = r' := by
  obtain ⟨t, hreach, hdone⟩ := h
  obtain ⟨u, hu, hdone'⟩ := h'.of_reach hreach
  rw [eq_of_done_reach hdone hu, hdone] at hdone'
  exact Outcome.done.inj hdone'

/-- An invariant under which no step faults makes the loop safe. -/
theorem safe_of_invariant {P : σ → Prop}
    (hstep : ∀ s t, P s → Moves step s t → P t)
    (hfault : ∀ s, P s → step s ≠ .fault) {s : σ} (hs : P s) : Safe step s :=
  fun t ht => hfault t (invariant_of_steps hstep ht hs)

/-- The result of a loop satisfies what the invariant says of the state in
which the loop stops. -/
theorem Returns.of_invariant {P : σ → Prop} {Q : ρ → Prop}
    (hstep : ∀ s t, P s → Moves step s t → P t)
    (hdone : ∀ s r, P s → step s = .done r → Q r) {s : σ} {r : ρ}
    (hs : P s) (h : Returns step s r) : Q r := by
  obtain ⟨t, ht, hr⟩ := h
  exact hdone t r (invariant_of_steps hstep ht hs) hr

/-- **Termination.**  Under an invariant that excludes faults, a measure that
every step decreases makes the loop return.  By well-founded induction on the
measure. -/
theorem returns_of_measure {β : Type*} [Preorder β] [WellFoundedLT β]
    {P : σ → Prop} (μ : σ → β)
    (hstep : ∀ s t, P s → Moves step s t → P t)
    (hfault : ∀ s, P s → step s ≠ .fault)
    (hdec : ∀ s t, P s → Moves step s t → μ t < μ s) {s : σ} (hs : P s) :
    ∃ r, Returns step s r := by
  induction hμ : μ s using WellFoundedLT.induction generalizing s with
  | ind m ih =>
      cases hout : step s with
      | next t =>
          have hlt : μ t < m := hμ ▸ hdec s t hs hout
          obtain ⟨r, u, hreach, hdone⟩ := ih (μ t) hlt (hstep s t hs hout) rfl
          exact ⟨r, u, ReflTransGen.head hout hreach, hdone⟩
      | done r => exact ⟨r, s, .refl, hout⟩
      | fault => exact absurd hout (hfault s hs)

/-- A measure in the numbers also bounds the steps that are needed. -/
theorem runFor_of_measure {P : σ → Prop} (μ : σ → ℕ)
    (hstep : ∀ s t, P s → Moves step s t → P t ∧ μ t < μ s)
    (hfault : ∀ s, P s → step s ≠ .fault) {n : ℕ} {s : σ} (hs : P s) (hn : μ s < n) :
    ∃ t r, P t ∧ step t = .done r ∧ runFor step n s = .done r := by
  induction n generalizing s with
  | zero => exact absurd hn (Nat.not_lt_zero _)
  | succ n ih =>
      cases hout : step s with
      | next t =>
          obtain ⟨ht, hlt⟩ := hstep s t hs hout
          obtain ⟨u, r, hu, hdone, hrun⟩ := ih ht (by omega)
          exact ⟨u, r, hu, hdone, by simp only [runFor, hout, hrun]⟩
      | done r => exact ⟨s, r, hs, hout, by simp only [runFor, hout]⟩
      | fault => exact absurd hout (hfault s hs)

/-! ## Loops over a range -/

/-- A counting loop whose body never fails under an invariant ends, in a state
that satisfies it. -/
theorem foldlM_range_invariant {body : σ → Nat → Option σ} {P : Nat → σ → Prop} {n : Nat}
    (hstep : ∀ i s, i < n → P i s → ∃ t, body s i = some t ∧ P (i + 1) t) {s : σ}
    (hs : P 0 s) : ∃ t, (List.range n).foldlM body s = some t ∧ P n t := by
  induction n with
  | zero => exact ⟨s, rfl, hs⟩
  | succ n ih =>
      obtain ⟨t, hrun, ht⟩ := ih fun i s hi => hstep i s (Nat.lt_succ_of_lt hi)
      obtain ⟨u, hbody, hu⟩ := hstep n t (Nat.lt_succ_self n) ht
      refine ⟨u, ?_, hu⟩
      rw [List.range_succ, List.foldlM_append, hrun]
      simp [hbody]

/-- What the body preserves where it does not fail, the loop preserves. -/
theorem foldlM_invariant {body : σ → α → Option σ} {P : σ → Prop}
    (hstep : ∀ s a t, P s → body s a = some t → P t) {l : List α} {s t : σ}
    (hrun : l.foldlM body s = some t) (hs : P s) : P t := by
  induction l generalizing s with
  | nil =>
      cases hrun
      exact hs
  | cons a l ih =>
      rw [List.foldlM_cons, Option.bind_eq_bind, Option.bind_eq_some_iff] at hrun
      obtain ⟨u, hbody, hrest⟩ := hrun
      exact ih hrest (hstep s a u hs hbody)

/-- Of two computations, the second of which succeeds or fails whatever the
first one gives, both have to succeed. -/
theorem isSome_bind_iff {β : Type*} {f : α → Option β} {P : Prop}
    (hf : ∀ a, (f a).isSome = true ↔ P) (o : Option α) :
    (o.bind f).isSome = true ↔ o.isSome = true ∧ P := by
  cases o with
  | none => simp
  | some a => simp [hf a]

/-- A loop whose bodies succeed or fail whatever the state is, succeeds if all
of them do. -/
theorem isSome_foldlM_iff {body : σ → α → Option σ} {P : α → Prop}
    (hbody : ∀ s a, (body s a).isSome = true ↔ P a) (l : List α) (s : σ) :
    (l.foldlM body s).isSome = true ↔ ∀ a ∈ l, P a := by
  induction l generalizing s with
  | nil => simp
  | cons a l ih =>
      rw [List.foldlM_cons, List.forall_mem_cons, ← hbody s a]
      cases hstep : body s a with
      | none => simp
      | some t => simpa using ih t

/-! ## Traversals -/

/-- The results of a traversal, appended to what there is. -/
def collect {β : Type*} (f : α → Option β) (l : List α) (acc : List β) : Option (List β) :=
  (l.mapM f).map (acc ++ ·)

section Collect

variable {β : Type*} (f : α → Option β)

theorem collect_empty (l : List α) : collect f l [] = l.mapM f := by
  unfold collect
  simp

@[simp] theorem collect_nil (acc : List β) : collect f [] acc = some acc := by
  unfold collect
  simp

theorem collect_cons (a : α) (l : List α) (acc : List β) :
    collect f (a :: l) acc = (f a).bind fun b => collect f l (acc ++ [b]) := by
  unfold collect
  rw [List.mapM_cons]
  cases f a with
  | none => rfl
  | some b =>
      cases l.mapM f with
      | none => rfl
      | some bs => exact congrArg some (List.append_assoc acc [b] bs).symm

/-- A loop over two lists is the loop over the one and then over the other. -/
theorem collect_append (l k : List α) (acc : List β) :
    collect f (l ++ k) acc = (collect f l acc).bind (collect f k) := by
  induction l generalizing acc with
  | nil => rw [List.nil_append, collect_nil, Option.bind_some]
  | cons a l ih =>
      rw [List.cons_append, collect_cons, collect_cons, Option.bind_assoc]
      exact congrArg _ (funext fun b => ih (acc ++ [b]))

/-- A loop whose body collects is one traversal. -/
theorem foldlM_eq_collect {ι : Type*} (items : ι → List α) {body : List β → ι → Option (List β)}
    {rows : List ι} (hbody : ∀ i ∈ rows, ∀ acc, body acc i = collect f (items i) acc)
    (acc : List β) : rows.foldlM body acc = collect f (rows.flatMap items) acc := by
  induction rows generalizing acc with
  | nil => simp
  | cons i rows ih =>
      rw [List.foldlM_cons, hbody i List.mem_cons_self, List.flatMap_cons, collect_append]
      have hrest := ih fun j hj => hbody j (List.mem_cons_of_mem i hj)
      exact congrArg _ (funext hrest)

end Collect

/-- A traversal succeeds with what every element gives, and only if every one
gives something. -/
theorem mapM_eq_some_iff {β : Type*} {f : α → Option β} {l : List α} {r : List β} :
    l.mapM f = some r ↔ l.map f = r.map some := by
  induction l generalizing r with
  | nil =>
      cases r with
      | nil => simp
      | cons b r => simp
  | cons a l ih =>
      rw [List.mapM_cons, List.map_cons]
      cases r with
      | nil =>
          cases f a with
          | none => simp
          | some b => cases l.mapM f <;> simp
      | cons b r =>
          rw [List.map_cons, List.cons.injEq, ← ih]
          cases f a with
          | none => simp
          | some b' => cases l.mapM f <;> simp

theorem mem_mapM {β : Type*} {f : α → Option β} {l : List α} {r : List β}
    (h : l.mapM f = some r) {b : β} : b ∈ r ↔ ∃ a ∈ l, f a = some b := by
  have hsome : some b ∈ r.map some ↔ b ∈ r := by simp
  rw [← hsome, ← mapM_eq_some_iff.mp h, List.mem_map]

/-- What each element gives, read off the results in their order, one for one. -/
theorem map_of_mapM {β γ : Type*} {f : α → Option β} {g : β → γ} {h : α → γ}
    (hf : ∀ a b, f a = some b → g b = h a) {l : List α} {r : List β} (hr : l.mapM f = some r) :
    r.map g = l.map h := by
  rw [mapM_eq_some_iff] at hr
  induction l generalizing r with
  | nil =>
      rw [List.map_eq_nil_iff.mp hr.symm]
      rfl
  | cons a l ih =>
      cases r with
      | nil => cases hr
      | cons b r =>
          rw [List.map_cons, List.map_cons, List.cons.injEq] at hr
          rw [List.map_cons, List.map_cons, hf a b hr.1, ih hr.2]

/-- A traversal succeeds, with results that satisfy `P`, if every element
does. -/
theorem exists_mapM_iff {β : Type*} {f : α → Option β} {P : β → Prop} {l : List α} :
    (∃ r, l.mapM f = some r ∧ ∀ b ∈ r, P b) ↔ ∀ a ∈ l, ∃ b, f a = some b ∧ P b := by
  simp only [mapM_eq_some_iff]
  induction l with
  | nil => exact iff_of_true ⟨[], rfl, by simp⟩ (by simp)
  | cons a l ih =>
      rw [List.forall_mem_cons, ← ih]
      constructor
      · rintro ⟨r, hr, hP⟩
        cases r with
        | nil => simp at hr
        | cons b r =>
            rw [List.map_cons, List.map_cons, List.cons.injEq] at hr
            rw [List.forall_mem_cons] at hP
            exact ⟨⟨b, hr.1, hP.1⟩, r, hr.2, hP.2⟩
      · rintro ⟨⟨b, hb, hPb⟩, r, hr, hP⟩
        refine ⟨b :: r, ?_, List.forall_mem_cons.mpr ⟨hPb, hP⟩⟩
        rw [List.map_cons, List.map_cons, hb, hr]

theorem isSome_mapM_iff {β : Type*} {f : α → Option β} {l : List α} :
    (l.mapM f).isSome = true ↔ ∀ a ∈ l, (f a).isSome = true := by
  have htrue := exists_mapM_iff (f := f) (P := fun _ => True) (l := l)
  simpa [Option.isSome_iff_exists] using htrue

end Machine
