import Mathlib.Algebra.BigOperators.Pi
import Mathlib.Data.Fintype.Card
import Mathlib.Data.Multiset.AddSub
import Mathlib.Tactic.Abel
import Mathlib.Tactic.Linarith
import Mathlib.Tactic.Positivity
import Mathlib.Tactic.Ring
import CardScanner.Threads
import CardScanner.LruCache

/-!
# `LruCache` under any interleaving

Threads call `get`, `put`, `remove` and `evictAll` at any time; between the
synchronized blocks of a call the others may run.  What `create` returns and which
calls are made is arbitrary.  Beside the cache the shared state records every value
that came in, and every call of `entryRemoved`.

Two invariants tie the cache to what the threads hold together, so each is proved
one thread at a time (`Threads.invariant_of_weight`):

* the size is the sum of the entries' sizes, and exceeds the bound by at most one
  entry for each thread that has still to trim the cache;
* every value that came in is in the cache, or reported to `entryRemoved`, or held by
  one thread that is about to report it -- exactly once.
-/

namespace CardScanner

open Threads

variable {κ ν : Type*}

/-- Where a call stands. -/
inductive CacheThread (κ ν : Type*) where
  | idle
  /-- in `create`, after a miss -/
  | creating (key : κ)
  /-- before `entryRemoved`, after which it trims the cache or returns -/
  | releasing (removal : Removal κ ν) (next : Option ℤ)
  /-- at the head of the loop of `trimToSize` -/
  | trimming (maxSize : ℤ)
  /-- an exception has left the call -/
  | threw
  deriving DecidableEq, Repr

/-- The cache, the entries that came in and the calls of `entryRemoved`. -/
structure SharedCache (κ ν : Type*) where
  cache : LruCache κ ν
  inserted : List (κ × ν)
  released : List (Removal κ ν)

namespace CacheThread

/-- Trim to a size, or return. -/
def goOn : Option ℤ → CacheThread κ ν
  | some maxSize => .trimming maxSize
  | none => .idle

/-- After the first block of `get`. -/
def afterGet (key : κ) : Option ν → CacheThread κ ν
  | some _ => .idle
  | none => .creating key

/-- After the second block of `get`: a value found meanwhile is kept. -/
def afterCreate (key : κ) (createdValue : ν) (maxSize : ℤ) : Option (Option ν) → CacheThread κ ν
  | none => .threw
  | some (some mapValue) => .releasing ⟨false, key, createdValue, some mapValue⟩ none
  | some none => .trimming maxSize

/-- After the block of `put`. -/
def afterPut (key : κ) (value : ν) (maxSize : ℤ) : Option (Option ν) → CacheThread κ ν
  | none => .threw
  | some (some previous) => .releasing ⟨false, key, previous, some value⟩ (some maxSize)
  | some none => .trimming maxSize

/-- After a round of `trimToSize`. -/
def afterTrim (maxSize : ℤ) : Option (Option (κ × ν)) → CacheThread κ ν
  | none => .threw
  | some (some row) => .releasing ⟨true, row.1, row.2, none⟩ (some maxSize)
  | some none => .idle

/-- After the block of `remove`. -/
def afterRemove (key : κ) : Option (Option ν) → CacheThread κ ν
  | none => .threw
  | some (some previous) => .releasing ⟨false, key, previous, none⟩ none
  | some none => .idle

end CacheThread

/-- One step of a thread: a synchronized block, or what stands between two. -/
inductive CacheStep [DecidableEq κ] (sizeOf : κ → ν → ℤ) :
    CacheThread κ ν → SharedCache κ ν → CacheThread κ ν → SharedCache κ ν → Prop where
  | get (s : SharedCache κ ν) (key : κ) :
      CacheStep sizeOf .idle s (.afterGet key (s.cache.getCached key).2)
        { s with cache := (s.cache.getCached key).1 }
  | createNothing (s : SharedCache κ ν) (key : κ) : CacheStep sizeOf (.creating key) s .idle s
  | create (s : SharedCache κ ν) (key : κ) (createdValue : ν) :
      CacheStep sizeOf (.creating key) s
        (.afterCreate key createdValue s.cache.mMaxSize
          (s.cache.putCreated sizeOf key createdValue).2)
        { s with
          cache := (s.cache.putCreated sizeOf key createdValue).1
          inserted := s.inserted ++ [(key, createdValue)] }
  /-- a value of negative size does not come in -/
  | put (s : SharedCache κ ν) (key : κ) (value : ν) :
      CacheStep sizeOf .idle s
        (.afterPut key value s.cache.mMaxSize (s.cache.putValue sizeOf key value).2)
        { s with
          cache := (s.cache.putValue sizeOf key value).1
          inserted := s.inserted ++ if sizeOf key value < 0 then [] else [(key, value)] }
  | remove (s : SharedCache κ ν) (key : κ) :
      CacheStep sizeOf .idle s (.afterRemove key (s.cache.removeKey sizeOf key).2)
        { s with cache := (s.cache.removeKey sizeOf key).1 }
  | evictAll (s : SharedCache κ ν) : CacheStep sizeOf .idle s (.trimming (-1)) s
  | trim (s : SharedCache κ ν) (maxSize : ℤ) :
      CacheStep sizeOf (.trimming maxSize) s
        (.afterTrim maxSize (s.cache.trimOnce sizeOf maxSize).2)
        { s with cache := (s.cache.trimOnce sizeOf maxSize).1 }
  | entryRemoved (s : SharedCache κ ν) (removal : Removal κ ν) (next : Option ℤ) :
      CacheStep sizeOf (.releasing removal next) s (.goOn next)
        { s with released := s.released ++ [removal] }

/-- No call is under way, and the cache is new. -/
def cacheStart {ι : Type*} (c : LruCache κ ν) : Config ι (CacheThread κ ν) (SharedCache κ ν) :=
  ⟨fun _ => .idle, ⟨c, [], []⟩⟩

/-- The first block of `get` changes the order of the entries only. -/
theorem LruCache.getCached_spec [DecidableEq κ] (c : LruCache κ ν) (key : κ) :
    (c.getCached key).1.map.rows.Perm c.map.rows ∧ (c.getCached key).1.size = c.size ∧
      (c.getCached key).1.mMaxSize = c.mMaxSize := by
  unfold getCached
  cases hfound : c.map.lookup key with
  | none => exact ⟨.refl _, rfl, rfl⟩
  | some row =>
      obtain ⟨-, hkey⟩ := KeyedTable.lookup_eq_some hfound
      have hperm : (row :: (c.map.access row).rows).Perm (row :: c.map.rows) :=
        KeyedTable.perm_access_of_some (hkey ▸ hfound)
      exact ⟨(List.perm_cons row).mp hperm, rfl, rfl⟩

/-! ## The size -/

section Size

variable {sizeOf : κ → ν → ℤ} {largest threads : ℕ} {maxSize : ℤ}

/-- The call has still to trim the cache to a size. -/
def CacheThread.willTrim (maxSize : ℤ) : CacheThread κ ν → Bool
  | .trimming limit => limit = maxSize
  | .releasing _ (some limit) => limit = maxSize
  | _ => false

/-- The calls that have still to trim the cache to its bound, and the other
ones. -/
def CacheThread.owing (maxSize : ℤ) (l : CacheThread κ ν) : ℕ × ℕ :=
  if l.willTrim maxSize then (1, 0) else (0, 1)

/-- Each thread alone: none has thrown, and the cache is trimmed to its bound
or emptied. -/
def CacheThread.Fine (maxSize : ℤ) : CacheThread κ ν → Prop
  | .threw => False
  | .trimming limit => limit = maxSize ∨ limit = -1
  | .releasing _ (some limit) => limit = maxSize ∨ limit = -1
  | _ => True

/-- The size is the sum of the entries' sizes, and exceeds the bound by no
more than one entry for each call that has still to trim the cache. -/
structure SizedWith (sizeOf : κ → ν → ℤ) (largest : ℕ) (maxSize : ℤ) (threads : ℕ)
    (owing : ℕ × ℕ) (c : LruCache κ ν) : Prop where
  bound : c.mMaxSize = maxSize
  threads : owing.1 + owing.2 = threads
  exact : c.size = entriesSize sizeOf c.map.rows
  excess : c.size ≤ maxSize + owing.1 * largest

namespace SizedWith

variable {rest owing : ℕ × ℕ} {c c' : LruCache κ ν} {key : κ}

/-- The order of the entries does not matter. -/
theorem reordered (h : SizedWith sizeOf largest maxSize threads owing c)
    (hperm : c'.map.rows.Perm c.map.rows) (hsame : c'.size = c.size)
    (hbound : c'.mMaxSize = c.mMaxSize) :
    SizedWith sizeOf largest maxSize threads owing c' where
  bound := hbound.trans h.bound
  threads := h.threads
  exact := (hsame.trans h.exact).trans (entriesSize_perm sizeOf hperm).symm
  excess := hsame.trans_le h.excess

variable (hsize : ∀ key value, 0 ≤ sizeOf key value ∧ sizeOf key value ≤ largest)

include hsize

theorem size_nonneg (h : SizedWith sizeOf largest maxSize threads owing c) : 0 ≤ c.size :=
  h.exact ▸ entriesSize_nonneg (fun key value => (hsize key value).1) _

/-- An entry goes, and the size goes down by its own, so that it keeps in step
with the entries. -/
theorem taken {row : κ × ν} (h : SizedWith sizeOf largest maxSize threads owing c)
    (hfits : maxSize + threads * largest < 2 ^ 31)
    (hperm : c.map.rows.Perm (row :: c'.map.rows))
    (hsub : c'.size = intOfLong (c.size - sizeOf row.1 row.2))
    (hbound : c'.mMaxSize = c.mMaxSize) :
    SizedWith sizeOf largest maxSize threads owing c' := by
  obtain ⟨hlow, hhigh⟩ := hsize row.1 row.2
  have hnonneg := h.size_nonneg hsize
  have hrest : 0 ≤ entriesSize sizeOf c'.map.rows :=
    entriesSize_nonneg (fun key value => (hsize key value).1) _
  have hexact := h.exact
  rw [entriesSize_perm sizeOf hperm, entriesSize_cons] at hexact
  have hexcess := h.excess
  have hall : (owing.1 : ℤ) * largest ≤ threads * largest := by
    refine mul_le_mul_of_nonneg_right ?_ (hlow.trans hhigh)
    exact_mod_cast h.threads ▸ Nat.le_add_right _ _
  rw [intOfLong_of_lt (by linarith) (by linarith)] at hsub
  exact ⟨hbound.trans h.bound, h.threads, by linarith, by linarith⟩

variable (hfit : maxSize + threads * largest < 2 ^ 31)

include hfit

/-- One more entry does not make the size overflow, if the call will trim the
cache. -/
theorem room (h : SizedWith sizeOf largest maxSize threads ((0, 1) + rest) c)
    (key : κ) (value : ν) :
    c.size + sizeOf key value ≤ maxSize + ((1, 0) + rest : ℕ × ℕ).1 * largest ∧
      c.size + sizeOf key value < 2 ^ 31 := by
  obtain ⟨hlow, hhigh⟩ := hsize key value
  have hexcess := h.excess
  have hthreads := h.threads
  simp only [Prod.fst_add, Prod.snd_add, zero_add] at hexcess hthreads ⊢
  have hone : c.size + sizeOf key value ≤ maxSize + ((1 + rest.1 : ℕ) : ℤ) * largest := by
    push_cast
    linarith
  have hall : ((1 + rest.1 : ℕ) : ℤ) * largest ≤ threads * largest :=
    mul_le_mul_of_nonneg_right (by exact_mod_cast (by omega)) (hlow.trans hhigh)
  exact ⟨hone, by linarith⟩

/-- An entry comes in, and the size grows by its own; the call that has
brought it is to trim the cache yet. -/
theorem added {value : ν} (h : SizedWith sizeOf largest maxSize threads ((0, 1) + rest) c)
    (hperm : c'.map.rows.Perm ((key, value) :: c.map.rows))
    (hadd : c'.size = intOfLong (c.size + sizeOf key value))
    (hbound : c'.mMaxSize = c.mMaxSize) :
    SizedWith sizeOf largest maxSize threads ((1, 0) + rest) c' := by
  obtain ⟨hroom, hint⟩ := h.room hsize hfit key value
  have hnonneg := h.size_nonneg hsize
  have hlow := (hsize key value).1
  have hthreads := h.threads
  rw [intOfLong_of_lt (by linarith) hint] at hadd
  refine ⟨hbound.trans h.bound, ?_, ?_, hadd ▸ hroom⟩
  · simp only [Prod.fst_add, Prod.snd_add] at hthreads ⊢
    omega
  · rw [hadd, entriesSize_perm sizeOf hperm, entriesSize_cons, h.exact]
    ring

/-- An entry comes in for another one, whose size is taken off afterwards. -/
theorem replaced {previous value : ν}
    (h : SizedWith sizeOf largest maxSize threads ((0, 1) + rest) c)
    (hperm : ((key, previous) :: c'.map.rows).Perm ((key, value) :: c.map.rows))
    (hadd : c'.size = intOfLong (intOfLong (c.size + sizeOf key value) - sizeOf key previous))
    (hbound : c'.mMaxSize = c.mMaxSize) :
    SizedWith sizeOf largest maxSize threads ((1, 0) + rest) c' := by
  obtain ⟨hroom, hint⟩ := h.room hsize hfit key value
  have hnonneg := h.size_nonneg hsize
  have hlow := (hsize key value).1
  have hprevious := (hsize key previous).1
  have hthreads := h.threads
  have hentries := entriesSize_perm sizeOf hperm
  have hrest : 0 ≤ entriesSize sizeOf c'.map.rows :=
    entriesSize_nonneg (fun key value => (hsize key value).1) _
  simp only [entriesSize_cons] at hentries
  have hexact := h.exact
  rw [intOfLong_of_lt (by linarith) hint, intOfLong_of_lt (by linarith) (by linarith)] at hadd
  refine ⟨hbound.trans h.bound, ?_, by linarith, by linarith⟩
  simp only [Prod.fst_add, Prod.snd_add] at hthreads ⊢
  omega

/-- One step of one thread keeps the size exact and the excess paid for. -/
theorem step [DecidableEq κ] {l l' : CacheThread κ ν} {s s' : SharedCache κ ν}
    (hmax : 0 < maxSize) (hfine : l.Fine maxSize)
    (h : SizedWith sizeOf largest maxSize threads (l.owing maxSize + rest) s.cache)
    (hstep : CacheStep sizeOf l s l' s') :
    l'.Fine maxSize ∧
      SizedWith sizeOf largest maxSize threads (l'.owing maxSize + rest) s'.cache := by
  have hnonneg : ∀ key value, 0 ≤ sizeOf key value := fun key value => (hsize key value).1
  cases hstep with
  | get _ key =>
      obtain ⟨hperm, hsame, hbound⟩ := s.cache.getCached_spec key
      have hkeep := h.reordered hperm hsame hbound
      cases (s.cache.getCached key).2 with
      | none => exact ⟨trivial, hkeep⟩
      | some value => exact ⟨trivial, hkeep⟩
  | createNothing _ key => exact ⟨trivial, h⟩
  | create _ key createdValue =>
      rcases LruCache.putCreated_cases hnonneg s.cache key createdValue with
        ⟨value, c', hrun, hperm, hsame, hbound, -⟩ | ⟨c', hrun, hperm, hadd, hbound, -⟩
      · rw [hrun]
        exact ⟨trivial, h.reordered hperm hsame hbound⟩
      · rw [hrun, h.bound]
        refine ⟨.inl rfl, ?_⟩
        rw [CacheThread.owing, if_pos (by simp [CacheThread.afterCreate, CacheThread.willTrim])]
        exact added hsize hfit h hperm hadd hbound
  | put _ key value =>
      rcases LruCache.putValue_cases hnonneg s.cache key value with
        ⟨previous, c', hrun, hperm, hadd, hbound, -⟩ | ⟨c', hrun, hperm, hadd, hbound, -⟩
      · rw [hrun, h.bound]
        refine ⟨.inl rfl, ?_⟩
        rw [CacheThread.owing, if_pos (by simp [CacheThread.afterPut, CacheThread.willTrim])]
        exact replaced hsize hfit h hperm hadd hbound
      · rw [hrun, h.bound]
        refine ⟨.inl rfl, ?_⟩
        rw [CacheThread.owing, if_pos (by simp [CacheThread.afterPut, CacheThread.willTrim])]
        exact added hsize hfit h hperm hadd hbound
  | remove _ key =>
      rcases LruCache.removeKey_cases hnonneg s.cache key with
        ⟨previous, c', hrun, hperm, hsub, hbound, -⟩ | ⟨hrun, -⟩
      · rw [hrun]
        exact ⟨trivial, taken hsize h hfit hperm hsub hbound⟩
      · rw [hrun]
        exact ⟨trivial, h⟩
  | evictAll =>
      refine ⟨.inr rfl, ?_⟩
      have hother : (-1 : ℤ) ≠ maxSize := by omega
      rw [CacheThread.owing, if_neg (by simpa [CacheThread.willTrim] using hother)]
      exact h
  | trim _ limit =>
      rcases LruCache.trimOnce_cases hnonneg limit s.cache with
        ⟨-, hbad⟩ | ⟨hrun, hfits⟩ | ⟨row, c', hrun, hrows, -, hsub, hbound⟩
      · have hsum := h.exact
        rcases hbad with hneg | ⟨hrows, hne⟩
        · exact absurd (h.size_nonneg hsize) (not_le.mpr hneg)
        · rw [hrows] at hsum
          exact absurd hsum hne
      · rw [hrun]
        refine ⟨trivial, ?_⟩
        by_cases howed : limit = maxSize
        · have hsmall : s.cache.size ≤ maxSize := by
            rcases hfits with hle | ⟨-, hzero⟩
            · exact howed ▸ hle
            · exact hzero ▸ hmax.le
          have hthreads := h.threads
          rw [CacheThread.owing, if_pos (by simpa [CacheThread.willTrim] using howed)] at hthreads
          refine ⟨h.bound, ?_, h.exact, ?_⟩
          · simp only [Prod.fst_add, Prod.snd_add] at hthreads
            simp only [CacheThread.afterTrim, CacheThread.owing, CacheThread.willTrim,
              Prod.fst_add, Prod.snd_add, Bool.false_eq_true, if_false]
            omega
          · have hrest : 0 ≤ ((((.idle : CacheThread κ ν).owing maxSize + rest).1 : ℕ) : ℤ)
                * largest := by positivity
            exact hsmall.trans (le_add_of_nonneg_right hrest)
        · rw [CacheThread.owing, if_neg (by simpa [CacheThread.willTrim] using howed)] at h
          exact h
      · rw [hrun]
        exact ⟨hfine, taken hsize h hfit (hrows ▸ .refl _) hsub hbound⟩
  | entryRemoved _ removal next =>
      cases next with
      | none => exact ⟨trivial, h⟩
      | some limit => exact ⟨hfine, h⟩

end SizedWith

variable {ι : Type*} [Fintype ι] [DecidableEq ι] [DecidableEq κ]

omit [DecidableEq ι] [DecidableEq κ] in
/-- What is owed together is the number of calls that have still to trim the
cache. -/
theorem total_owing (t : Config ι (CacheThread κ ν) (SharedCache κ ν)) :
    total (CacheThread.owing maxSize) t =
      ((Finset.univ.filter fun i => (t.locals i).willTrim maxSize).card,
        (Finset.univ.filter fun i => ¬ (t.locals i).willTrim maxSize).card) := by
  unfold total CacheThread.owing
  rw [Finset.card_filter, Finset.card_filter]
  refine Prod.ext ?_ ?_
  · rw [Prod.fst_sum]
    exact Finset.sum_congr rfl fun i _ => by split_ifs <;> rfl
  · rw [Prod.snd_sum]
    exact Finset.sum_congr rfl fun i _ => by split_ifs <;> rfl

/-- **The size under any interleaving.**  Where no size is negative and one
entry for each thread fits into an `int` beside the bound, no call throws, the
size is always the sum of the sizes of the entries, and it exceeds the bound
by at most one entry for each call that has still to trim the cache -- so not
at all once they have. -/
theorem lruCache_sized {c : LruCache κ ν} (hnew : LruCache.new maxSize = some c)
    (hsize : ∀ key value, 0 ≤ sizeOf key value ∧ sizeOf key value ≤ largest)
    (hfit : maxSize + Fintype.card ι * largest < 2 ^ 31)
    {t : Config ι (CacheThread κ ν) (SharedCache κ ν)}
    (hrun : Reach (CacheStep sizeOf) (cacheStart c) t) :
    (∀ i, t.locals i ≠ .threw) ∧
      t.shared.cache.size = entriesSize sizeOf t.shared.cache.map.rows ∧
      t.shared.cache.size ≤ maxSize +
        (Finset.univ.filter fun i => (t.locals i).willTrim maxSize).card * largest := by
  obtain ⟨hmax, hmap, hzero, hbound⟩ := LruCache.new_spec hnew
  have hinit : SizedWith sizeOf largest maxSize (Fintype.card ι)
      (total (CacheThread.owing maxSize) (cacheStart c : Config ι _ _)) c := by
    rw [total_owing]
    refine ⟨hbound, ?_, ?_, ?_⟩
    · simp [cacheStart, CacheThread.willTrim]
    · rw [hzero, hmap]
      rfl
    · rw [hzero]
      positivity
  obtain ⟨halone, htied⟩ := invariant_of_weight (CacheThread.Fine maxSize)
    (fun owing s => SizedWith sizeOf largest maxSize (Fintype.card ι) owing s.cache)
    (fun l g l' g' rest hl hg hstep => hg.step hsize hfit hmax hl hstep) hrun
    (fun _ => trivial) hinit
  refine ⟨fun i hthrew => ?_, htied.exact, ?_⟩
  · have := halone i
    rw [hthrew] at this
    exact this
  · have hexcess := htied.excess
    rwa [total_owing] at hexcess

/-- A new cache of one entry, into which a thread has put a value. -/
def onePut : Config Bool (CacheThread ℕ ℕ) (SharedCache ℕ ℕ) where
  locals := Function.update (fun _ => .idle) true (.trimming 1)
  shared := ⟨((⟨.empty, 0, 1, 0, 0, 0, 0, 0⟩ : LruCache ℕ ℕ).putValue (fun _ _ => 1) 5 7).1,
    [(5, 7)], []⟩

/-- Before it trims the cache, the other thread puts a value under the same
key. -/
def twoPuts : Config Bool (CacheThread ℕ ℕ) (SharedCache ℕ ℕ) where
  locals := Function.update onePut.locals false (.releasing ⟨false, 5, 7, some 8⟩ (some 1))
  shared := ⟨(onePut.shared.cache.putValue (fun _ _ => 1) 5 8).1, [(5, 7), (5, 8)], []⟩

/-- The interleaving: both threads come in before either of them trims. -/
theorem reach_twoPuts :
    Reach (CacheStep fun _ _ => 1) (cacheStart ⟨.empty, 0, 1, 0, 0, 0, 0, 0⟩) twoPuts := by
  have hone : Step (CacheStep fun _ _ => 1) (cacheStart ⟨.empty, 0, 1, 0, 0, 0, 0, 0⟩) onePut :=
    ⟨true, _, .put _ 5 7, rfl⟩
  have htwo : Step (CacheStep fun _ _ => 1) onePut twoPuts := ⟨false, _, .put _ 5 8, rfl⟩
  exact .tail (.single hone) htwo

/-- The bound for a cache of one entry, while both calls have yet to trim it. -/
theorem lruCache_sized_twoPuts :
    (∀ i, twoPuts.locals i ≠ .threw) ∧
      twoPuts.shared.cache.size = entriesSize (fun _ _ => 1) twoPuts.shared.cache.map.rows ∧
      twoPuts.shared.cache.size ≤ 1 +
        (Finset.univ.filter fun i => (twoPuts.locals i).willTrim 1).card * (1 : ℕ) :=
  lruCache_sized (rfl : LruCache.new 1 = some _) (fun _ _ => ⟨by decide, by decide⟩) (by decide)
    reach_twoPuts

end Size

/-! ## The values -/

section Values

variable {sizeOf : κ → ν → ℤ}

/-- The entry that goes. -/
def Removal.entry (removal : Removal κ ν) : κ × ν := (removal.key, removal.oldValue)

/-- The entry that the call is about to report. -/
def CacheThread.held : CacheThread κ ν → Multiset (κ × ν)
  | .releasing removal _ => {removal.entry}
  | _ => 0

/-- What came in is in the cache, or reported, or about to be. -/
def ConservedWith (held : Multiset (κ × ν)) (s : SharedCache κ ν) : Prop :=
  (s.inserted : Multiset (κ × ν)) =
    s.cache.map.rows + (s.released.map Removal.entry : Multiset (κ × ν)) + held

variable [DecidableEq κ]

/-- One step of one thread loses no value and reports none twice, whatever the
other threads hold.  One case for each critical section. -/
theorem ConservedWith.step (hsize : ∀ key value, 0 ≤ sizeOf key value)
    {l l' : CacheThread κ ν} {s s' : SharedCache κ ν} {rest : Multiset (κ × ν)}
    (h : ConservedWith (l.held + rest) s) (hstep : CacheStep sizeOf l s l' s') :
    ConservedWith (l'.held + rest) s' := by
  unfold ConservedWith at h ⊢
  cases hstep with
  | get _ key =>
      have hrows := Multiset.coe_eq_coe.mpr (s.cache.getCached_spec key).1
      cases (s.cache.getCached key).2 with
      | none => exact hrows ▸ h
      | some value => exact hrows ▸ h
  | createNothing _ key => exact h
  | create _ key createdValue =>
      rcases LruCache.putCreated_cases hsize s.cache key createdValue with
        ⟨value, c', hrun, hperm, -⟩ | ⟨c', hrun, hperm, -⟩
      · rw [hrun, ← Multiset.coe_add, h, Multiset.coe_eq_coe.mpr hperm]
        simp only [CacheThread.held, CacheThread.afterCreate, Removal.entry,
          Multiset.coe_singleton]
        abel
      · rw [hrun, ← Multiset.coe_add, Multiset.coe_singleton, h, Multiset.coe_eq_coe.mpr hperm,
          ← Multiset.cons_coe, ← Multiset.singleton_add]
        simp only [CacheThread.held, CacheThread.afterCreate]
        abel
  | put _ key value =>
      rw [if_neg (not_lt.mpr (hsize key value))]
      rcases LruCache.putValue_cases hsize s.cache key value with
        ⟨previous, c', hrun, hperm, -⟩ | ⟨c', hrun, hperm, -⟩
      · have hswap := Multiset.coe_eq_coe.mpr hperm
        rw [← Multiset.cons_coe, ← Multiset.cons_coe, ← Multiset.singleton_add,
          ← Multiset.singleton_add] at hswap
        rw [hrun, ← Multiset.coe_add, h]
        simp only [CacheThread.held, CacheThread.afterPut, Removal.entry, Multiset.coe_singleton]
        calc _ = ({(key, value)} + (s.cache.map.rows : Multiset (κ × ν))) +
              (s.released.map Removal.entry : Multiset (κ × ν)) + rest := by abel
          _ = _ := by rw [← hswap]; abel
      · rw [hrun, ← Multiset.coe_add, Multiset.coe_singleton, h, Multiset.coe_eq_coe.mpr hperm,
          ← Multiset.cons_coe, ← Multiset.singleton_add]
        simp only [CacheThread.held, CacheThread.afterPut]
        abel
  | remove _ key =>
      rcases LruCache.removeKey_cases hsize s.cache key with
        ⟨previous, c', hrun, hperm, -⟩ | ⟨hrun, -⟩
      · rw [hrun, h, Multiset.coe_eq_coe.mpr hperm, ← Multiset.cons_coe, ← Multiset.singleton_add]
        simp only [CacheThread.held, CacheThread.afterRemove, Removal.entry]
        abel
      · rw [hrun]
        exact h
  | evictAll => exact h
  | trim _ limit =>
      rcases LruCache.trimOnce_cases hsize limit s.cache with
        ⟨hrun, -⟩ | ⟨hrun, -⟩ | ⟨row, c', hrun, hrows, -, -, -⟩
      · rw [hrun]
        exact h
      · rw [hrun]
        exact h
      · rw [hrun, h, hrows, ← Multiset.cons_coe, ← Multiset.singleton_add]
        simp only [CacheThread.held, CacheThread.afterTrim, Removal.entry]
        abel
  | entryRemoved _ removal next =>
      have hafter : ((CacheThread.goOn next : CacheThread κ ν).held) = 0 := by
        cases next <;> rfl
      rw [hafter, h, List.map_append, ← Multiset.coe_add]
      simp only [CacheThread.held, List.map_singleton, Multiset.coe_singleton]
      abel

variable {ι : Type*} [Fintype ι] [DecidableEq ι]

/-- **No value is lost, none released twice.**  Under any interleaving, the
values that came in by `put` or `create` are, as a multiset, those in the
cache, those that `entryRemoved` was told of, and those that a call is about
to tell it of. -/
theorem lruCache_conserves {maxSize : ℤ} {c : LruCache κ ν}
    (hnew : LruCache.new maxSize = some c) (hsize : ∀ key value, 0 ≤ sizeOf key value)
    {t : Config ι (CacheThread κ ν) (SharedCache κ ν)}
    (hrun : Reach (CacheStep sizeOf) (cacheStart c) t) :
    (t.shared.inserted : Multiset (κ × ν)) =
      t.shared.cache.map.rows + (t.shared.released.map Removal.entry : Multiset (κ × ν)) +
        total CacheThread.held t := by
  have hinit : ConservedWith (total CacheThread.held (cacheStart c : Config ι _ _))
      ⟨c, [], []⟩ := by
    simp [ConservedWith, cacheStart, total, CacheThread.held, (LruCache.new_spec hnew).2.1,
      KeyedTable.empty]
  exact (invariant_of_weight (fun _ => True) ConservedWith
    (fun l g l' g' rest _ hg hstep => ⟨trivial, hg.step hsize hstep⟩) hrun
    (fun _ => trivial) hinit).2

/-- Of the two entries one is in the map, and the one it has replaced is in a
thread's hands. -/
theorem lruCache_conserves_twoPuts :
    (twoPuts.shared.inserted : Multiset (ℕ × ℕ)) =
      twoPuts.shared.cache.map.rows +
        (twoPuts.shared.released.map Removal.entry : Multiset (ℕ × ℕ)) +
        total CacheThread.held twoPuts :=
  lruCache_conserves (rfl : LruCache.new 1 = some _) (fun _ _ => by decide) reach_twoPuts

end Values

end CardScanner
