import CardScanner.Machine
import CardScanner.Recency
import CardScanner.LruCache

/-!
# What `LruCache` holds

Calls made one after the other, on a cache that counts its entries (`sizeOf` is not
overridden).  A call is the blocks of `LruCache` run to its end; what it does to the
keys is one request of `Recency` (`CacheCall.run_counted`), so two general facts
become facts on the cache: a larger cache holds what a smaller one holds
(`lruCache_inclusion`), and a cache that is only loaded holds the most recently used
keys (`lruCache_recent`).
-/

namespace CardScanner

open Machine Recency

variable {κ ν : Type*} [DecidableEq κ]

namespace LruCache

variable (sizeOf : κ → ν → ℤ)

/-- A round of `trimToSize` as a step of its loop. -/
def trimStep (maxSize : ℤ) (c : LruCache κ ν) : Outcome (LruCache κ ν) (LruCache κ ν) :=
  match c.trimOnce sizeOf maxSize with
  | (_, none) => .fault
  | (c', some none) => .done c'
  | (c', some (some _)) => .next c'

/-- `trimToSize`: no more rounds than entries, and the one that ends the loop. -/
def trimToSize (maxSize : ℤ) (c : LruCache κ ν) : Option (LruCache κ ν) :=
  match runFor (trimStep sizeOf maxSize) (c.map.rows.length + 1) c with
  | .done c' => some c'
  | _ => none

/-- `get`, where `create` would return `created`.  The value that is there
wins over one that has been created. -/
def get (c : LruCache κ ν) (key : κ) (created : Option ν) :
    Option (LruCache κ ν × Option ν) :=
  match c.getCached key with
  | (c', some mapValue) => some (c', some mapValue)
  | (c', none) =>
      match created with
      | none => some (c', none)
      | some createdValue =>
          match c'.putCreated sizeOf key createdValue with
          | (_, none) => none
          | (c'', some (some mapValue)) => some (c'', some mapValue)
          | (c'', some none) =>
              (c''.trimToSize sizeOf c''.mMaxSize).map fun c => (c, some createdValue)

/-- `put`: the entry comes in, and then the cache is trimmed, which may drop
the entry itself. -/
def put (c : LruCache κ ν) (key : κ) (value : ν) : Option (LruCache κ ν × Option ν) :=
  match c.putValue sizeOf key value with
  | (_, none) => none
  | (c', some previous) => (c'.trimToSize sizeOf c'.mMaxSize).map fun c => (c, previous)

/-- `remove`, with the value that was there. -/
def remove (c : LruCache κ ν) (key : κ) : Option (LruCache κ ν × Option ν) :=
  match c.removeKey sizeOf key with
  | (_, none) => none
  | (c', some previous) => some (c', previous)

/-- `evictAll`: the cache is trimmed to less than nothing. -/
def evictAll (c : LruCache κ ν) : Option (LruCache κ ν) := c.trimToSize sizeOf (-1)

end LruCache

/-- The calls, each with what `create` would return. -/
inductive CacheCall (κ ν : Type*) where
  | get (key : κ) (created : Option ν)
  | put (key : κ) (value : ν)
  | remove (key : κ)
  | evictAll
  deriving DecidableEq, Repr

/-- The cache after a call that does not throw. -/
def CacheCall.run (sizeOf : κ → ν → ℤ) (c : LruCache κ ν) : CacheCall κ ν → Option (LruCache κ ν)
  | .get key created => (c.get sizeOf key created).map Prod.fst
  | .put key value => (c.put sizeOf key value).map Prod.fst
  | .remove key => (c.remove sizeOf key).map Prod.fst
  | .evictAll => c.evictAll sizeOf

/-- The request that a call is. -/
def CacheCall.request : CacheCall κ ν → Request κ
  | .get key (some _) => .touch key
  | .get key none => .peek key
  | .put key _ => .touch key
  | .remove key => .drop key
  | .evictAll => .clear

/-- The default `sizeOf`. -/
def countEntries (_ : κ) (_ : ν) : ℤ := 1

/-- The size is the number of entries, and no larger than the bound `n`. -/
structure LruCache.Counted (n : ℕ) (c : LruCache κ ν) : Prop where
  bound : c.mMaxSize = n
  size : c.size = c.map.rows.length
  fits : c.map.rows.length ≤ n

omit [DecidableEq κ] in
theorem countEntries_nonneg (key : κ) (value : ν) : 0 ≤ countEntries key value := zero_le_one

namespace LruCache

/-- `trimToSize` keeps the most recently used entries.  Every turn of its loop
drops the oldest one, until there are as many as allowed. -/
theorem trimToSize_spec {c : LruCache κ ν} (hsize : c.size = c.map.rows.length)
    (hint : (c.map.rows.length : ℤ) < 2 ^ 31) (maxSize : ℤ) :
    ∃ c', c.trimToSize countEntries maxSize = some c' ∧
      c'.map.keys = c.map.keys.rtake maxSize.toNat ∧
      c'.size = c'.map.rows.length ∧ c'.mMaxSize = c.mMaxSize := by
  suffices hloop : ∃ c',
      runFor (trimStep countEntries maxSize) (c.map.rows.length + 1) c = .done c' ∧
      c'.map.keys = c.map.keys.rtake maxSize.toNat ∧
      c'.size = c'.map.rows.length ∧ c'.mMaxSize = c.mMaxSize by
    obtain ⟨c', hrun, hspec⟩ := hloop
    exact ⟨c', by rw [trimToSize, hrun], hspec⟩
  induction hlength : c.map.rows.length generalizing c with
  | zero =>
      have hempty : c.map.rows = [] := List.length_eq_zero_iff.mp hlength
      have hkeys : c.map.keys = [] := by simp [KeyedTable.keys, hempty]
      have hround : trimStep countEntries maxSize c = .done c := by
        simp [trimStep, trimOnce, hsize, hempty]
      exact ⟨c, by simp [runFor, hround], by simp [hkeys], hsize, rfl⟩
  | succ n ih =>
      rcases trimOnce_cases countEntries_nonneg maxSize c with
        ⟨-, hbad⟩ | ⟨hrun, hfits⟩ | ⟨row, c', hrun, hrows, hlarge, hsub, hbound⟩
      · rcases hbad with hneg | ⟨hempty, -⟩
        · omega
        · simp [hempty] at hlength
      · refine ⟨c, by simp [runFor, trimStep, hrun], ?_, hsize, rfl⟩
        refine (rtake_of_length_le ?_).symm
        rw [KeyedTable.length_keys]
        rcases hfits with hle | ⟨hempty, -⟩
        · omega
        · simp [hempty] at hlength
      · have hlength' : c'.map.rows.length = n := by simpa [hrows] using hlength
        have hsize' : c'.size = c'.map.rows.length := by
          rw [hsub, countEntries, hsize, intOfLong_of_lt (by omega) (by omega)]
          omega
        obtain ⟨d, hloop, hkeys, hd, hd'⟩ := ih hsize' (by omega) hlength'
        refine ⟨d, ?_, ?_, hd, hd'.trans hbound⟩
        · rw [runFor, trimStep, hrun]
          exact hloop
        · have hcons : c.map.keys = [row.1] ++ c'.map.keys := by simp [KeyedTable.keys, hrows]
          rw [hkeys, hcons, rtake_append]
          rw [KeyedTable.length_keys]
          omega

/-- Once an entry has come in, the cache is trimmed, and keeps the newest
keys. -/
theorem Counted.trimmed {n : ℕ} (hn : (n : ℤ) + 1 < 2 ^ 31) {c c' : LruCache κ ν}
    (h : c.Counted n) {key : κ} {value : ν} (hmap : c'.map = c.map.access (key, value))
    (hsize : c'.size = c'.map.rows.length) (hbound : c'.mMaxSize = c.mMaxSize) :
    ∃ d, c'.trimToSize countEntries c'.mMaxSize = some d ∧ d.Counted n ∧
      d.map.keys = (moveLast c.map.keys key).rtake n := by
  have hkeys : c'.map.keys = moveLast c.map.keys key := by
    rw [hmap]
    exact KeyedTable.keys_access c.map (key, value)
  have hlength : c'.map.rows.length ≤ n + 1 := by
    have hfilter := List.length_filter_le (· ≠ key) c.map.keys
    have hfits := h.fits
    rw [← KeyedTable.length_keys] at hfits
    rw [← KeyedTable.length_keys, hkeys, moveLast, List.length_append, List.length_singleton]
    omega
  obtain ⟨d, hrun, hd, hdsize, hdbound⟩ := trimToSize_spec hsize (by omega) c'.mMaxSize
  have hmax : c'.mMaxSize.toNat = n := by rw [hbound, h.bound, Int.toNat_natCast]
  rw [hkeys, hmax] at hd
  refine ⟨d, hrun, ⟨hdbound.trans (hbound.trans h.bound), hdsize, ?_⟩, hd⟩
  rw [← KeyedTable.length_keys, hd, length_rtake]
  exact min_le_left _ _

/-- `get` of a key that is there: the key becomes the last one, and nothing is
trimmed. -/
theorem Counted.get_of_mem {n : ℕ} {c : LruCache κ ν} (h : c.Counted n) {key : κ}
    (hmem : key ∈ c.map.keys) (created : Option ν) :
    ∃ c' value, c.get countEntries key created = some (c', some value) ∧ c'.Counted n ∧
      c'.map.keys = moveLast c.map.keys key := by
  obtain ⟨row, hrow⟩ := Option.isSome_iff_exists.mp (KeyedTable.lookup_isSome_iff.mpr hmem)
  have hkey := (KeyedTable.lookup_eq_some hrow).2
  have hkeys : (c.map.access row).keys = moveLast c.map.keys key := by
    rw [KeyedTable.keys_access, hkey]
    rfl
  have hlength : (c.map.access row).rows.length = c.map.rows.length := by
    rw [← KeyedTable.length_keys, hkeys, length_moveLast_of_mem c.map.nodup_keys hmem,
      KeyedTable.length_keys]
  refine ⟨{ c with map := c.map.access row, hitCount := intOfLong (c.hitCount + 1) }, row.2,
    by simp [get, getCached, hrow], ⟨h.bound, ?_, ?_⟩, hkeys⟩
  · exact h.size.trans (by simp only [hlength])
  · simp only [hlength, h.fits]

/-- `get` of a key that is not there, where nothing is created: a miss is
counted. -/
theorem Counted.get_of_notMem {n : ℕ} {c : LruCache κ ν} (h : c.Counted n) {key : κ}
    (hmem : key ∉ c.map.keys) :
    ∃ c', c.get countEntries key none = some (c', none) ∧ c'.Counted n ∧
      c'.map.keys = c.map.keys := by
  have hmiss : c.map.lookup key = none := KeyedTable.lookup_eq_none.mpr hmem
  exact ⟨{ c with missCount := intOfLong (c.missCount + 1) }, by simp [get, getCached, hmiss],
    ⟨h.bound, h.size, h.fits⟩, rfl⟩

/-- `get` of a key that is not there, where a value is created: it comes in,
and the cache is trimmed. -/
theorem Counted.get_created {n : ℕ} (hn : (n : ℤ) + 1 < 2 ^ 31) {c : LruCache κ ν}
    (h : c.Counted n) {key : κ} (hmem : key ∉ c.map.keys) (createdValue : ν) :
    ∃ c', c.get countEntries key (some createdValue) = some (c', some createdValue) ∧
      c'.Counted n ∧ c'.map.keys = (moveLast c.map.keys key).rtake n := by
  have hfits := h.fits
  have hmiss : c.map.lookup key = none := KeyedTable.lookup_eq_none.mpr hmem
  rcases putCreated_cases countEntries_nonneg
    { c with missCount := intOfLong (c.missCount + 1) } key createdValue with
    ⟨-, -, -, -, -, -, hin⟩ | ⟨c', hrun, hperm, hadd, hbound, hmap⟩
  · exact absurd hin hmem
  · have hsize : c'.size = c'.map.rows.length := by
      rw [hadd, hperm.length_eq, List.length_cons, countEntries, h.size,
        intOfLong_of_lt (by omega) (by omega)]
      push_cast
      ring
    obtain ⟨d, htrim, hd, hkeys⟩ := h.trimmed hn hmap hsize hbound
    exact ⟨d, by simp [get, getCached, hmiss, hrun, htrim], hd, hkeys⟩

/-- The block of `put` leaves the number of entries in `size`: a new key adds
one, and the value of an old one is counted in before the previous is counted
out. -/
theorem Counted.putValue {n : ℕ} (hn : (n : ℤ) + 1 < 2 ^ 31) {c : LruCache κ ν}
    (h : c.Counted n) (key : κ) (value : ν) :
    ∃ previous c', c.putValue countEntries key value = (c', some previous) ∧
      c'.size = c'.map.rows.length ∧ c'.mMaxSize = c.mMaxSize ∧
      c'.map = c.map.access (key, value) := by
  have hfits := h.fits
  rcases putValue_cases countEntries_nonneg c key value with
    ⟨previous, c', hrun, hperm, hadd, hbound, hmap⟩ | ⟨c', hrun, hperm, hadd, hbound, hmap⟩
  · refine ⟨some previous, c', hrun, ?_, hbound, hmap⟩
    have hlength := hperm.length_eq
    rw [List.length_cons, List.length_cons] at hlength
    have hfirst : intOfLong ((c.map.rows.length : ℤ) + 1) = c.map.rows.length + 1 :=
      intOfLong_of_lt (by omega) (by omega)
    rw [hadd, countEntries, countEntries, h.size, hfirst, intOfLong_of_lt (by omega) (by omega)]
    omega
  · refine ⟨none, c', hrun, ?_, hbound, hmap⟩
    have hlength := hperm.length_eq
    rw [List.length_cons] at hlength
    rw [hadd, countEntries, h.size, intOfLong_of_lt (by omega) (by omega)]
    omega

/-- `put`: the key becomes the last one, and the cache is trimmed. -/
theorem Counted.put {n : ℕ} (hn : (n : ℤ) + 1 < 2 ^ 31) {c : LruCache κ ν} (h : c.Counted n)
    (key : κ) (value : ν) :
    ∃ c' previous, c.put countEntries key value = some (c', previous) ∧ c'.Counted n ∧
      c'.map.keys = (moveLast c.map.keys key).rtake n := by
  obtain ⟨previous, c', hrun, hsize, hbound, hmap⟩ := h.putValue hn key value
  obtain ⟨d, htrim, hd, hkeys⟩ := h.trimmed hn hmap hsize hbound
  exact ⟨d, previous, by simp [LruCache.put, hrun, htrim], hd, hkeys⟩

/-- `remove`: the key goes, if it is there, and the others keep their order. -/
theorem Counted.remove {n : ℕ} (hn : (n : ℤ) + 1 < 2 ^ 31) {c : LruCache κ ν} (h : c.Counted n)
    (key : κ) :
    ∃ c' previous, c.remove countEntries key = some (c', previous) ∧ c'.Counted n ∧
      c'.map.keys = c.map.keys.filter (· ≠ key) := by
  have hfits := h.fits
  rcases removeKey_cases countEntries_nonneg c key with
    ⟨previous, c', hrun, hperm, hsub, hbound, hmap⟩ | ⟨hrun, hmem⟩
  · have hlength := hperm.length_eq
    rw [List.length_cons] at hlength
    refine ⟨c', some previous, by simp [LruCache.remove, hrun],
      ⟨hbound.trans h.bound, ?_, by omega⟩, ?_⟩
    · rw [hsub, countEntries, h.size, intOfLong_of_lt (by omega) (by omega)]
      omega
    · rw [hmap]
      exact KeyedTable.keys_erase c.map key
  · exact ⟨c, none, by simp [LruCache.remove, hrun], h, (filter_ne_of_notMem hmem).symm⟩

/-- `evictAll`: nothing is left. -/
theorem Counted.evictAll {n : ℕ} (hn : (n : ℤ) + 1 < 2 ^ 31) {c : LruCache κ ν}
    (h : c.Counted n) :
    ∃ c', c.evictAll countEntries = some c' ∧ c'.Counted n ∧ c'.map.keys = [] := by
  have hfits := h.fits
  obtain ⟨d, htrim, hkeys, hd, hbound⟩ := trimToSize_spec h.size (by omega) (-1)
  have hempty : d.map.keys = [] := by simpa using hkeys
  refine ⟨d, htrim, ⟨hbound.trans h.bound, hd, ?_⟩, hempty⟩
  rw [← KeyedTable.length_keys, hempty]
  exact Nat.zero_le n

end LruCache

/-- **What a call does to the keys.**  On a cache that counts its entries no
call throws, and each is its request: the cases are the lemmas on `get`,
`put`, `remove` and `evictAll` above. -/
theorem CacheCall.run_counted {n : ℕ} (hn : (n : ℤ) + 1 < 2 ^ 31) {c : LruCache κ ν}
    (h : c.Counted n) (call : CacheCall κ ν) :
    ∃ c', call.run countEntries c = some c' ∧ c'.Counted n ∧
      c'.map.keys = call.request.apply n c.map.keys := by
  cases call with
  | get key created =>
      by_cases hmem : key ∈ c.map.keys
      · obtain ⟨c', value, hrun, hc', hkeys⟩ := h.get_of_mem hmem created
        refine ⟨c', by simp [run, hrun], hc', ?_⟩
        cases created with
        | none =>
            simp only [request, Request.apply, if_pos hmem]
            exact hkeys
        | some createdValue =>
            refine hkeys.trans (rtake_of_length_le ?_).symm
            rw [length_moveLast_of_mem c.map.nodup_keys hmem, KeyedTable.length_keys]
            exact h.fits
      · cases created with
        | none =>
            obtain ⟨c', hrun, hc', hkeys⟩ := h.get_of_notMem hmem
            refine ⟨c', by simp [run, hrun], hc', hkeys.trans ?_⟩
            simp only [request, Request.apply, if_neg hmem]
        | some createdValue =>
            obtain ⟨c', hrun, hc', hkeys⟩ := h.get_created hn hmem createdValue
            exact ⟨c', by simp [run, hrun], hc', hkeys⟩
  | put key value =>
      obtain ⟨c', previous, hrun, hc', hkeys⟩ := h.put hn key value
      exact ⟨c', by simp [run, hrun], hc', hkeys⟩
  | remove key =>
      obtain ⟨c', previous, hrun, hc', hkeys⟩ := h.remove hn key
      exact ⟨c', by simp [run, hrun], hc', hkeys⟩
  | evictAll => exact h.evictAll hn

/-- Calls one after the other. -/
def runCalls (sizeOf : κ → ν → ℤ) (c : LruCache κ ν) (calls : List (CacheCall κ ν)) :
    Option (LruCache κ ν) :=
  calls.foldlM (CacheCall.run sizeOf) c

/-- On a cache that counts its entries calls are the requests they stand for. -/
theorem runCalls_counted {n : ℕ} (hn : (n : ℤ) + 1 < 2 ^ 31) {c : LruCache κ ν}
    (h : c.Counted n) (calls : List (CacheCall κ ν)) :
    ∃ c', runCalls countEntries c calls = some c' ∧ c'.Counted n ∧
      c'.map.keys = (calls.map CacheCall.request).foldl (Request.apply n) c.map.keys := by
  induction calls generalizing c with
  | nil => exact ⟨c, rfl, h, rfl⟩
  | cons call calls ih =>
      obtain ⟨d, hcall, hd, hkeys⟩ := call.run_counted hn h
      obtain ⟨c', hrun, hc', hkeys'⟩ := ih hd
      refine ⟨c', ?_, hc', ?_⟩
      · simp only [runCalls, List.foldlM_cons, hcall]
        exact hrun
      · rw [hkeys', hkeys]
        rfl

omit [DecidableEq κ] in
theorem LruCache.counted_of_new {n : ℕ} {c : LruCache κ ν} (h : LruCache.new n = some c) :
    c.Counted n ∧ c.map.keys = [] := by
  obtain ⟨-, hmap, hsize, hbound⟩ := LruCache.new_spec h
  exact ⟨⟨hbound, by rw [hsize, hmap]; rfl, by rw [hmap]; exact Nat.zero_le n⟩, by rw [hmap]; rfl⟩

/-- **A larger cache holds what a smaller one holds.**  After the same calls
on two new caches that count their entries, the keys of the smaller are among
those of the larger, in the same order of use: what is a hit in the one is a
hit in the other. -/
theorem lruCache_inclusion {n m : ℕ} (hnm : n ≤ m) (hm : (m : ℤ) + 1 < 2 ^ 31)
    {small large : LruCache κ ν} (hsmall : LruCache.new n = some small)
    (hlarge : LruCache.new m = some large) (calls : List (CacheCall κ ν)) :
    ∃ small' large', runCalls countEntries small calls = some small' ∧
      runCalls countEntries large calls = some large' ∧
      small'.map.keys.Sublist large'.map.keys := by
  obtain ⟨hcounted, hkeys⟩ := LruCache.counted_of_new hsmall
  obtain ⟨hcounted', hkeys'⟩ := LruCache.counted_of_new hlarge
  obtain ⟨small', hrun, -, hend⟩ := runCalls_counted (by omega) hcounted calls
  obtain ⟨large', hrun', -, hend'⟩ := runCalls_counted hm hcounted' calls
  refine ⟨small', large', hrun, hrun', ?_⟩
  rw [hend, hend', hkeys, hkeys']
  have hstart : Inclusion n m ([] : List κ) [] :=
    ⟨.refl _, List.nodup_nil, Nat.zero_le _, Nat.zero_le _, by simpa using hnm⟩
  exact (hstart.foldl (calls.map CacheCall.request)).sublist

theorem lruCache_inclusion_three :
    ∃ small' large' : LruCache ℕ ℕ,
      runCalls countEntries ⟨.empty, 0, (1 : ℕ), 0, 0, 0, 0, 0⟩
        [.put 1 10, .put 2 20, .get 1 none] = some small' ∧
      runCalls countEntries ⟨.empty, 0, (2 : ℕ), 0, 0, 0, 0, 0⟩
        [.put 1 10, .put 2 20, .get 1 none] = some large' ∧
      small'.map.keys.Sublist large'.map.keys :=
  lruCache_inclusion (n := 1) (m := 2) (by decide) (by decide) rfl rfl _

/-- The key of a call that loads the cache if the key is not there: a `put`,
or a `get` with a value from `create`. -/
def CacheCall.loads : CacheCall κ ν → Option κ
  | .get key (some _) => some key
  | .put key _ => some key
  | _ => none

/-- **Which keys are held.**  After calls each of which loads its key if it is
not there, a new cache of `n` entries holds the `n` keys used last, in order
of use. -/
theorem lruCache_recent {n : ℕ} (hn : (n : ℤ) + 1 < 2 ^ 31) {c : LruCache κ ν}
    (hnew : LruCache.new n = some c) {calls : List (CacheCall κ ν)} {keys : List κ}
    (hkeys : calls.map CacheCall.loads = keys.map some) :
    ∃ c', runCalls countEntries c calls = some c' ∧ c'.map.keys = keys.dedup.rtake n := by
  obtain ⟨hcounted, hempty⟩ := LruCache.counted_of_new hnew
  have hpos : 0 < n := by exact_mod_cast (LruCache.new_spec hnew).1
  obtain ⟨c', hrun, -, hend⟩ := runCalls_counted hn hcounted calls
  have hrequests : calls.map CacheCall.request = keys.map Request.touch := by
    clear hend hrun
    induction calls generalizing keys with
    | nil =>
        have hnil : keys = [] := List.map_eq_nil_iff.mp hkeys.symm
        simp [hnil]
    | cons call calls ih =>
        cases keys with
        | nil => simp at hkeys
        | cons key keys =>
            simp only [List.map_cons, List.cons.injEq] at hkeys ⊢
            refine ⟨?_, ih hkeys.2⟩
            have hload := hkeys.1
            cases call with
            | get other created =>
                cases created with
                | none => simp [CacheCall.loads] at hload
                | some value => exact congrArg Request.touch (Option.some.inj hload)
            | put other value => exact congrArg Request.touch (Option.some.inj hload)
            | remove other => simp [CacheCall.loads] at hload
            | evictAll => simp [CacheCall.loads] at hload
  refine ⟨c', hrun, ?_⟩
  rw [hend, hempty, hrequests]
  exact recent_touches hpos keys

theorem lruCache_recent_three :
    ∃ c' : LruCache ℕ ℕ,
      runCalls countEntries ⟨.empty, 0, (2 : ℕ), 0, 0, 0, 0, 0⟩
        [.put 1 10, .get 2 (some 20), .put 1 30] = some c' ∧
      c'.map.keys = [1, 2, 1].dedup.rtake 2 :=
  lruCache_recent (n := 2) (by decide) rfl rfl

end CardScanner
