import CardScanner.ArrayLists

/-!
# Life-cycle listeners

`MonitorActivity.onDestroy` goes through the registered listeners with a
for-each loop, and a `BackgroundJob` answers the call by taking itself off the
list.  The first listener that does so ends the loop: with the exception of the
iterator, or, if it is the last but one, without the call of the last
(`onDestroy_of_unregisters`).  So every listener is called exactly once
precisely when none of them takes itself off (`notifiesAll_iff`).
-/

namespace CardScanner

open ArrayList

/-! ## The activity -/

/-- `MonitorActivity`: its listeners are registered once. -/
structure MonitorActivity (L : Type*) where
  listeners : ArrayList L
  nodup : listeners.elementData.Nodup

variable {L : Type*} [DecidableEq L]

namespace MonitorActivity

/-- `addLifeCycleListener`: a listener that is in the list already is not
added again. -/
def addLifeCycleListener (activity : MonitorActivity L) (listener : L) : MonitorActivity L :=
  if h : listener ∈ activity.listeners.elementData then activity
  else ⟨activity.listeners.add listener, by
    rw [ArrayList.add, ← List.concat_eq_append]
    exact activity.nodup.concat h⟩

/-- `removeLifeCycleListener`, which changes nothing if the listener is not in
the list. -/
def removeLifeCycleListener (activity : MonitorActivity L) (listener : L) : MonitorActivity L where
  listeners := activity.listeners.remove listener
  nodup := by
    unfold ArrayList.remove
    split_ifs
    · exact activity.nodup.erase listener
    · exact activity.nodup

end MonitorActivity

/-- The activity while it is destroyed, and the listeners called so far. -/
structure Destroying (L : Type*) where
  activity : MonitorActivity L
  called : List L

variable (unregisters : L → Bool)

/-- `onActivityDestroyed` of a listener; `unregisters` tells whether it takes
itself off the list, as `BackgroundJob` does. -/
def onActivityDestroyed (s : Destroying L) (listener : L) : Destroying L where
  activity :=
    if unregisters listener then s.activity.removeLifeCycleListener listener else s.activity
  called := s.called ++ [listener]

/-- The list the loop goes through. -/
def Destroying.listeners (s : Destroying L) : ArrayList L := s.activity.listeners

/-- How `onDestroy` ends. -/
def OnDestroy (activity : MonitorActivity L) (result : Except IterException (Destroying L)) :
    Prop :=
  ForEach Destroying.listeners (onActivityDestroyed unregisters) ⟨activity, []⟩ result

/-- `onDestroy` comes to its end, and every listener that was registered when
it started has been called exactly once. -/
def NotifiesAll (activity : MonitorActivity L) : Prop :=
  ∃ s, OnDestroy unregisters activity (.ok s) ∧
    ∀ listener ∈ activity.listeners.elementData, s.called.count listener = 1

variable {unregisters}

/-! ## The calls -/

/-- The loop records its calls in order. -/
theorem called_foldl (listeners : List L) (s : Destroying L) :
    (listeners.foldl (onActivityDestroyed unregisters) s).called = s.called ++ listeners := by
  induction listeners generalizing s with
  | nil => exact (List.append_nil _).symm
  | cons listener listeners ih =>
      rw [List.foldl_cons, ih]
      simp [onActivityDestroyed]

/-- A listener that stays leaves the list alone. -/
theorem onActivityDestroyed_listeners {s : Destroying L} {listener : L}
    (h : unregisters listener = false) :
    (onActivityDestroyed unregisters s listener).listeners = s.listeners := by
  simp [onActivityDestroyed, Destroying.listeners, h]

/-- One that does unregister itself is gone from the list, which counts as
modified once more. -/
theorem onActivityDestroyed_removed {s : Destroying L} {listener : L} {before after : List L}
    (h : unregisters listener = true)
    (hlist : s.listeners.elementData = before ++ listener :: after) :
    (onActivityDestroyed unregisters s listener).listeners =
      ⟨before ++ after, s.listeners.modCount + 1⟩ := by
  unfold Destroying.listeners at hlist ⊢
  have hmem : listener ∈ s.activity.listeners.elementData := by
    rw [hlist]
    exact List.mem_append_right before List.mem_cons_self
  have hnot : listener ∉ before := by
    have hnodup := s.activity.nodup
    rw [hlist, List.nodup_append] at hnodup
    exact fun hb => hnodup.2.2 listener hb listener List.mem_cons_self rfl
  simp only [onActivityDestroyed, h, if_true, MonitorActivity.removeLifeCycleListener,
    ArrayList.remove, hmem]
  rw [hlist, List.erase_append_right _ hnot, List.erase_cons_head]

/-! ## How the loop ends -/

/-- If every listener stays, all are called. -/
theorem onDestroy_of_all_stay {activity : MonitorActivity L}
    (h : ∀ listener ∈ activity.listeners.elementData, unregisters listener = false) :
    ∃ s, OnDestroy unregisters activity (.ok s) ∧ s.called = activity.listeners.elementData := by
  refine ⟨_, forEach_ok fun s listener hlistener => ?_, ?_⟩
  · exact onActivityDestroyed_listeners (h listener hlistener)
  · rw [called_foldl]
    rfl

/-- **The first listener that takes itself off ends the loop.**  If one
listener is left behind it, the loop ends there and calls no more; otherwise,
even if none is left, the iterator throws. -/
theorem onDestroy_of_unregisters {activity : MonitorActivity L} {before after : List L}
    {listener : L} (hlist : activity.listeners.elementData = before ++ listener :: after)
    (hbefore : ∀ other ∈ before, unregisters other = false) (h : unregisters listener = true) :
    if after.length = 1 then
      ∃ s, OnDestroy unregisters activity (.ok s) ∧ s.called = before ++ [listener]
    else OnDestroy unregisters activity (.error .concurrentModification) := by
  have hkept : ∀ s : Destroying L, ∀ other ∈ before,
      (onActivityDestroyed unregisters s other).listeners = s.listeners :=
    fun s other hother => onActivityDestroyed_listeners (hbefore other hother)
  have hstart : (Destroying.listeners ⟨activity, []⟩).elementData = before ++ listener :: after :=
    hlist
  have hsame := list_foldl hkept ⟨activity, []⟩
  have hremoved := onActivityDestroyed_removed h ((congrArg elementData hsame).trans hstart)
  have hmodified := forEach_of_modified hstart hkept (by
    rw [hremoved, hsame]
    exact Nat.succ_ne_self _)
  rw [hremoved, List.length_append] at hmodified
  split_ifs with hone
  · rw [if_pos (by rw [hone])] at hmodified
    refine ⟨_, hmodified, ?_⟩
    simp [onActivityDestroyed, called_foldl]
  · rwa [if_neg (by omega)] at hmodified

/-- **Everyone is called once exactly when everyone stays.**  A list that
loses its last but one listener during that one's call ends the loop quietly,
and the one behind has not been called. -/
theorem notifiesAll_iff (activity : MonitorActivity L) :
    NotifiesAll unregisters activity ↔
      ∀ listener ∈ activity.listeners.elementData, unregisters listener = false := by
  constructor
  · intro ⟨s, hreturns, hcalled⟩
    cases hfind : activity.listeners.elementData.find? unregisters with
    | none => simpa using List.find?_eq_none.mp hfind
    | some first =>
        obtain ⟨hfirst, before, after, hlist, hbefore⟩ := List.find?_eq_some_iff_append.mp hfind
        have hend := onDestroy_of_unregisters hlist (by simpa using hbefore) hfirst
        split_ifs at hend with hone
        · obtain ⟨t, ht, hprefix⟩ := hend
          obtain ⟨last, rfl⟩ := List.length_eq_one_iff.mp hone
          have hnodup := activity.nodup
          rw [hlist, List.append_cons, List.nodup_append] at hnodup
          have hlast := hcalled last (by rw [hlist]; simp)
          rw [Except.ok.inj (hreturns.unique ht), hprefix, List.count_eq_zero_of_not_mem] at hlast
          · exact absurd hlast (by decide)
          · intro hmem
            exact hnodup.2.2 last hmem last (List.mem_singleton.mpr rfl) rfl
        · cases hreturns.unique hend
  · intro hstay
    obtain ⟨s, hreturns, hcalled⟩ := onDestroy_of_all_stay hstay
    refine ⟨s, hreturns, fun listener hmem => ?_⟩
    rw [hcalled]
    exact List.count_eq_one_of_mem activity.nodup hmem

/-- The first listener is a `BackgroundJob`. -/
def firstUnregisters (listener : ℕ) : Bool := listener == 0

/-- Two listeners, registered one after the other. -/
def twoListeners : MonitorActivity ℕ :=
  ((⟨⟨[], 0⟩, List.nodup_nil⟩ : MonitorActivity ℕ).addLifeCycleListener 0).addLifeCycleListener 1

/-- The second is never called, and nothing is thrown. -/
theorem not_notifiesAll :
    ¬ ∀ (unregisters : ℕ → Bool) (activity : MonitorActivity ℕ),
      NotifiesAll unregisters activity := by
  intro h
  obtain ⟨s, hreturns, hcalled⟩ := h firstUnregisters twoListeners
  have hlist : twoListeners.listeners.elementData = [] ++ 0 :: [1] := rfl
  have hfirst : firstUnregisters 0 = true := rfl
  obtain ⟨t, ht, hprefix⟩ := onDestroy_of_unregisters hlist (by simp) hfirst
  have hlast := hcalled 1 (by decide)
  rw [Except.ok.inj (hreturns.unique ht), hprefix] at hlast
  exact absurd hlast (by decide)

end CardScanner
