import TinyKV.Lib.Cpp
import Mathlib.Data.Finmap

/-!
# `ExpiryManager`: the TTL table and its lazily cleaned heap

`src/storage/expiry_manager.cpp`. `currentExpiry_` is the live deadline of each key; `heap_` has an
entry for every deadline that was ever scheduled and not popped yet, stale ones included.

* Times are nanoseconds of `steady_clock`. A reading (`Now`) is a non-negative 64-bit count since
  the clock's epoch; a deadline is whatever the 64-bit addition gave.
* `heap_` is a `std::priority_queue` ordered by `when` only. Which of several earliest entries is
  on top is not specified, so the heap is a list here and `IsTop` is any earliest entry.
* `popTop` is one pop of `sweepLoop`: it takes the entry out and, if it is the key's live deadline,
  ends that deadline and names the key for `onExpire`. The loop itself is in `Storage/Sweeper.lean`.
* `ExpiryManager.Queued`: every live deadline has its entry in the heap. Every operation keeps it.
-/

namespace TinyKV

/-- A reading of `steady_clock`. -/
structure Now where
  ns : Int
  isInt64 : 0 ≤ ns ∧ ns < 2 ^ 63
  deriving DecidableEq

/-- The reading at the clock's epoch. -/
def Now.epoch : Now := ⟨0, by decide⟩

def Now.tenSeconds : Now := ⟨10 * 10 ^ 9, by decide⟩

structure HeapEntry where
  when : Int
  key : Bytes
  deriving DecidableEq, Repr

structure ExpiryManager where
  heap : List HeapEntry
  currentExpiry : Finmap fun _ : Bytes => Int

namespace ExpiryManager

def empty : ExpiryManager := ⟨[], ∅⟩

def schedule (em : ExpiryManager) (key : Bytes) (expiresAt : Int) : ExpiryManager :=
  { currentExpiry := em.currentExpiry.insert key expiresAt
    heap := ⟨expiresAt, key⟩ :: em.heap }

def cancel (em : ExpiryManager) (key : Bytes) : ExpiryManager :=
  { em with currentExpiry := em.currentExpiry.erase key }

def expiryOf (em : ExpiryManager) (key : Bytes) : Option Int := em.currentExpiry.lookup key

/-- `e` can be `heap_.top()`. -/
def IsTop (em : ExpiryManager) (e : HeapEntry) : Prop :=
  e ∈ em.heap ∧ ∀ e' ∈ em.heap, e.when ≤ e'.when

instance (em : ExpiryManager) (e : HeapEntry) : Decidable (em.IsTop e) :=
  inferInstanceAs (Decidable (_ ∧ _))

/-- `heap_.pop()` of the top `e`, with the liveness check; the key to expire, if `e` is live. -/
def popTop (em : ExpiryManager) (e : HeapEntry) : ExpiryManager × Option Bytes :=
  if em.currentExpiry.lookup e.key = some e.when then
    ({ heap := em.heap.erase e, currentExpiry := em.currentExpiry.erase e.key }, some e.key)
  else ({ em with heap := em.heap.erase e }, none)

/-! ## The live deadlines -/

variable (em : ExpiryManager)

theorem expiryOf_schedule (k x : Bytes) (t : Int) :
    (em.schedule k t).expiryOf x = if x = k then some t else em.expiryOf x := by
  unfold expiryOf schedule
  split
  · rename_i h; subst h; exact Finmap.lookup_insert _
  · rename_i h; exact Finmap.lookup_insert_of_ne _ h

theorem expiryOf_cancel (k x : Bytes) :
    (em.cancel k).expiryOf x = if x = k then none else em.expiryOf x := by
  unfold expiryOf cancel
  split
  · rename_i h; subst h; exact Finmap.lookup_erase _ _
  · rename_i h; exact Finmap.lookup_erase_ne h

/-- A pop of a live entry ends that deadline; a pop of a stale one changes no deadline. -/
theorem popTop_spec (e : HeapEntry) :
    (em.popTop e).2 = (if em.expiryOf e.key = some e.when then some e.key else none) ∧
    ∀ x, (em.popTop e).1.expiryOf x =
      if em.expiryOf e.key = some e.when ∧ x = e.key then none else em.expiryOf x := by
  unfold popTop expiryOf
  by_cases hl : em.currentExpiry.lookup e.key = some e.when
  · rw [if_pos hl, if_pos hl]
    refine ⟨rfl, fun x => ?_⟩
    by_cases hx : x = e.key
    · rw [if_pos ⟨hl, hx⟩, hx]
      exact Finmap.lookup_erase _ _
    · rw [if_neg fun h => hx h.2]
      exact Finmap.lookup_erase_ne hx
  · rw [if_neg hl, if_neg hl]
    refine ⟨rfl, fun x => ?_⟩
    rw [if_neg fun h => hl h.1]

theorem heap_popTop (e : HeapEntry) : (em.popTop e).1.heap = em.heap.erase e := by
  unfold popTop
  split <;> rfl

/-! ## The heap -/

/-- Every live deadline has its entry in the heap. -/
def Queued (em : ExpiryManager) : Prop := ∀ x d, em.expiryOf x = some d → ⟨d, x⟩ ∈ em.heap

variable {em}

theorem Queued.cancel (h : em.Queued) (key : Bytes) : (em.cancel key).Queued := by
  intro x d hx
  rw [expiryOf_cancel] at hx
  split at hx
  · cases hx
  · exact h x d hx

theorem Queued.schedule (h : em.Queued) (key : Bytes) (t : Int) : (em.schedule key t).Queued := by
  intro x d hx
  rw [expiryOf_schedule] at hx
  split at hx
  · rename_i hk
    cases hx
    rw [hk]
    exact List.mem_cons_self
  · exact List.mem_cons_of_mem _ (h x d hx)

theorem Queued.popTop (h : em.Queued) (e : HeapEntry) : (em.popTop e).1.Queued := by
  intro x d hx
  rw [(em.popTop_spec e).2] at hx
  rw [heap_popTop]
  split at hx
  · cases hx
  · rename_i hlive
    refine (List.mem_erase_of_ne ?_).mpr (h x d hx)
    -- The entry that was popped is not live, or it is of another key.
    rintro rfl
    exact hlive ⟨hx, rfl⟩

end ExpiryManager

end TinyKV
