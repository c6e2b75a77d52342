import TinyKV.Lib.Machine

/-!
# Waiting on a condition variable

A thread sleeps on a condition variable when the data that it shares with others under a mutex
leaves it nothing to do. The others change the data, give the mutex back and notify after that. So
between a change and its notification the thread may sleep without a reason, and at no other time.

* `Monitor`: the data, what the thread sleeps for, and the notifications that are still to come.
  `Monitor.Step Ok`: its steps, if the thread goes to sleep only where `Ok` holds.
* `Monitor.Step.justified`: no wake-up is lost.
* `Machine.run_justified`: the same for the runs of a machine that is seen as a monitor.
-/

/-- A thread on its condition variable. -/
structure Monitor (σ ω : Type*) where
  data : σ
  /-- What the thread sleeps for; `none` if it is awake. -/
  asleep : Option ω
  /-- Changes whose notification is still to come. -/
  notifies : Nat

namespace Monitor

variable {σ ω : Type*}

/-- The steps of a thread that sleeps for `w` only where `Ok data w` holds, and of the others. -/
inductive Step (Ok : σ → ω → Prop) : Monitor σ ω → Monitor σ ω → Prop
  /-- A change that gives the thread nothing to do. -/
  | change {m : Monitor σ ω} (data : σ) (h : ∀ w, Ok m.data w → Ok data w) :
      Step Ok m { m with data := data }
  /-- A change that the thread is to be notified of. -/
  | announce {m : Monitor σ ω} (data : σ) :
      Step Ok m { m with data := data, notifies := m.notifies + 1 }
  | notify {m : Monitor σ ω} : Step Ok m { m with asleep := none, notifies := m.notifies - 1 }
  | sleep {m : Monitor σ ω} (w : ω) (h : Ok m.data w) : Step Ok m { m with asleep := some w }
  /-- The thread runs; a wait may end by itself. -/
  | run {m : Monitor σ ω} (data : σ) : Step Ok m { m with data := data, asleep := none }

/-- If the thread sleeps, and no notification is still to come, then it has nothing to do. -/
def Justified (Ok : σ → ω → Prop) (m : Monitor σ ω) : Prop :=
  m.notifies = 0 → ∀ w, m.asleep = some w → Ok m.data w

variable {Ok : σ → ω → Prop} {m m' : Monitor σ ω}

/-- **No wake-up is lost.** -/
theorem Step.justified (h : Step Ok m m') (hm : m.Justified Ok) : m'.Justified Ok := by
  cases h with
  | change data hok => exact fun hzero w hw => hok w (hm hzero w hw)
  | announce data => exact fun hzero => absurd hzero (Nat.succ_ne_zero _)
  | notify => exact fun _ _ hw => by cases hw
  | sleep w hok =>
    intro _ w' hw
    cases hw
    exact hok
  | run data => exact fun _ _ hw => by cases hw

/-- Nothing that the monitor sees. -/
theorem Step.refl (m : Monitor σ ω) : Step Ok m m := .change m.data fun _ h => h

end Monitor

namespace Machine

variable {σ τ ι ο ω : Type*} {M : Machine σ ι ο}

/-- A machine whose steps are steps of a monitor loses no wake-up. -/
theorem run_justified {Ok : τ → ω → Prop} (view : σ → Monitor τ ω)
    (hstep : ∀ s i s' o, M.step s i = some (s', o) → Monitor.Step Ok (view s) (view s'))
    {s t : σ} {is : List ι} {os : List ο} (hr : M.run s is = some (t, os))
    (hs : (view s).Justified Ok) : (view t).Justified Ok :=
  run_invariant (I := fun s => (view s).Justified Ok)
    (fun s i s' o h _ hi => (hstep s i s' o hi).justified h) (along_true s is) hr hs

end Machine
