import TinyKV.Lib.Monitor
import Mathlib.Data.Int.ModEq
import Mathlib.Data.List.ReduceOption

/-!
# The timer of the persistence manager

`PersistenceManager::timerLoop` in `src/persistence/persistence_manager.cpp` waits for a second at a
time, with `cvMutex_`, and gives the pool a flush after each wait and a snapshot after every
`saveIntervalSeconds`-th. It holds the mutex but while it waits. `stop` clears `running_` under the
mutex and notifies when it has given it back.

* `timerMachine`: the thread, the calls of `stop` and the clock in milliseconds, in any order. A
  wait ends when the clock has reached its deadline, or by itself; the next one begins after the
  body.
* `schedule`: the tasks of the first rounds. `TimerInv`, `timerInv_step`: what was given to the pool
  is the schedule, and a round takes a second at least.
* `Prompt`: the thread is late by a given time at most. `timerDeadline_step`: what a step does to the
  deadline. `OnTime`, `PromptInv`: what follows for the deadlines.
* `flushes_every_second`: the rounds are those of the seconds gone by, up to the delays.
* `timer_stops`: after `stop` no task comes, and the thread ends with its next step.

`secondsSinceSnapshot` does not wrap: that takes 2^31 seconds.
-/

namespace TinyKV

/-! ## The machine -/

/-- A background task. -/
inductive TimerTask where
  /-- `aofWriter_.flush()` -/
  | flush
  /-- `save()` -/
  | save
  deriving DecidableEq

/-- Where the thread is, with the time at which its wait is over or was to be. -/
inductive TimerPhase where
  /-- It has not locked the mutex yet. -/
  | starting (deadline : Int)
  /-- Asleep in `wait_for`. -/
  | waiting (deadline : Int)
  /-- Woken up; the lock and the test of the predicate are next. -/
  | woken (deadline : Int)
  /-- It holds the mutex and has these tasks for the pool. -/
  | submitting (deadline : Int) (rest : List TimerTask)
  | ended

/-- A timer thread, behind `start`. -/
structure Timer where
  running : Bool
  secondsSinceSnapshot : Nat
  now : Int
  phase : TimerPhase
  /-- Calls of `stop` that have yet to notify. -/
  notifies : Nat

def Timer.start (now : Int) : Timer := ⟨true, 0, now, .starting now, 0⟩

inductive TimerAction where
  /-- The clock goes on. -/
  | tick (now : Int)
  /-- A call of `stop` locks the mutex and clears `running_`. -/
  | stop
  /-- `cv_.notify_all` -/
  | notify
  /-- The thread tests `running_`, at the top of the loop and in `wait_for`. -/
  | enter
  /-- The thread wakes up by itself. -/
  | wake
  /-- A thread that was woken up tests the predicate. -/
  | test
  /-- The wait is over. -/
  | timeout
  /-- `pool_.submit` -/
  | submit

/-- The thread holds `cvMutex_` between its steps. -/
def TimerPhase.holds : TimerPhase → Bool
  | .submitting _ _ => true
  | .starting _ => false
  | .waiting _ => false
  | .woken _ => false
  | .ended => false

def TimerPhase.notified : TimerPhase → TimerPhase
  | .waiting deadline => .woken deadline
  | .starting deadline => .starting deadline
  | .woken deadline => .woken deadline
  | .submitting deadline rest => .submitting deadline rest
  | .ended => .ended

namespace Timer

/-- The loop starts over. -/
def loop (t : Timer) : Timer :=
  { t with phase := if t.running then .waiting (t.now + 1000) else .ended }

/-- The loop's body, behind a wait that was for `deadline`. -/
def body (saveIntervalSeconds : Int) (t : Timer) (deadline : Int) : Timer :=
  if 0 < saveIntervalSeconds ∧ saveIntervalSeconds ≤ t.secondsSinceSnapshot + 1 then
    { t with secondsSinceSnapshot := 0, phase := .submitting deadline [.flush, .save] }
  else
    { t with
      secondsSinceSnapshot := t.secondsSinceSnapshot + 1
      phase := .submitting deadline [.flush] }

/-- One step, with the task that the pool is given. -/
def step (saveIntervalSeconds : Int) (t : Timer) : TimerAction → Option (Timer × Option TimerTask)
  | .tick now => if t.now ≤ now then some ({ t with now := now }, none) else none
  | .stop =>
    if t.phase.holds then none
    else if t.running then some ({ t with running := false, notifies := t.notifies + 1 }, none)
    else some (t, none)
  | .notify =>
    if t.notifies = 0 then none
    else some ({ t with phase := t.phase.notified, notifies := t.notifies - 1 }, none)
  | .enter =>
    match t.phase with
    | .starting _ => some (t.loop, none)
    | .submitting _ [] => some (t.loop, none)
    | .submitting _ (_ :: _) | .waiting _ | .woken _ | .ended => none
  | .wake =>
    match t.phase with
    | .waiting deadline => some ({ t with phase := .woken deadline }, none)
    | .starting _ | .woken _ | .submitting _ _ | .ended => none
  | .test =>
    match t.phase with
    | .woken deadline =>
      some ({ t with phase := if t.running then .waiting deadline else .ended }, none)
    | .starting _ | .waiting _ | .submitting _ _ | .ended => none
  | .timeout =>
    match t.phase with
    | .waiting deadline =>
      if deadline ≤ t.now then
        if t.running then some (t.body saveIntervalSeconds deadline, none)
        else some ({ t with phase := .ended }, none)
      else none
    | .starting _ | .woken _ | .submitting _ _ | .ended => none
  | .submit =>
    match t.phase with
    | .submitting deadline (task :: rest) =>
      some ({ t with phase := .submitting deadline rest }, some task)
    | .submitting _ [] | .starting _ | .waiting _ | .woken _ | .ended => none

end Timer

def timerMachine (saveIntervalSeconds : Int) : Machine Timer TimerAction (Option TimerTask) where
  step := Timer.step saveIntervalSeconds

/-- What a step does. -/
theorem timer_step {saveIntervalSeconds : Int} {t t' : Timer} {a : TimerAction}
    {o : Option TimerTask} (hs : t.step saveIntervalSeconds a = some (t', o)) :
    match a with
    | .tick now => t.now ≤ now ∧ t' = { t with now := now } ∧ o = none
    | .stop => t.phase.holds = false ∧ o = none ∧
        (t.running = true ∧ t' = { t with running := false, notifies := t.notifies + 1 } ∨
          t.running = false ∧ t' = t)
    | .notify => t.notifies ≠ 0 ∧ o = none ∧
        t' = { t with phase := t.phase.notified, notifies := t.notifies - 1 }
    | .enter => ∃ d, (t.phase = .starting d ∨ t.phase = .submitting d []) ∧ t' = t.loop ∧ o = none
    | .wake => ∃ d, t.phase = .waiting d ∧ t' = { t with phase := .woken d } ∧ o = none
    | .test => ∃ d, t.phase = .woken d ∧ o = none ∧
        t' = { t with phase := if t.running then .waiting d else .ended }
    | .timeout => ∃ d, t.phase = .waiting d ∧ d ≤ t.now ∧ o = none ∧
        (t.running = true ∧ t' = t.body saveIntervalSeconds d ∨
          t.running = false ∧ t' = { t with phase := .ended })
    | .submit => ∃ d task rest, t.phase = .submitting d (task :: rest) ∧ o = some task ∧
        t' = { t with phase := .submitting d rest } := by
  cases a with
  | tick now =>
    obtain ⟨hle, hs⟩ := Option.ite_none_right_eq_some.mp hs
    cases hs
    exact ⟨hle, rfl, rfl⟩
  | stop =>
    obtain ⟨hfree, hs⟩ := Option.ite_none_left_eq_some.mp hs
    refine ⟨Bool.eq_false_iff.mpr hfree, ?_⟩
    cases hrunning : t.running with
    | true | false =>
      rw [hrunning] at hs
      cases hs
      simp
  | notify =>
    obtain ⟨hsome, hs⟩ := Option.ite_none_left_eq_some.mp hs
    cases hs
    exact ⟨hsome, rfl, rfl⟩
  | enter =>
    simp only [Timer.step] at hs
    split at hs
    · rename_i d hphase
      cases hs
      exact ⟨d, .inl hphase, rfl, rfl⟩
    · rename_i d hphase
      cases hs
      exact ⟨d, .inr hphase, rfl, rfl⟩
    all_goals cases hs
  | wake =>
    simp only [Timer.step] at hs
    split at hs
    · rename_i d hphase
      cases hs
      exact ⟨d, hphase, rfl, rfl⟩
    all_goals cases hs
  | test =>
    simp only [Timer.step] at hs
    split at hs
    · rename_i d hphase
      cases hs
      exact ⟨d, hphase, rfl, rfl⟩
    all_goals cases hs
  | timeout =>
    simp only [Timer.step] at hs
    split at hs
    · rename_i d hphase
      obtain ⟨hle, hs⟩ := Option.ite_none_right_eq_some.mp hs
      refine ⟨d, hphase, hle, ?_⟩
      cases hrunning : t.running with
      | true | false =>
        rw [hrunning] at hs
        cases hs
        simp
    all_goals cases hs
  | submit =>
    simp only [Timer.step] at hs
    split at hs
    · rename_i d task rest hphase
      cases hs
      exact ⟨d, task, rest, hphase, rfl, rfl⟩
    all_goals cases hs

/-! ## The schedule -/

/-- The tasks of the round `k`. -/
def roundTasks (saveIntervalSeconds : Int) (k : Nat) : List TimerTask :=
  if 0 < saveIntervalSeconds ∧ saveIntervalSeconds ∣ k then [.flush, .save] else [.flush]

/-- The tasks of the first `k` rounds. -/
def schedule (saveIntervalSeconds : Int) (k : Nat) : List TimerTask :=
  (List.range k).flatMap fun i => roundTasks saveIntervalSeconds (i + 1)

theorem schedule_succ (saveIntervalSeconds : Int) (k : Nat) :
    schedule saveIntervalSeconds (k + 1) =
      schedule saveIntervalSeconds k ++ roundTasks saveIntervalSeconds (k + 1) := by
  unfold schedule
  rw [List.range_succ, List.flatMap_append, List.flatMap_singleton]

/-- There is one flush in a round. -/
theorem count_flush_schedule (saveIntervalSeconds : Int) (k : Nat) :
    (schedule saveIntervalSeconds k).count .flush = k := by
  have hone : ∀ k, (roundTasks saveIntervalSeconds k).count .flush = 1 := by
    intro k
    unfold roundTasks
    split <;> rfl
  induction k with
  | zero => rfl
  | succ k ih => rw [schedule_succ, List.count_append, ih, hone]

/-- The tasks of the round that are not in the pool yet. -/
def TimerPhase.rest : TimerPhase → List TimerTask
  | .submitting _ rest => rest
  | .starting _ => []
  | .waiting _ => []
  | .woken _ => []
  | .ended => []

/-- The rounds that begin with the action. -/
def Timer.roundsBegun (t : Timer) : TimerAction → Nat
  | .timeout => t.running.toNat
  | .tick _ => 0
  | .stop => 0
  | .notify => 0
  | .enter => 0
  | .wake => 0
  | .test => 0
  | .submit => 0

/-- The counter of the loop after `k` rounds. -/
def CountsRounds (saveIntervalSeconds : Int) (secondsSinceSnapshot k : Nat) : Prop :=
  0 < saveIntervalSeconds → (k : Int) % saveIntervalSeconds = secondsSinceSnapshot

/-- What holds when `k` waits are over and the pool was given the tasks `given`. -/
structure TimerInv (saveIntervalSeconds start : Int) (t : Timer) (given : List TimerTask)
    (k : Nat) : Prop where
  given : given ++ t.phase.rest = schedule saveIntervalSeconds k
  counter : CountsRounds saveIntervalSeconds t.secondsSinceSnapshot k
  elapsed : start + 1000 * k ≤ t.now
  /-- The wait began after the last round. -/
  deadline : ∀ d, t.phase = .waiting d ∨ t.phase = .woken d → start + 1000 * (k + 1) ≤ d

section

variable {saveIntervalSeconds start : Int} {t t' : Timer} {given : List TimerTask} {k : Nat}

/-- The body of the loop hands out the tasks of the next round. -/
theorem body_spec (hcounter : CountsRounds saveIntervalSeconds t.secondsSinceSnapshot k) (d : Int) :
    (t.body saveIntervalSeconds d).phase =
        .submitting d (roundTasks saveIntervalSeconds (k + 1)) ∧
      CountsRounds saveIntervalSeconds (t.body saveIntervalSeconds d).secondsSinceSnapshot
        (k + 1) ∧
      (t.body saveIntervalSeconds d).now = t.now := by
  unfold Timer.body roundTasks
  by_cases hpos : 0 < saveIntervalSeconds
  · have hmod := hcounter hpos
    have hlt := Int.emod_lt_of_pos (k : Int) hpos
    have hdiv := Int.emod_add_mul_ediv (k : Int) saveIntervalSeconds
    generalize (k : Int) / saveIntervalSeconds = q at hdiv
    by_cases hfull : saveIntervalSeconds ≤ t.secondsSinceSnapshot + 1
    · -- The round is a multiple of the interval.
      have hk : (k : Int) + 1 = saveIntervalSeconds * (q + 1) := by
        rw [mul_add, mul_one]
        omega
      have hdvd : saveIntervalSeconds ∣ ((k + 1 : Nat) : Int) := ⟨q + 1, hk⟩
      rw [if_pos ⟨hpos, hfull⟩, if_pos ⟨hpos, hdvd⟩]
      exact ⟨rfl, fun _ => Int.emod_eq_zero_of_dvd hdvd, rfl⟩
    · have hk : ((k + 1 : Nat) : Int) =
          (t.secondsSinceSnapshot + 1 : Nat) + saveIntervalSeconds * q := by
        push_cast
        omega
      have hrest : ((k + 1 : Nat) : Int) % saveIntervalSeconds =
          (t.secondsSinceSnapshot + 1 : Nat) := by
        rw [hk, Int.add_mul_emod_self_left]
        exact Int.emod_eq_of_lt (Int.natCast_nonneg _) (by omega)
      have hdvd : ¬ saveIntervalSeconds ∣ ((k + 1 : Nat) : Int) := by
        intro hdvd
        have hzero := Int.emod_eq_zero_of_dvd hdvd
        omega
      rw [if_neg fun h => hfull h.2, if_neg fun h => hdvd h.2]
      exact ⟨rfl, fun _ => hrest, rfl⟩
  · rw [if_neg fun h => hpos h.1, if_neg fun h => hpos h.1]
    exact ⟨rfl, fun h => absurd h hpos, rfl⟩

theorem timerInv_start (saveIntervalSeconds now : Int) :
    TimerInv saveIntervalSeconds now (.start now) [] 0 where
  given := rfl
  counter _ := Int.zero_emod _
  elapsed := by simp [Timer.start]
  deadline d h := by
    obtain h | h := h
    · cases h
    · cases h

/-- A step behind which the thread is in no wait. -/
theorem TimerInv.awake (h : TimerInv saveIntervalSeconds start t given k) {phase : TimerPhase}
    (hrest : phase.rest = t.phase.rest)
    (hawake : ∀ d, ¬ (phase = .waiting d ∨ phase = .woken d)) :
    TimerInv saveIntervalSeconds start { t with phase := phase } given k :=
  ⟨by rw [← h.given, ← hrest], h.counter, h.elapsed, fun d hd => absurd hd (hawake d)⟩

/-- A step behind which the thread waits until the same time. -/
theorem TimerInv.wait (h : TimerInv saveIntervalSeconds start t given k) {phase : TimerPhase}
    {d : Int} (hold : t.phase = .waiting d ∨ t.phase = .woken d)
    (hnew : phase = .waiting d ∨ phase = .woken d) :
    TimerInv saveIntervalSeconds start { t with phase := phase } given k := by
  have hnone : ∀ {phase : TimerPhase}, phase = .waiting d ∨ phase = .woken d →
      phase.rest = [] := by
    rintro _ (rfl | rfl) <;> rfl
  refine ⟨?_, h.counter, h.elapsed, fun d' hd' => ?_⟩
  · rw [← h.given, hnone hold]
    exact congrArg _ (hnone hnew)
  · have hsame : d' = d := by
      obtain rfl | rfl := hnew
      · obtain ⟨⟨⟩⟩ | ⟨⟨⟩⟩ := hd'
        rfl
      · obtain ⟨⟨⟩⟩ | ⟨⟨⟩⟩ := hd'
        rfl
    rw [hsame]
    exact h.deadline d hold

theorem TimerInv.loop (h : TimerInv saveIntervalSeconds start t given k)
    (hrest : t.phase.rest = []) : TimerInv saveIntervalSeconds start t.loop given k := by
  have helapsed := h.elapsed
  refine ⟨?_, h.counter, helapsed, fun d hd => ?_⟩
  · rw [← h.given, hrest]
    show given ++ (if t.running then TimerPhase.waiting (t.now + 1000) else .ended).rest = _
    split <;> rfl
  · have hd : (if t.running then TimerPhase.waiting (t.now + 1000) else .ended) = .waiting d ∨
        (if t.running then TimerPhase.waiting (t.now + 1000) else .ended) = .woken d := hd
    split at hd
    · obtain ⟨⟨⟩⟩ | ⟨⟨⟩⟩ := hd
      omega
    · obtain ⟨⟨⟩⟩ | ⟨⟨⟩⟩ := hd

/-- A step may begin a round, or give the pool a task. -/
theorem timerInv_step (h : TimerInv saveIntervalSeconds start t given k) {a : TimerAction}
    {o : Option TimerTask} (hs : t.step saveIntervalSeconds a = some (t', o)) :
    TimerInv saveIntervalSeconds start t' (given ++ o.toList) (k + t.roundsBegun a) := by
  have hstep := timer_step hs
  have hnone : given ++ (none : Option TimerTask).toList = given := List.append_nil _
  cases a with
  | tick now =>
    obtain ⟨hle, rfl, rfl⟩ := hstep
    rw [hnone]
    exact ⟨h.given, h.counter, h.elapsed.trans hle, h.deadline⟩
  | stop =>
    obtain ⟨-, rfl, ⟨-, rfl⟩ | ⟨-, rfl⟩⟩ := hstep
    · rw [hnone]
      exact ⟨h.given, h.counter, h.elapsed, h.deadline⟩
    · rw [hnone]
      exact h
  | notify =>
    obtain ⟨-, rfl, rfl⟩ := hstep
    rw [hnone]
    have hnotified : TimerInv saveIntervalSeconds start { t with phase := t.phase.notified } given
        k := by
      cases hphase : t.phase with
      | waiting d => exact h.wait (.inl hphase) (.inr rfl)
      | woken d => exact h.wait (.inr hphase) (.inr rfl)
      | starting d | submitting d rest | ended =>
        refine h.awake (by rw [hphase]; rfl) ?_
        rintro _ (⟨⟨⟩⟩ | ⟨⟨⟩⟩)
    exact ⟨hnotified.given, hnotified.counter, hnotified.elapsed, hnotified.deadline⟩
  | enter =>
    obtain ⟨d, hphase, rfl, rfl⟩ := hstep
    rw [hnone]
    refine h.loop ?_
    obtain hphase | hphase := hphase <;> rw [hphase] <;> rfl
  | wake =>
    obtain ⟨d, hphase, rfl, rfl⟩ := hstep
    rw [hnone]
    exact h.wait (.inl hphase) (.inr rfl)
  | test =>
    obtain ⟨d, hphase, rfl, rfl⟩ := hstep
    rw [hnone]
    show TimerInv _ _ _ _ k
    split
    · exact h.wait (.inr hphase) (.inl rfl)
    · refine h.awake (by rw [hphase]; rfl) ?_
      rintro _ (⟨⟨⟩⟩ | ⟨⟨⟩⟩)
  | timeout =>
    obtain ⟨d, hphase, hle, rfl, ⟨hrunning, rfl⟩ | ⟨hstopped, rfl⟩⟩ := hstep
    · have hone : t.roundsBegun .timeout = 1 := by rw [Timer.roundsBegun, hrunning]; rfl
      rw [hnone, hone]
      obtain ⟨hbody, hcounter, hnow⟩ := body_spec h.counter d
      have hlater := h.deadline d (.inl hphase)
      have hgiven := h.given
      rw [hphase] at hgiven
      refine ⟨?_, hcounter, ?_, fun d' hd' => ?_⟩
      · rw [hbody, schedule_succ, ← hgiven]
        simp [TimerPhase.rest]
      · rw [hnow]
        push_cast
        omega
      · rw [hbody] at hd'
        obtain ⟨⟨⟩⟩ | ⟨⟨⟩⟩ := hd'
    · have hzero : t.roundsBegun .timeout = 0 := by rw [Timer.roundsBegun, hstopped]; rfl
      rw [hnone, hzero]
      refine h.awake (by rw [hphase]; rfl) ?_
      rintro _ (⟨⟨⟩⟩ | ⟨⟨⟩⟩)
  | submit =>
    obtain ⟨d, task, rest, hphase, rfl, rfl⟩ := hstep
    refine ⟨?_, h.counter, h.elapsed, ?_⟩
    · rw [List.append_assoc]
      have hgiven := h.given
      rw [hphase] at hgiven
      exact hgiven
    · rintro _ (⟨⟨⟩⟩ | ⟨⟨⟩⟩)

end

/-! ## How late a round is -/

def TimerPhase.deadline : TimerPhase → Option Int
  | .starting deadline => some deadline
  | .waiting deadline => some deadline
  | .woken deadline => some deadline
  | .submitting deadline _ => some deadline
  | .ended => none

/-- The thread waits for the end of a round that has not begun. -/
def TimerPhase.ahead : TimerPhase → Nat
  | .waiting _ => 1
  | .woken _ => 1
  | .starting _ => 0
  | .submitting _ _ => 0
  | .ended => 0

/-- The clock goes on only as far as the thread is late by `latency` milliseconds with what it has
to do at its deadline: the body, and the next wait. -/
def Prompt (latency : Nat) (t : Timer) : TimerAction → Prop
  | .tick now => ∀ d, t.phase.deadline = some d → now ≤ d + latency
  | .stop => True
  | .notify => True
  | .enter => True
  | .wake => True
  | .test => True
  | .timeout => True
  | .submit => True

instance (latency : Nat) (t : Timer) : ∀ a, Decidable (Prompt latency t a)
  | .tick now => inferInstanceAs (Decidable (∀ d ∈ t.phase.deadline, now ≤ d + latency))
  | .stop | .notify | .enter | .wake | .test | .timeout | .submit => instDecidableTrue

section

variable {latency : Nat} {saveIntervalSeconds start : Int} {t t' : Timer} {k : Nat}
  {a : TimerAction} {o : Option TimerTask}

/-- What a step does to the deadline: nothing, or a wait begins, or a round. -/
theorem timerDeadline_step (hs : t.step saveIntervalSeconds a = some (t', o)) {d : Int}
    (hd : t'.phase.deadline = some d) :
    (t.phase.deadline = some d ∧ t'.phase.ahead = t.phase.ahead ∧ t.roundsBegun a = 0 ∧
      (t'.now = t.now ∨ t.now ≤ t'.now ∧ a = .tick t'.now)) ∨
    (∃ d₀, t.phase.deadline = some d₀ ∧ t.phase.ahead = 0 ∧ t'.phase.ahead = 1 ∧
      t.roundsBegun a = 0 ∧ t'.now = t.now ∧ d = t.now + 1000) ∨
    (t.phase.deadline = some d ∧ t.phase.ahead = 1 ∧ t'.phase.ahead = 0 ∧ t.roundsBegun a = 1 ∧
      t'.now = t.now ∧ d ≤ t.now) := by
  have hstep := timer_step hs
  cases a with
  | tick now =>
    obtain ⟨hle, rfl, -⟩ := hstep
    exact .inl ⟨hd, rfl, rfl, .inr ⟨hle, rfl⟩⟩
  | stop =>
    obtain ⟨-, -, ⟨-, rfl⟩ | ⟨-, rfl⟩⟩ := hstep
    · exact .inl ⟨hd, rfl, rfl, .inl rfl⟩
    · exact .inl ⟨hd, rfl, rfl, .inl rfl⟩
  | notify =>
    obtain ⟨-, -, rfl⟩ := hstep
    have hsame : t.phase.notified.deadline = t.phase.deadline ∧
        t.phase.notified.ahead = t.phase.ahead := by
      cases t.phase <;> exact ⟨rfl, rfl⟩
    exact .inl ⟨hsame.1.symm.trans hd, hsame.2, rfl, .inl rfl⟩
  | enter =>
    obtain ⟨d₀, hphase, rfl, -⟩ := hstep
    have hold : t.phase.deadline = some d₀ ∧ t.phase.ahead = 0 := by
      obtain hphase | hphase := hphase <;> rw [hphase] <;> exact ⟨rfl, rfl⟩
    cases hrunning : t.running with
    | false =>
      simp only [Timer.loop, hrunning] at hd
      cases hd
    | true =>
      have hloop : t.loop = { t with phase := .waiting (t.now + 1000) } := by
        rw [Timer.loop, if_pos hrunning]
      rw [hloop] at hd ⊢
      cases hd
      exact .inr (.inl ⟨d₀, hold.1, hold.2, rfl, rfl, rfl, rfl⟩)
  | wake =>
    obtain ⟨d₀, hphase, rfl, -⟩ := hstep
    rw [hphase]
    exact .inl ⟨hd, rfl, rfl, .inl rfl⟩
  | test =>
    obtain ⟨d₀, hphase, -, rfl⟩ := hstep
    rw [hphase]
    cases hrunning : t.running with
    | false =>
      simp only [hrunning] at hd
      cases hd
    | true =>
      simp only [hrunning, if_true] at hd
      exact .inl ⟨hd, rfl, rfl, .inl rfl⟩
  | timeout =>
    obtain ⟨d₀, hphase, hle, -, ⟨hrunning, rfl⟩ | ⟨-, rfl⟩⟩ := hstep
    · have hbegun : t.roundsBegun .timeout = 1 := by rw [Timer.roundsBegun, hrunning]; rfl
      have hbody : (t.body saveIntervalSeconds d₀).phase.deadline = some d₀ ∧
          (t.body saveIntervalSeconds d₀).phase.ahead = 0 ∧
          (t.body saveIntervalSeconds d₀).now = t.now := by
        unfold Timer.body
        split <;> exact ⟨rfl, rfl, rfl⟩
      rw [hbody.1] at hd
      cases hd
      rw [hphase, hbody.2.1, hbody.2.2]
      exact .inr (.inr ⟨rfl, rfl, rfl, hbegun, rfl, hle⟩)
    · cases hd
  | submit =>
    obtain ⟨d₀, task, rest, hphase, -, rfl⟩ := hstep
    rw [hphase]
    exact .inl ⟨hd, rfl, rfl, .inl rfl⟩

/-- The thread is not late, and it waits for a second at most. -/
def OnTime (latency : Nat) (t : Timer) : Prop :=
  ∀ d, t.phase.deadline = some d →
    t.now ≤ d + latency ∧ d ≤ t.now + 1000 * (t.phase.ahead : Int)

theorem onTime_start (latency : Nat) (now : Int) : OnTime latency (.start now) := by
  rintro d ⟨⟩
  simp [Timer.start, TimerPhase.ahead]

theorem onTime_step (h : OnTime latency t) (ha : Prompt latency t a)
    (hs : t.step saveIntervalSeconds a = some (t', o)) : OnTime latency t' := by
  intro d hd
  obtain ⟨hold, hahead, -, hnow | ⟨hle, rfl⟩⟩ | ⟨d₀, hold, -, hahead, -, hnow, rfl⟩ |
    ⟨hold, hone, hahead, -, hnow, hle⟩ := timerDeadline_step hs hd
  · rw [hnow, hahead]
    exact h d hold
  · obtain ⟨-, hset⟩ := h d hold
    rw [hahead]
    exact ⟨ha d hold, by omega⟩
  · rw [hnow, hahead]
    omega
  · obtain ⟨hlate, -⟩ := h d hold
    rw [hnow, hahead]
    omega

/-- No deadline was set too late. -/
def PromptInv (latency : Nat) (start : Int) (t : Timer) (k : Nat) : Prop :=
  ∀ d, t.phase.deadline = some d →
    d ≤ start + (k + t.phase.ahead : Nat) * (1000 + latency : Int)

theorem promptInv_start (latency : Nat) (now : Int) : PromptInv latency now (.start now) 0 := by
  rintro d ⟨⟩
  simp [Timer.start, TimerPhase.ahead]

theorem promptInv_step (h : PromptInv latency start t k) (ht : OnTime latency t)
    (hs : t.step saveIntervalSeconds a = some (t', o)) :
    PromptInv latency start t' (k + t.roundsBegun a) := by
  intro d hd
  obtain ⟨hold, hahead, hbegun, -⟩ | ⟨d₀, hold, hzero, hahead, hbegun, -, rfl⟩ |
    ⟨hold, hone, hahead, hbegun, -, -⟩ := timerDeadline_step hs hd
  · rw [hahead, hbegun]
    exact h d hold
  · -- The wait begins at most `latency` after the last deadline.
    have hlate := (ht d₀ hold).1
    have hset := h d₀ hold
    have hsucc : ((k + 1 : Nat) : Int) * (1000 + latency) =
        k * (1000 + latency) + (1000 + latency) := by
      push_cast
      rw [add_mul, one_mul]
    rw [hzero, Nat.add_zero] at hset
    rw [hahead, hbegun, Nat.add_zero, hsucc]
    omega
  · have hset := h d hold
    rw [hone] at hset
    rw [hahead, hbegun, Nat.add_zero]
    exact hset

end

/-- The task that a step gives to the pool. -/
theorem reduceOption_concat {α : Type*} (outs : List (Option α)) (o : Option α) :
    (outs ++ [o]).reduceOption = outs.reduceOption ++ o.toList := by
  rw [List.reduceOption_append]
  cases o <;> rfl

theorem timerInv_run {saveIntervalSeconds now : Int} {acts : List TimerAction} {t : Timer}
    {outs : List (Option TimerTask)}
    (hrun : (timerMachine saveIntervalSeconds).run (.start now) acts = some (t, outs)) :
    ∃ k, TimerInv saveIntervalSeconds now t outs.reduceOption k := by
  refine Machine.run_history
    (I := fun t _ outs => ∃ k, TimerInv saveIntervalSeconds now t outs.reduceOption k)
    (fun t _ outs a t' o _ h _ hs => ?_) (Machine.along_true _ _) hrun
    ⟨0, timerInv_start saveIntervalSeconds now⟩
  obtain ⟨k, h⟩ := h
  rw [reduceOption_concat]
  exact ⟨_, timerInv_step h hs⟩

theorem promptInv_run {latency : Nat} {saveIntervalSeconds now : Int} {acts : List TimerAction}
    {t : Timer} {outs : List (Option TimerTask)}
    (hprompt : (timerMachine saveIntervalSeconds).Along (Prompt latency) (.start now) acts)
    (hrun : (timerMachine saveIntervalSeconds).run (.start now) acts = some (t, outs)) :
    OnTime latency t ∧
      ∃ k, TimerInv saveIntervalSeconds now t outs.reduceOption k ∧ PromptInv latency now t k := by
  refine Machine.run_history
    (I := fun t _ outs => OnTime latency t ∧
      ∃ k, TimerInv saveIntervalSeconds now t outs.reduceOption k ∧ PromptInv latency now t k)
    (fun t _ outs a t' o _ h ha hs => ?_) hprompt hrun
    ⟨onTime_start latency now, 0, timerInv_start saveIntervalSeconds now,
      promptInv_start latency now⟩
  obtain ⟨ht, k, h, hp⟩ := h
  rw [reduceOption_concat]
  exact ⟨onTime_step ht ha hs, _, timerInv_step h hs, promptInv_step hp ht hs⟩

/-- **A flush every second.** The tasks that the pool was given, with those of the round that is
under way, are the tasks of the first `k` rounds, and `k` seconds have gone by. If the thread is
never late by more than `latency` milliseconds, then it has not missed a round: the next one is due
by then. -/
theorem flushes_every_second {saveIntervalSeconds now : Int} {acts : List TimerAction} {t : Timer}
    {outs : List (Option TimerTask)}
    (hrun : (timerMachine saveIntervalSeconds).run (.start now) acts = some (t, outs)) :
    ∃ k : Nat, outs.reduceOption ++ t.phase.rest = schedule saveIntervalSeconds k ∧
      now + 1000 * k ≤ t.now ∧
      ∀ latency : Nat,
        (timerMachine saveIntervalSeconds).Along (Prompt latency) (.start now) acts →
        t.phase ≠ .ended → t.now ≤ now + (k + 1) * (1000 + latency) + latency := by
  obtain ⟨k, h⟩ := timerInv_run hrun
  refine ⟨k, h.given, h.elapsed, fun latency hprompt hphase => ?_⟩
  obtain ⟨htime, k', h', hp⟩ := promptInv_run hprompt hrun
  obtain rfl : k' = k := by
    rw [← count_flush_schedule saveIntervalSeconds k, ← h.given, h'.given, count_flush_schedule]
  obtain ⟨d, hd⟩ : ∃ d, t.phase.deadline = some d := by
    cases hold : t.phase with
    | ended => exact absurd hold hphase
    | starting d | waiting d | woken d | submitting d rest => exact ⟨d, rfl⟩
  have hlate := (htime d hd).1
  have hdeadline := hp d hd
  have hahead : ((k' + t.phase.ahead : Nat) : Int) * (1000 + latency) ≤
      (k' + 1) * (1000 + latency) := by
    refine Int.mul_le_mul_of_nonneg_right ?_ (by omega)
    cases t.phase <;> simp [TimerPhase.ahead]
  omega

/-- Two rounds, and a wait that ends by itself. -/
def twoRounds : List TimerAction :=
  [.enter, .tick 400, .wake, .test, .tick 1003, .timeout, .submit, .tick 1005, .enter, .tick 2010,
    .timeout, .submit, .submit, .enter, .tick 2500]

theorem flushes_every_second_twoRounds :
    ∃ t outs, (timerMachine 2).run (.start 0) twoRounds = some (t, outs) ∧
      outs.reduceOption = [.flush, .flush, .save] ∧
      ∃ k : Nat, outs.reduceOption ++ t.phase.rest = schedule 2 k ∧ 0 + 1000 * k ≤ t.now ∧
        t.now ≤ 0 + (k + 1) * (1000 + (10 : Nat)) + (10 : Nat) := by
  have hrun : (timerMachine 2).run (.start 0) twoRounds = some (_, _) := rfl
  obtain ⟨k, hgiven, helapsed, hlate⟩ := flushes_every_second hrun
  exact ⟨_, _, hrun, rfl, k, hgiven, helapsed, hlate 10 (by decide +kernel) nofun⟩

/-! ## Stopping -/

/-- The thread with the flag that it looks at. -/
def Timer.monitor (t : Timer) : Monitor Bool Unit where
  data := t.running
  asleep := match t.phase with
    | .waiting _ => some ()
    | .starting _ | .woken _ | .submitting _ _ | .ended => none
  notifies := t.notifies

theorem timerMonitor_step {saveIntervalSeconds : Int} {t t' : Timer} {a : TimerAction}
    {o : Option TimerTask} (hs : t.step saveIntervalSeconds a = some (t', o)) :
    Monitor.Step (fun running _ => running = true) t.monitor t'.monitor := by
  have hstep := timer_step hs
  cases a with
  | tick now =>
    obtain ⟨-, rfl, -⟩ := hstep
    exact .refl _
  | stop =>
    obtain ⟨-, -, ⟨-, rfl⟩ | ⟨-, rfl⟩⟩ := hstep
    · exact .announce (m := t.monitor) false
    · exact .refl _
  | notify =>
    obtain ⟨-, -, rfl⟩ := hstep
    have hview : Timer.monitor { t with phase := t.phase.notified, notifies := t.notifies - 1 } =
        { t.monitor with asleep := none, notifies := t.notifies - 1 } := by
      unfold Timer.monitor
      cases t.phase <;> rfl
    rw [hview]
    exact .notify
  | enter =>
    obtain ⟨d, -, rfl, -⟩ := hstep
    cases hrunning : t.running with
    | true =>
      have hview : t.loop.monitor = { t.monitor with asleep := some () } := by
        simp only [Timer.monitor, Timer.loop, hrunning, if_true]
      rw [hview]
      exact .sleep () hrunning
    | false =>
      have hview : t.loop.monitor = { t.monitor with data := t.running, asleep := none } := by
        simp only [Timer.monitor, Timer.loop, hrunning, Bool.false_eq_true, if_false]
      rw [hview]
      exact .run t.running
  | wake =>
    obtain ⟨d, -, rfl, -⟩ := hstep
    exact .run (m := t.monitor) t.running
  | test =>
    obtain ⟨d, -, -, rfl⟩ := hstep
    by_cases hrunning : t.running = true
    · rw [if_pos hrunning]
      have hview : Timer.monitor { t with phase := .waiting d } =
          { t.monitor with asleep := some () } := rfl
      rw [hview]
      exact .sleep () hrunning
    · rw [if_neg hrunning]
      exact .run (m := t.monitor) t.running
  | timeout =>
    obtain ⟨d, -, -, -, ⟨-, rfl⟩ | ⟨-, rfl⟩⟩ := hstep
    · have hview : (t.body saveIntervalSeconds d).monitor =
          { t.monitor with data := t.running, asleep := none } := by
        unfold Timer.body
        split <;> rfl
      rw [hview]
      exact .run t.running
    · exact .run (m := t.monitor) t.running
  | submit =>
    obtain ⟨d, task, rest, -, -, rfl⟩ := hstep
    exact .run (m := t.monitor) t.running

/-- A step of the thread, other than waking up by itself, counts one. -/
def TimerAction.own : TimerAction → Nat
  | .enter => 1
  | .test => 1
  | .timeout => 1
  | .submit => 1
  | .tick _ => 0
  | .stop => 0
  | .notify => 0
  | .wake => 0

/-- The steps that are left to a thread behind `stop`. -/
def TimerPhase.left : TimerPhase → Nat
  | .ended => 0
  | .starting _ => 1
  | .waiting _ => 1
  | .woken _ => 1
  | .submitting _ _ => 1

/-- `running_` is cleared, which needs the mutex. -/
structure TimerStopped (t : Timer) : Prop where
  running : t.running = false
  free : t.phase.holds = false

theorem timerStopped_step {saveIntervalSeconds : Int} {t t' : Timer} {a : TimerAction}
    {o : Option TimerTask} (h : TimerStopped t)
    (hs : t.step saveIntervalSeconds a = some (t', o)) :
    TimerStopped t' ∧ o = none ∧ t'.phase.left + a.own ≤ t.phase.left := by
  have hstep := timer_step hs
  obtain ⟨hstopped, hfree⟩ := h
  cases a with
  | tick now =>
    obtain ⟨-, rfl, rfl⟩ := hstep
    exact ⟨⟨hstopped, hfree⟩, rfl, Nat.le_refl _⟩
  | stop =>
    obtain ⟨-, rfl, ⟨-, rfl⟩ | ⟨-, rfl⟩⟩ := hstep
    · exact ⟨⟨rfl, hfree⟩, rfl, Nat.le_refl _⟩
    · exact ⟨⟨hstopped, hfree⟩, rfl, Nat.le_refl _⟩
  | notify =>
    obtain ⟨-, rfl, rfl⟩ := hstep
    have hsame : t.phase.notified.holds = t.phase.holds ∧
        t.phase.notified.left = t.phase.left := by
      cases t.phase <;> exact ⟨rfl, rfl⟩
    exact ⟨⟨hstopped, hsame.1.trans hfree⟩, rfl, hsame.2.le⟩
  | enter =>
    obtain ⟨d, hphase, rfl, rfl⟩ := hstep
    have hended : t.loop = { t with phase := .ended } := by
      simp only [Timer.loop, hstopped, Bool.false_eq_true, if_false]
    rw [hended]
    refine ⟨⟨hstopped, rfl⟩, rfl, ?_⟩
    obtain hphase | hphase := hphase <;> rw [hphase] <;> exact Nat.le_refl 1
  | wake =>
    obtain ⟨d, hphase, rfl, rfl⟩ := hstep
    rw [hphase]
    exact ⟨⟨hstopped, rfl⟩, rfl, Nat.le_refl 1⟩
  | test =>
    obtain ⟨d, hphase, rfl, rfl⟩ := hstep
    rw [hphase, if_neg (Bool.eq_false_iff.mp hstopped)]
    exact ⟨⟨hstopped, rfl⟩, rfl, Nat.le_refl 1⟩
  | timeout =>
    obtain ⟨d, hphase, -, rfl, ⟨hrunning, -⟩ | ⟨-, rfl⟩⟩ := hstep
    · rw [hstopped] at hrunning
      cases hrunning
    · rw [hphase]
      exact ⟨⟨hstopped, rfl⟩, rfl, Nat.le_refl 1⟩
  | submit =>
    obtain ⟨d, task, rest, hphase, -, -⟩ := hstep
    rw [hphase] at hfree
    cases hfree

/-- While the thread holds the mutex, `running_` is set. -/
theorem running_of_holds_step {saveIntervalSeconds : Int} {t t' : Timer} {a : TimerAction}
    {o : Option TimerTask} (h : t.phase.holds = true → t.running = true)
    (hs : t.step saveIntervalSeconds a = some (t', o)) :
    t'.phase.holds = true → t'.running = true := by
  have hstep := timer_step hs
  cases a with
  | tick now =>
    obtain ⟨-, rfl, -⟩ := hstep
    exact h
  | stop =>
    obtain ⟨hfree, -, ⟨-, rfl⟩ | ⟨-, rfl⟩⟩ := hstep
    · exact fun hholds => absurd hholds (Bool.eq_false_iff.mp hfree)
    · exact h
  | notify =>
    obtain ⟨-, -, rfl⟩ := hstep
    have hsame : t.phase.notified.holds = t.phase.holds := by cases t.phase <;> rfl
    exact fun hholds => h (hsame.symm.trans hholds)
  | enter =>
    obtain ⟨d, -, rfl, -⟩ := hstep
    unfold Timer.loop
    split <;> nofun
  | wake =>
    obtain ⟨d, -, rfl, -⟩ := hstep
    nofun
  | test =>
    obtain ⟨d, -, -, rfl⟩ := hstep
    split <;> nofun
  | timeout =>
    obtain ⟨d, -, -, -, ⟨hrunning, rfl⟩ | ⟨-, rfl⟩⟩ := hstep
    · intro _
      unfold Timer.body
      split <;> exact hrunning
    · nofun
  | submit =>
    obtain ⟨d, task, rest, hphase, -, rfl⟩ := hstep
    exact fun _ => h (by rw [hphase]; rfl)

/-- **`stop` ends the thread.** Behind a `stop` the pool is given no task any more, and the thread
takes one step of its own at most. When every `stop` has notified, it has ended, or a step of its
own is open to it. -/
theorem timer_stops {saveIntervalSeconds now : Int} {acts later : List TimerAction} {t t' : Timer}
    {outs outs' : List (Option TimerTask)}
    (hrun : (timerMachine saveIntervalSeconds).run (.start now) acts = some (t, outs))
    (hstopped : t.running = false)
    (hlater : (timerMachine saveIntervalSeconds).run t later = some (t', outs')) :
    outs'.reduceOption = [] ∧ (later.map TimerAction.own).sum ≤ 1 ∧
      (t'.notifies = 0 → t'.phase = .ended ∨
        ∃ a : TimerAction, a.own = 1 ∧ (t'.step saveIntervalSeconds a).isSome = true) := by
  have hholds : t.phase.holds = true → t.running = true :=
    Machine.run_invariant (I := fun t : Timer => t.phase.holds = true → t.running = true)
      (fun _ _ _ _ h _ hs => running_of_holds_step h hs) (Machine.along_true _ _) hrun nofun
  have hstart : TimerStopped t := by
    refine ⟨hstopped, Bool.eq_false_iff.mpr fun h => ?_⟩
    have hrunning := hholds h
    rw [hstopped] at hrunning
    cases hrunning
  have hend : TimerStopped t' ∧ outs'.reduceOption = [] := by
    refine Machine.run_history (I := fun t _ outs => TimerStopped t ∧ outs.reduceOption = [])
      (fun _ _ outs _ _ o _ h _ hs => ?_) (Machine.along_true _ _) hlater ⟨hstart, rfl⟩
    obtain ⟨hnext, ho, -⟩ := timerStopped_step h.1 hs
    rw [reduceOption_concat, h.2, ho]
    exact ⟨hnext, rfl⟩
  refine ⟨hend.2, ?_, fun hquiet => ?_⟩
  · have hpotential : t'.phase.left + (later.map TimerAction.own).sum ≤
        t.phase.left + (later.map fun _ => 0).sum :=
      Machine.run_potential (fun t : Timer => t.phase.left) (I := TimerStopped)
        (fun _ _ _ _ h _ hs => ⟨(timerStopped_step h hs).1, (timerStopped_step h hs).2.2⟩)
        (Machine.along_true _ _) hlater hstart
    have hone : t.phase.left ≤ 1 := by
      cases t.phase with
      | ended => exact Nat.zero_le 1
      | starting | waiting | woken | submitting => exact Nat.le_refl 1
    simp only [List.map_const', List.sum_replicate_nat, Nat.mul_zero] at hpotential
    omega
  · have hrunning := hend.1.running
    cases hphase : t'.phase with
    | ended => exact .inl rfl
    | starting d => exact .inr ⟨.enter, rfl, by simp [Timer.step, hphase]⟩
    | woken d => exact .inr ⟨.test, rfl, by simp [Timer.step, hphase]⟩
    | submitting d rest =>
      have hfree := hend.1.free
      rw [hphase] at hfree
      cases hfree
    | waiting d =>
      -- It would have been notified.
      have hjustified := Machine.run_justified Timer.monitor
        (fun _ _ _ _ hs => timerMonitor_step hs)
        (Machine.run_append.mpr ⟨t, outs, outs', hrun, hlater, rfl⟩) (fun _ _ hw => by cases hw)
      have htrue : t'.running = true := hjustified hquiet () (by rw [Timer.monitor, hphase])
      rw [hrunning] at htrue
      cases htrue

/-- The thread wakes up by itself before it is notified. -/
def afterStop : List TimerAction := [.wake, .notify, .tick 2000, .test]

theorem timer_stops_spurious :
    ∃ t outs t' outs', (timerMachine 2).run (.start 0) [.enter, .stop] = some (t, outs) ∧
      (timerMachine 2).run t afterStop = some (t', outs') ∧ outs'.reduceOption = [] := by
  have hrun : (timerMachine 2).run (.start 0) [.enter, .stop] = some (_, _) := rfl
  refine ⟨_, _, _, _, hrun, rfl, ?_⟩
  exact (timer_stops hrun rfl (show (timerMachine 2).run _ afterStop = some (_, _) from rfl)).1

end TinyKV
