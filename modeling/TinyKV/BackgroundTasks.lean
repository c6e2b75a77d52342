import TinyKV.Lib.Machine

/-!
# `stop()` and the background tasks

`PersistenceManager::submitBackgroundTask` counts a task and gives it to the pool; when the task has
run, it is counted off, and the task that brings the counter to zero locks `tasksDoneMutex_` and
notifies. `PersistenceManager::stop` joins the timer thread, then waits under `tasksDoneMutex_` for
a counter of zero.

* `tasksMachine`: the timer thread, any number of tasks and the rest of `stop`, in any order of
  their steps. The pool may begin the queued tasks in any order, and a wait may end by itself.
* The counter goes to zero outside of the mutex. So `stop` can find the zero and return while the
  last task has yet to lock: `lastTask_locks_after_return`.
* `StopTestSafe`: `stop` does not find the zero while a task is about to lock.
* `TasksInv`: the invariant; `tasksInv_step`.
* `stop_waits_iff`: no task can use a member after the return exactly along safe steps.

The counter does not wrap: that takes 2^31 tasks in the queue at a time.
-/

namespace TinyKV

/-! ## The machine -/

/-- Where the timer thread is. -/
inductive TimerStage where
  | looping
  /-- In `submitBackgroundTask`, behind `++inFlightTasks_`; `pool_.submit` is next. -/
  | submitting
  | ended
  deriving DecidableEq

/-- Where a background task is. -/
inductive TaskStage where
  /-- In the queue of the pool. -/
  | queued
  /-- In `task()`, or about to count itself off. -/
  | running
  /-- It has brought the counter to zero; the lock of `tasksDoneMutex_` is next. -/
  | locking
  /-- It holds the mutex; `notify_all` is next. -/
  | notifying
  /-- It holds the mutex; the unlock is next. -/
  | unlocking
  | done
  deriving DecidableEq

/-- Where `stop` is, once `running_` is false. -/
inductive StopStage where
  /-- `timerThread_.join()` -/
  | joining
  /-- The lock of `tasksDoneMutex_` is next, before the wait or in it. -/
  | locking
  /-- It holds the mutex; the test of the predicate is next. -/
  | testing
  /-- Asleep in `tasksDoneCv_.wait`. -/
  | waiting
  | returned
  deriving DecidableEq

/-- Who holds `tasksDoneMutex_`. -/
inductive MutexHolder where
  | stop
  | task (i : Nat)
  deriving DecidableEq

structure BackgroundTasks where
  inFlightTasks : Nat
  /-- The tasks that the pool was given, the first one first. -/
  tasks : List TaskStage
  timer : TimerStage
  stop : StopStage
  holder : Option MutexHolder

def BackgroundTasks.start : BackgroundTasks := ⟨0, [], .looping, .joining, none⟩

inductive TaskStep where
  /-- A worker of the pool takes the task. -/
  | begin
  /-- A step of `task()`. -/
  | use
  /-- `--inFlightTasks_` -/
  | decrement
  | lock
  | notify
  | unlock
  deriving DecidableEq

/-- The step uses a member of the `PersistenceManager`. -/
def TaskStep.usesMembers : TaskStep → Bool
  | .begin => false
  | _ => true

inductive TasksAction where
  /-- The timer thread: `++inFlightTasks_` -/
  | count
  /-- The timer thread: `pool_.submit` -/
  | push
  | timerEnds
  | task (i : Nat) (step : TaskStep)
  /-- `stop`: the timer thread is joined. -/
  | join
  /-- `stop` locks `tasksDoneMutex_`. -/
  | lock
  /-- `stop` tests the predicate and returns or waits. -/
  | test
  /-- `stop` wakes up by itself. -/
  | wake

/-- `notify_all` -/
def StopStage.notified : StopStage → StopStage
  | .waiting => .locking
  | stop => stop

namespace BackgroundTasks

def setTask (s : BackgroundTasks) (i : Nat) (stage : TaskStage) : BackgroundTasks :=
  { s with tasks := s.tasks.set i stage }

/-- A step of the task `i`. -/
def taskStep (s : BackgroundTasks) (i : Nat) : TaskStage → TaskStep → Option BackgroundTasks
  | .queued, .begin => some (s.setTask i .running)
  | .running, .use => some s
  | .running, .decrement =>
    let inFlightTasks := s.inFlightTasks - 1
    let stage := if inFlightTasks = 0 then TaskStage.locking else .done
    some ({ s with inFlightTasks := inFlightTasks }.setTask i stage)
  | .locking, .lock =>
    if s.holder = none then
      some ({ s with holder := some (.task i) }.setTask i .notifying)
    else none
  | .notifying, .notify => some ({ s with stop := s.stop.notified }.setTask i .unlocking)
  | .unlocking, .unlock => some ({ s with holder := none }.setTask i .done)
  | _, _ => none

/-- One step. `stop` holds the mutex from its lock to its return or to its sleep. -/
def step (s : BackgroundTasks) : TasksAction → Option BackgroundTasks
  | .count =>
    if s.timer = .looping then
      some { s with inFlightTasks := s.inFlightTasks + 1, timer := .submitting }
    else none
  | .push =>
    if s.timer = .submitting then
      some { s with tasks := s.tasks ++ [.queued], timer := .looping }
    else none
  | .timerEnds => if s.timer = .looping then some { s with timer := .ended } else none
  | .task i a => s.tasks[i]?.bind fun stage => s.taskStep i stage a
  | .join =>
    if s.stop = .joining ∧ s.timer = .ended then some { s with stop := .locking } else none
  | .lock =>
    if s.stop = .locking ∧ s.holder = none then
      some { s with stop := .testing, holder := some .stop }
    else none
  | .test =>
    if s.stop = .testing then
      some { s with
        stop := if s.inFlightTasks = 0 then .returned else .waiting
        holder := none }
    else none
  | .wake => if s.stop = .waiting then some { s with stop := .locking } else none

/-- No task can take a step that uses a member. -/
def MembersFree (s : BackgroundTasks) : Prop :=
  ∀ i a, a.usesMembers = true → s.step (.task i a) = none

end BackgroundTasks

def tasksMachine : Machine BackgroundTasks TasksAction Unit where
  step s a := (s.step a).map fun t => (t, ())

/-- `stop` does not find the counter at zero while a task is about to lock the mutex. -/
def StopTestSafe (s : BackgroundTasks) : TasksAction → Prop
  | .test => s.stop = .testing → s.inFlightTasks = 0 → TaskStage.locking ∉ s.tasks
  | _ => True

/-! ## The invariant -/

/-- The task is in the counter. -/
def TaskStage.counted : TaskStage → Bool
  | .queued | .running => true
  | _ => false

/-- The task holds the mutex. -/
def TaskStage.holds : TaskStage → Bool
  | .notifying | .unlocking => true
  | _ => false

/-- The tasks that are in the counter and not yet in the pool. -/
def TimerStage.pending : TimerStage → Nat
  | .submitting => 1
  | _ => 0

structure TasksInv (s : BackgroundTasks) : Prop where
  counted : s.inFlightTasks = s.timer.pending + s.tasks.countP TaskStage.counted
  joined : s.stop ≠ .joining → s.timer = .ended
  holder : ∀ i stage, s.tasks[i]? = some stage → stage.holds = true → s.holder = some (.task i)
  testing : s.stop = .testing → s.holder = some .stop
  returned : s.stop = .returned → ∀ stage ∈ s.tasks, stage = .done

theorem tasksInv_start : TasksInv .start where
  counted := rfl
  joined h := absurd rfl h
  holder _ _ h := by cases h
  testing h := by cases h
  returned h := by cases h

theorem StopStage.eq_of_notified {stop stage : StopStage} (h : stop.notified = stage)
    (hne : stage ≠ .locking) : stop = stage := by
  cases stop with
  | waiting => exact absurd h.symm hne
  | _ => exact h

section

variable {s t : BackgroundTasks} {i : Nat} {old new : TaskStage}

/-- A task that is not done moves on. -/
theorem TasksInv.setTask (h : TasksInv s) (hi : s.tasks[i]? = some old) (hold : old ≠ .done)
    (htasks : t.tasks = s.tasks.set i new) (htimer : t.timer = s.timer)
    (hstop : t.stop = s.stop ∨ t.stop = s.stop.notified)
    (hcount : t.inFlightTasks + old.counted.toNat = s.inFlightTasks + new.counted.toNat)
    (hholder : ∀ o, s.holder = some o → o ≠ .task i → t.holder = some o)
    (hnew : new.holds = true → t.holder = some (.task i)) : TasksInv t := by
  have hback : ∀ stage, stage ≠ .locking → t.stop = stage → s.stop = stage := by
    intro stage hne ht
    obtain hsame | hnotified := hstop
    · rw [← hsame, ht]
    · exact StopStage.eq_of_notified (hnotified.symm.trans ht) hne
  obtain ⟨hlt, hget⟩ := List.getElem?_eq_some_iff.mp hi
  refine ⟨?_, ?_, ?_, ?_, ?_⟩
  · have htoNat : ∀ b : Bool, (if b = true then 1 else 0) = b.toNat := by decide
    have hone : old.counted.toNat ≤ s.tasks.countP TaskStage.counted := by
      cases hc : old.counted with
      | false => exact Nat.zero_le _
      | true => exact List.countP_pos_iff.mpr ⟨old, List.mem_of_getElem? hi, hc⟩
    have hset := List.countP_set (p := TaskStage.counted) (a := new) hlt
    simp only [hget, htoNat] at hset
    have hcounted := h.counted
    rw [htasks, htimer, hset]
    omega
  · intro hne
    refine htimer.trans (h.joined fun hj => hne ?_)
    obtain hsame | hnotified := hstop
    · rw [hsame, hj]
    · rw [hnotified, hj]
      rfl
  · intro j stage hj hholds
    rw [htasks] at hj
    by_cases hji : j = i
    · subst hji
      rw [List.getElem?_set_self hlt] at hj
      cases hj
      exact hnew hholds
    · rw [List.getElem?_set_ne (Ne.symm hji)] at hj
      refine hholder _ (h.holder j stage hj hholds) fun heq => hji ?_
      cases heq
      rfl
  · intro htest
    exact hholder _ (h.testing (hback _ nofun htest)) nofun
  · intro hret
    exact absurd (h.returned (hback _ nofun hret) old (List.mem_of_getElem? hi)) hold

/-- A step of a task keeps the invariant. -/
theorem TasksInv.taskStep (h : TasksInv s) {a : TaskStep} (hi : s.tasks[i]? = some old)
    (hs : s.taskStep i old a = some t) : TasksInv t := by
  unfold BackgroundTasks.taskStep at hs
  split at hs
  · cases hs
    exact h.setTask hi nofun rfl rfl (.inl rfl) rfl (fun _ ho _ => ho) nofun
  · cases hs
    exact h
  · cases hs
    have hpos : 0 < s.inFlightTasks := by
      have hone : 0 < s.tasks.countP TaskStage.counted :=
        List.countP_pos_iff.mpr ⟨_, List.mem_of_getElem? hi, rfl⟩
      rw [h.counted]
      omega
    refine h.setTask hi nofun rfl rfl (.inl rfl) ?_ (fun _ ho _ => ho) ?_
    · split
      · exact Nat.sub_add_cancel hpos
      · exact Nat.sub_add_cancel hpos
    · split <;> nofun
  · split at hs
    · rename_i hfree
      cases hs
      refine h.setTask hi nofun rfl rfl (.inl rfl) rfl (fun _ ho => ?_) fun _ => rfl
      rw [hfree] at ho
      cases ho
    · cases hs
  · cases hs
    exact h.setTask hi nofun rfl rfl (.inr rfl) rfl (fun _ ho _ => ho) fun _ => h.holder i _ hi rfl
  · cases hs
    refine h.setTask hi nofun rfl rfl (.inl rfl) rfl (fun _ ho hne => ?_) nofun
    rw [h.holder i _ hi rfl] at ho
    cases ho
    exact absurd rfl hne
  · cases hs

/-- While the timer thread runs, `stop` waits for it. -/
theorem TasksInv.joining (h : TasksInv s) (hrun : s.timer ≠ .ended) : s.stop = .joining := by
  by_contra hne
  exact hrun (h.joined hne)

/-- When the counter is zero, every task is behind its decrement. -/
theorem TasksInv.not_counted (h : TasksInv s) (hzero : s.inFlightTasks = 0) {stage : TaskStage}
    (hmem : stage ∈ s.tasks) : stage.counted = false := by
  have hnone : s.tasks.countP TaskStage.counted = 0 := by
    have hcounted := h.counted
    omega
  exact Bool.eq_false_iff.mpr (List.countP_eq_zero.mp hnone stage hmem)

theorem TasksInv.count (h : TasksInv s) (hlooping : s.timer = .looping) :
    TasksInv { s with inFlightTasks := s.inFlightTasks + 1, timer := .submitting } := by
  have hjoining : s.stop = .joining := h.joining (hlooping ▸ nofun)
  refine ⟨?_, fun hne => absurd hjoining hne, h.holder, h.testing, h.returned⟩
  have hcounted := h.counted
  rw [hlooping] at hcounted
  simp only [TimerStage.pending] at hcounted ⊢
  omega

theorem TasksInv.push (h : TasksInv s) (hsubmitting : s.timer = .submitting) :
    TasksInv { s with tasks := s.tasks ++ [.queued], timer := .looping } := by
  have hjoining : s.stop = .joining := h.joining (hsubmitting ▸ nofun)
  refine ⟨?_, fun hne => absurd hjoining hne, fun i stage hi hholds => ?_, h.testing,
    fun hret => ?_⟩
  · have hcounted := h.counted
    rw [hsubmitting] at hcounted
    simp only [TimerStage.pending, List.countP_append] at hcounted ⊢
    rw [hcounted]
    simp [TaskStage.counted]
    omega
  · rw [List.getElem?_append] at hi
    split at hi
    · exact h.holder i stage hi hholds
    · rw [List.mem_singleton.mp (List.mem_of_getElem? hi)] at hholds
      cases hholds
  · rw [hjoining] at hret
    cases hret

/-- While `stop` holds the mutex, no task does. -/
theorem TasksInv.not_holds (h : TasksInv s) (htesting : s.stop = .testing) {stage : TaskStage}
    (hmem : stage ∈ s.tasks) : stage.holds = false := by
  obtain ⟨i, hi⟩ := List.mem_iff_getElem?.mp hmem
  by_contra hholds
  have hholder := h.holder i stage hi (Bool.not_eq_false _ ▸ hholds)
  rw [h.testing htesting] at hholder
  cases hholder

/-- The test of the predicate. If it finds the counter at zero and no task is about to lock, then
every task is done. -/
theorem TasksInv.test (h : TasksInv s) (htesting : s.stop = .testing)
    (hsafe : s.inFlightTasks = 0 → TaskStage.locking ∉ s.tasks) :
    TasksInv { s with
      stop := if s.inFlightTasks = 0 then .returned else .waiting
      holder := none } := by
  refine ⟨h.counted, fun _ => h.joined ?_, fun i stage hi hholds => ?_, fun hne => ?_,
    fun hret stage hmem => ?_⟩
  · rw [htesting]
    nofun
  · rw [h.not_holds htesting (List.mem_of_getElem? hi)] at hholds
    cases hholds
  · dsimp only at hne
    split at hne <;> cases hne
  · dsimp only at hret
    split at hret
    · rename_i hzero
      have hcounted := h.not_counted hzero hmem
      have hholds := h.not_holds htesting hmem
      cases stage with
      | locking => exact absurd hmem (hsafe hzero)
      | done => rfl
      | queued | running => cases hcounted
      | notifying | unlocking => cases hholds
    · cases hret

/-- Every safe step keeps the invariant. -/
theorem tasksInv_step {a : TasksAction} (h : TasksInv s) (hsafe : StopTestSafe s a)
    (hs : s.step a = some t) : TasksInv t := by
  cases a with
  | count =>
    simp only [BackgroundTasks.step, Option.ite_none_right_eq_some] at hs
    obtain ⟨hlooping, hs⟩ := hs
    cases hs
    exact h.count hlooping
  | push =>
    simp only [BackgroundTasks.step, Option.ite_none_right_eq_some] at hs
    obtain ⟨hsubmitting, hs⟩ := hs
    cases hs
    exact h.push hsubmitting
  | timerEnds =>
    simp only [BackgroundTasks.step, Option.ite_none_right_eq_some] at hs
    obtain ⟨hlooping, hs⟩ := hs
    cases hs
    refine ⟨?_, fun _ => rfl, h.holder, h.testing, h.returned⟩
    rw [h.counted, hlooping]
    rfl
  | task i a =>
    obtain ⟨stage, hi, hs⟩ := Option.bind_eq_some_iff.mp hs
    exact h.taskStep hi hs
  | join =>
    simp only [BackgroundTasks.step, Option.ite_none_right_eq_some] at hs
    obtain ⟨⟨-, hended⟩, hs⟩ := hs
    cases hs
    exact ⟨h.counted, fun _ => hended, h.holder, nofun, nofun⟩
  | lock =>
    simp only [BackgroundTasks.step, Option.ite_none_right_eq_some] at hs
    obtain ⟨⟨hlocking, hfree⟩, hs⟩ := hs
    cases hs
    refine ⟨h.counted, fun _ => h.joined ?_, fun i stage hi hholds => ?_, fun _ => rfl, nofun⟩
    · rw [hlocking]
      nofun
    · have hholder := h.holder i stage hi hholds
      rw [hfree] at hholder
      cases hholder
  | test =>
    simp only [BackgroundTasks.step, Option.ite_none_right_eq_some] at hs
    obtain ⟨htesting, hs⟩ := hs
    cases hs
    exact h.test htesting (hsafe htesting)
  | wake =>
    simp only [BackgroundTasks.step, Option.ite_none_right_eq_some] at hs
    obtain ⟨hwaiting, hs⟩ := hs
    cases hs
    refine ⟨h.counted, fun _ => h.joined ?_, h.holder, nofun, nofun⟩
    rw [hwaiting]
    nofun

/-- Where the invariant holds, no task can use a member after the return of `stop`. -/
theorem TasksInv.membersFree (h : TasksInv s) (hret : s.stop = .returned) : s.MembersFree := by
  intro i a _
  cases hi : s.tasks[i]? with
  | none => simp [BackgroundTasks.step, hi]
  | some stage =>
    rw [h.returned hret stage (List.mem_of_getElem? hi)] at hi
    simp [BackgroundTasks.step, hi, BackgroundTasks.taskStep]

/-- After an unsafe test `stop` has returned, and a task can lock the mutex. -/
theorem not_membersFree_of_late {a : TasksAction} (hlate : ¬ StopTestSafe s a)
    (hs : s.step a = some t) : t.stop = .returned ∧ ¬ t.MembersFree := by
  cases a with
  | test =>
    simp only [StopTestSafe, Classical.not_imp, not_not] at hlate
    obtain ⟨htesting, hzero, hmem⟩ := hlate
    simp only [BackgroundTasks.step, htesting, hzero, if_true] at hs
    cases hs
    refine ⟨rfl, fun hfree => ?_⟩
    obtain ⟨i, hi⟩ := List.mem_iff_getElem?.mp hmem
    have hlock := hfree i .lock rfl
    simp [BackgroundTasks.step, hi, BackgroundTasks.taskStep] at hlock
  | _ => exact absurd trivial hlate

end

/-! ## Whole runs -/

/-- **`stop` waits for the tasks.** At every point of a run, `stop` has returned only if no task can
take a step that uses a member, exactly if `stop` never finds the counter at zero while a task is
about to lock. -/
theorem stop_waits_iff (acts : List TasksAction) :
    (∀ pre s outs, pre <+: acts → tasksMachine.run .start pre = some (s, outs) →
      s.stop = .returned → s.MembersFree) ↔
    tasksMachine.Along StopTestSafe .start acts := by
  refine Machine.forall_prefix_iff_along (I := TasksInv)
    (P := fun s => s.stop = .returned → s.MembersFree) (fun _ h => h.membersFree) ?_ ?_ ?_
    tasksInv_start acts
  · intro s a t _ h hsafe hs
    obtain ⟨_, hstep, heq⟩ := Option.map_eq_some_iff.mp hs
    cases heq
    exact tasksInv_step h hsafe hstep
  · intro s a t _ _ hlate hs hfree
    obtain ⟨_, hstep, heq⟩ := Option.map_eq_some_iff.mp hs
    cases heq
    obtain ⟨hret, hnot⟩ := not_membersFree_of_late hlate hstep
    exact hnot (hfree hret)
  · intro s a hs
    by_contra hlate
    cases a with
    | test =>
      simp only [StopTestSafe, Classical.not_imp] at hlate
      simp [tasksMachine, BackgroundTasks.step, hlate.1] at hs
    | _ => exact hlate trivial

/-- One task; `stop` tests the counter between its decrement and its lock. -/
def lateLockActions : List TasksAction :=
  [.count, .push, .timerEnds, .task 0 .begin, .task 0 .use, .join, .lock, .task 0 .decrement, .test]

/-- The task locks `tasksDoneMutex_` after `stop` has returned. -/
theorem lastTask_locks_after_return :
    ∃ s outs, tasksMachine.run .start lateLockActions = some (s, outs) ∧ s.stop = .returned ∧
      TaskStep.lock.usesMembers = true ∧ (s.step (.task 0 .lock)).isSome = true :=
  ⟨_, _, rfl, rfl, rfl, rfl⟩

end TinyKV
