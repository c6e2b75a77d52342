import TinyKV.Lib.Machine
import Mathlib.Algebra.BigOperators.Group.Finset.Basic
import Mathlib.Data.Fintype.Basic
import Mathlib.Data.Multiset.AddSub
import Mathlib.Tactic.Abel

/-!
# The thread pool

`src/concurrency/thread_pool.cpp`: `n` workers take tasks from one queue. Any threads call `submit`;
the destructor sets `stop_`, wakes the workers and joins them.

* `poolMachine`: the calls of `submit`, the workers and the destructor, a step at a time. `tasks_`
  and `stop_` are used only under `queueMutex_`, so that what a thread does while it holds the mutex
  is one step; a `wait` whose predicate is false gives the mutex back in the same step. A worker can
  wake up without a `notify`.
* `PoolInv`: what holds in every state, with the tasks taken and finished so far. `poolInv_step`.
* `pool_runs_every_task`: every task is taken once, in the order of submission, and when the workers
  have ended every task has finished.

A task that throws ends the program; it is not in the model.
-/

namespace TinyKV

variable {n : Nat} {α : Type*}

/-- Where a worker is in `workerLoop`. -/
inductive Worker (α : Type*) where
  /-- It is about to lock `queueMutex_`, at the top of the loop or in `wait`. -/
  | locking
  /-- Asleep in `cv_.wait`. -/
  | waiting
  /-- `task()` -/
  | running (task : α)
  | exited

/-- Where the destructor is. -/
inductive PoolDestructor where
  | idle
  /-- `stop_` is set; `cv_.notify_all` is next. -/
  | notifying
  | joining
  | returned
  deriving DecidableEq

structure ThreadPool (n : Nat) (α : Type*) where
  /-- `tasks_`, the front first. -/
  tasks : List α
  stop : Bool
  workers : Fin n → Worker α
  /-- Calls of `submit` that have pushed their task; `cv_.notify_one` is next. -/
  notifies : Nat
  destructor : PoolDestructor

/-- After the constructor. -/
def ThreadPool.start (n : Nat) (α : Type*) : ThreadPool n α :=
  ⟨[], false, fun _ => .locking, 0, .idle⟩

inductive PoolAction (n : Nat) (α : Type*) where
  /-- A call of `submit` pushes its task. -/
  | submit (task : α)
  /-- `cv_.notify_one` of a call of `submit`, with the worker that it wakes. -/
  | notifyOne (woken : Option (Fin n))
  /-- A worker locks the mutex, tests the predicate, and goes on or waits. -/
  | test (worker : Fin n)
  /-- A worker wakes up by itself. -/
  | wake (worker : Fin n)
  /-- The task of a worker returns. -/
  | finish (worker : Fin n)
  /-- The destructor sets `stop_`. -/
  | setStop
  | notifyAll
  | join

/-- What is seen of a step: a task that is taken from the queue, or one that has returned. -/
inductive PoolEvent (α : Type*) where
  | taken (task : α)
  | finished (task : α)

def Worker.isWaiting : Worker α → Bool
  | .waiting => true
  | _ => false

def Worker.hasExited : Worker α → Bool
  | .exited => true
  | _ => false

/-- `cv_.notify_all` for one worker. -/
def Worker.notified : Worker α → Worker α
  | .waiting => .locking
  | w => w

namespace ThreadPool

def setWorker (p : ThreadPool n α) (w : Fin n) (x : Worker α) : ThreadPool n α :=
  { p with workers := Function.update p.workers w x }

/-- A worker holds the mutex, at the predicate of `wait`. -/
def testStep (p : ThreadPool n α) (w : Fin n) : ThreadPool n α × Option (PoolEvent α) :=
  if p.stop || !p.tasks.isEmpty then
    match p.tasks with
    | [] => (p.setWorker w .exited, none) -- `stop_ && tasks_.empty()`
    | task :: rest => ({ p with tasks := rest }.setWorker w (.running task), some (.taken task))
  else (p.setWorker w .waiting, none)

/-- One step. No `submit` is under way when the destructor begins, and none comes later. -/
def step (p : ThreadPool n α) : PoolAction n α → Option (ThreadPool n α × Option (PoolEvent α))
  | .submit task =>
    if p.destructor = .idle then
      some ({ p with tasks := p.tasks ++ [task], notifies := p.notifies + 1 }, none)
    else none
  | .notifyOne (some w) =>
    if p.notifies ≠ 0 ∧ (p.workers w).isWaiting then
      some ({ p with notifies := p.notifies - 1 }.setWorker w .locking, none)
    else none
  | .notifyOne none =>
    if p.notifies ≠ 0 ∧ ∀ w, (p.workers w).isWaiting = false then
      some ({ p with notifies := p.notifies - 1 }, none)
    else none
  | .test w =>
    match p.workers w with
    | .locking => some (p.testStep w)
    | _ => none
  | .wake w =>
    match p.workers w with
    | .waiting => some (p.setWorker w .locking, none)
    | _ => none
  | .finish w =>
    match p.workers w with
    | .running task => some (p.setWorker w .locking, some (.finished task))
    | _ => none
  | .setStop =>
    if p.destructor = .idle ∧ p.notifies = 0 then
      some ({ p with stop := true, destructor := .notifying }, none)
    else none
  | .notifyAll =>
    if p.destructor = .notifying then
      some ({ p with workers := fun w => (p.workers w).notified, destructor := .joining }, none)
    else none
  | .join =>
    if p.destructor = .joining ∧ ∀ w, (p.workers w).hasExited = true then
      some ({ p with destructor := .returned }, none)
    else none

end ThreadPool

def poolMachine (n : Nat) (α : Type*) :
    Machine (ThreadPool n α) (PoolAction n α) (Option (PoolEvent α)) where
  step := ThreadPool.step

/-- The tasks that were submitted, in order. -/
def submitted (acts : List (PoolAction n α)) : List α :=
  acts.filterMap fun
    | .submit task => some task
    | _ => none

/-- The tasks that were taken, in order. -/
def taken (outs : List (Option (PoolEvent α))) : List α :=
  outs.filterMap fun
    | some (.taken task) => some task
    | _ => none

/-- The tasks that have returned, in order. -/
def finished (outs : List (Option (PoolEvent α))) : List α :=
  outs.filterMap fun
    | some (.finished task) => some task
    | _ => none

/-! ## Running tasks -/

/-- The task that the worker runs. -/
def Worker.task : Worker α → Multiset α
  | .running task => {task}
  | _ => 0

/-- The tasks that the workers run. -/
def ThreadPool.running (p : ThreadPool n α) : Multiset α := ∑ w, (p.workers w).task

/-- How the running tasks change when one worker moves. -/
theorem running_setWorker (p : ThreadPool n α) (w : Fin n) (x : Worker α) :
    (p.setWorker w x).running + (p.workers w).task = p.running + x.task := by
  have hrest : ∑ v ∈ Finset.univ.erase w, (Function.update p.workers w x v).task =
      ∑ v ∈ Finset.univ.erase w, (p.workers v).task :=
    Finset.sum_congr rfl fun v hv => by rw [Function.update_of_ne (Finset.ne_of_mem_erase hv)]
  have hnew := Finset.add_sum_erase Finset.univ
    (fun v => (Function.update p.workers w x v).task) (Finset.mem_univ w)
  have hold := Finset.add_sum_erase Finset.univ (fun v => (p.workers v).task) (Finset.mem_univ w)
  simp only [Function.update_self] at hnew
  unfold ThreadPool.running ThreadPool.setWorker
  rw [← hnew, ← hold, hrest]
  abel

/-- A worker that moves with its task. -/
theorem running_setWorker_same {p : ThreadPool n α} {w : Fin n} {x : Worker α}
    (h : x.task = (p.workers w).task) : (p.setWorker w x).running = p.running := by
  have hmove := running_setWorker p w x
  rw [h] at hmove
  exact add_right_cancel hmove

/-- A worker that has ended after a worker moved. -/
theorem exited_setWorker {p : ThreadPool n α} {w v : Fin n} {x : Worker α}
    (h : (p.setWorker w x).workers v = .exited) :
    v = w ∧ x = .exited ∨ p.workers v = .exited := by
  have h : Function.update p.workers w x v = .exited := h
  by_cases hvw : v = w
  · rw [hvw, Function.update_self] at h
    exact .inl ⟨hvw, h⟩
  · rw [Function.update_of_ne hvw] at h
    exact .inr h

/-! ## The invariant -/

/-- What holds of the pool, the actions and what was seen so far. -/
structure PoolInv (p : ThreadPool n α) (acts : List (PoolAction n α))
    (outs : List (Option (PoolEvent α))) : Prop where
  order : taken outs ++ p.tasks = submitted acts
  taken : (taken outs : Multiset α) = p.running + finished outs
  stop : p.stop = true → p.destructor ≠ .idle
  /-- A worker ends only when the pool is stopped and the queue is empty. -/
  exited : ∀ w, p.workers w = .exited → p.stop = true ∧ p.tasks = []
  returned : p.destructor = .returned → ∀ w, p.workers w = .exited

section

variable {p : ThreadPool n α} {acts : List (PoolAction n α)} {outs : List (Option (PoolEvent α))}

theorem poolInv_start : PoolInv (ThreadPool.start n α) [] [] where
  order := rfl
  taken := by
    have hzero : (ThreadPool.start n α).running = 0 := Finset.sum_eq_zero fun _ _ => rfl
    rw [hzero]
    rfl
  stop h := by cases h
  exited _ h := by cases h
  returned h := by cases h

theorem submitted_concat (i : PoolAction n α) :
    submitted (acts ++ [i]) = submitted acts ++ submitted [i] := List.filterMap_append

theorem taken_concat (o : Option (PoolEvent α)) : taken (outs ++ [o]) = taken outs ++ taken [o] :=
  List.filterMap_append

theorem finished_concat (o : Option (PoolEvent α)) :
    finished (outs ++ [o]) = finished outs ++ finished [o] := List.filterMap_append

/-- A step of which nothing is seen. -/
theorem PoolInv.quiet (h : PoolInv p acts outs) {i : PoolAction n α}
    (hi : submitted [i] = []) : PoolInv p (acts ++ [i]) (outs ++ [none]) := by
  have hacts : submitted (acts ++ [i]) = submitted acts := by
    rw [submitted_concat, hi, List.append_nil]
  have htaken : TinyKV.taken (outs ++ [none]) = TinyKV.taken outs :=
    (taken_concat none).trans (List.append_nil _)
  have hfinished : finished (outs ++ [none]) = finished outs :=
    (finished_concat none).trans (List.append_nil _)
  exact ⟨by rw [htaken, hacts, h.order], by rw [htaken, hfinished, h.taken], h.stop, h.exited,
    h.returned⟩

/-- The invariant does not look at the pending notifications. -/
theorem PoolInv.setNotifies (h : PoolInv p acts outs) (k : Nat) :
    PoolInv { p with notifies := k } acts outs :=
  ⟨h.order, h.taken, h.stop, h.exited, h.returned⟩

/-- A worker that has not ended moves with its task. -/
theorem PoolInv.setWorker (h : PoolInv p acts outs) {w : Fin n} {x : Worker α}
    (htask : x.task = (p.workers w).task) (hold : p.workers w ≠ .exited)
    (hexit : x = .exited → p.stop = true ∧ p.tasks = []) : PoolInv (p.setWorker w x) acts outs where
  order := h.order
  taken := by rw [running_setWorker_same htask]; exact h.taken
  stop := h.stop
  exited v hv := by
    obtain ⟨-, hx⟩ | hold := exited_setWorker hv
    · exact hexit hx
    · exact h.exited v hold
  returned hr := absurd (h.returned hr w) hold

/-- A worker takes the first task. -/
theorem PoolInv.take (h : PoolInv p acts outs) {w : Fin n} {task : α} {rest : List α}
    (hw : p.workers w = .locking) (htasks : p.tasks = task :: rest) :
    PoolInv ({ p with tasks := rest }.setWorker w (.running task)) (acts ++ [.test w])
      (outs ++ [some (.taken task)]) where
  order := by
    rw [taken_concat, submitted_concat, ← h.order, htasks]
    simp [TinyKV.taken, submitted, ThreadPool.setWorker]
  taken := by
    have hrun := running_setWorker { p with tasks := rest } w (.running task)
    have hnone : (p.workers w).task = 0 := by rw [hw]; rfl
    rw [hnone, add_zero] at hrun
    rw [hrun, taken_concat, finished_concat]
    calc ((TinyKV.taken outs ++ [task] : List α) : Multiset α)
        = TinyKV.taken outs + {task} := (Multiset.coe_add _ _).symm
      _ = p.running + finished outs + {task} := by rw [h.taken]
      _ = p.running + {task} + finished outs := by abel
      _ = p.running + {task} + ((finished outs ++ [] : List α) : Multiset α) := by
        rw [List.append_nil]
  stop := h.stop
  exited v hv := by
    obtain ⟨-, hx⟩ | hold := exited_setWorker hv
    · cases hx
    · have hempty := (h.exited v hold).2
      rw [htasks] at hempty
      cases hempty
  returned hr := by
    have hexited := h.returned hr w
    rw [hw] at hexited
    cases hexited

/-- The task of a worker returns. -/
theorem PoolInv.finish (h : PoolInv p acts outs) {w : Fin n} {task : α}
    (hw : p.workers w = .running task) :
    PoolInv (p.setWorker w .locking) (acts ++ [.finish w]) (outs ++ [some (.finished task)]) where
  order := by
    rw [taken_concat, submitted_concat, ← h.order]
    simp [TinyKV.taken, submitted, ThreadPool.setWorker]
  taken := by
    have hrun := running_setWorker p w .locking
    have htask : (p.workers w).task = {task} := by rw [hw]; rfl
    rw [htask] at hrun
    rw [taken_concat, finished_concat]
    calc ((TinyKV.taken outs ++ [] : List α) : Multiset α)
        = p.running + finished outs := by rw [List.append_nil, h.taken]
      _ = (p.setWorker w .locking).running + {task} + finished outs := by
        rw [hrun]; exact congrArg (· + _) (add_zero _).symm
      _ = (p.setWorker w .locking).running + (finished outs + {task}) := by abel
      _ = (p.setWorker w .locking).running + ((finished outs ++ [task] : List α) : Multiset α) := by
        rw [← Multiset.coe_add]; rfl
  stop := h.stop
  exited v hv := by
    obtain ⟨-, hx⟩ | hold := exited_setWorker hv
    · cases hx
    · exact h.exited v hold
  returned hr := by
    have hexited := h.returned hr w
    rw [hw] at hexited
    cases hexited

/-- A worker tests the predicate. -/
theorem PoolInv.test (h : PoolInv p acts outs) {w : Fin n} (hw : p.workers w = .locking) :
    PoolInv (p.testStep w).1 (acts ++ [.test w]) (outs ++ [(p.testStep w).2]) := by
  have hold : p.workers w ≠ .exited := hw ▸ nofun
  have hnone : ∀ x : Worker α, x.task = 0 → x.task = (p.workers w).task := fun x hx => by
    rw [hx, hw]
    rfl
  unfold ThreadPool.testStep
  by_cases hgo : (p.stop || !p.tasks.isEmpty) = true
  · rw [if_pos hgo]
    cases htasks : p.tasks with
    | nil =>
      rw [htasks] at hgo
      have hstop : p.stop = true := by simpa using hgo
      exact (h.quiet rfl).setWorker (hnone _ rfl) hold fun _ => ⟨hstop, htasks⟩
    | cons task rest => exact h.take hw htasks
  · rw [if_neg hgo]
    exact (h.quiet rfl).setWorker (hnone _ rfl) hold nofun

/-- A call of `submit` pushes its task. -/
theorem PoolInv.push (h : PoolInv p acts outs) (hidle : p.destructor = .idle) (task : α) :
    PoolInv { p with tasks := p.tasks ++ [task], notifies := p.notifies + 1 }
      (acts ++ [.submit task]) (outs ++ [none]) where
  order := by
    rw [taken_concat, submitted_concat, ← h.order]
    simp [TinyKV.taken, submitted]
  taken := by
    rw [taken_concat, finished_concat]
    exact (congrArg _ (List.append_nil _)).trans
      (h.taken.trans (congrArg _ (congrArg _ (List.append_nil _).symm)))
  stop := h.stop
  exited w hw := absurd hidle (h.stop (h.exited w hw).1)
  returned := h.returned

theorem PoolInv.notifyAll (h : PoolInv p acts outs) :
    PoolInv { p with workers := fun w => (p.workers w).notified, destructor := .joining } acts
      outs where
  order := h.order
  taken := by
    have hsame : ∀ w, (p.workers w).notified.task = (p.workers w).task := by
      intro w
      cases p.workers w <;> rfl
    exact h.taken.trans (congrArg (· + _) (Finset.sum_congr rfl fun w _ => (hsame w).symm))
  stop _ := nofun
  exited w hw := by
    have hw : (p.workers w).notified = .exited := hw
    refine h.exited w ?_
    cases hold : p.workers w with
    | exited => rfl
    | _ =>
      rw [hold] at hw
      cases hw
  returned := nofun

/-- Every step keeps the invariant. -/
theorem poolInv_step {p' : ThreadPool n α} {i : PoolAction n α} {o : Option (PoolEvent α)}
    (h : PoolInv p acts outs) (hs : p.step i = some (p', o)) :
    PoolInv p' (acts ++ [i]) (outs ++ [o]) := by
  cases i with
  | submit task =>
    simp only [ThreadPool.step, Option.ite_none_right_eq_some] at hs
    obtain ⟨hidle, hs⟩ := hs
    cases hs
    exact h.push hidle task
  | notifyOne woken =>
    have hnotified := (h.quiet (i := .notifyOne woken) rfl).setNotifies (p.notifies - 1)
    cases woken with
    | none =>
      simp only [ThreadPool.step, Option.ite_none_right_eq_some] at hs
      obtain ⟨-, hs⟩ := hs
      cases hs
      exact hnotified
    | some w =>
      simp only [ThreadPool.step, Option.ite_none_right_eq_some] at hs
      obtain ⟨⟨-, hwaiting⟩, hs⟩ := hs
      cases hs
      cases hw : p.workers w with
      | waiting =>
        exact hnotified.setWorker (congrArg Worker.task hw).symm (hw ▸ nofun) nofun
      | _ =>
        rw [hw] at hwaiting
        cases hwaiting
  | test w =>
    cases hw : p.workers w with
    | locking =>
      simp only [ThreadPool.step, hw, Option.some.injEq] at hs
      have hkeep := h.test hw
      rw [hs] at hkeep
      exact hkeep
    | _ =>
      simp only [ThreadPool.step, hw] at hs
      cases hs
  | wake w =>
    cases hw : p.workers w with
    | waiting =>
      simp only [ThreadPool.step, hw, Option.some.injEq] at hs
      cases hs
      exact (h.quiet rfl).setWorker (congrArg Worker.task hw).symm (hw ▸ nofun) nofun
    | _ =>
      simp only [ThreadPool.step, hw] at hs
      cases hs
  | finish w =>
    cases hw : p.workers w with
    | running task =>
      simp only [ThreadPool.step, hw, Option.some.injEq] at hs
      cases hs
      exact h.finish hw
    | _ =>
      simp only [ThreadPool.step, hw] at hs
      cases hs
  | setStop =>
    have hkeep := h.quiet (i := .setStop) rfl
    simp only [ThreadPool.step, Option.ite_none_right_eq_some] at hs
    obtain ⟨-, hs⟩ := hs
    cases hs
    exact ⟨hkeep.order, hkeep.taken, fun _ => nofun, fun w hw => ⟨rfl, (h.exited w hw).2⟩, nofun⟩
  | notifyAll =>
    simp only [ThreadPool.step, Option.ite_none_right_eq_some] at hs
    obtain ⟨-, hs⟩ := hs
    cases hs
    exact (h.quiet rfl).notifyAll
  | join =>
    have hkeep := h.quiet (i := .join) rfl
    simp only [ThreadPool.step, Option.ite_none_right_eq_some] at hs
    obtain ⟨⟨hjoining, hall⟩, hs⟩ := hs
    cases hs
    refine ⟨hkeep.order, hkeep.taken, fun _ => nofun, h.exited, fun _ w => ?_⟩
    have hw := hall w
    cases hold : p.workers w with
    | exited => rfl
    | _ =>
      rw [hold] at hw
      cases hw

end

/-- The invariant holds after every run. -/
theorem poolInv_run {p : ThreadPool n α} {acts : List (PoolAction n α)}
    {outs : List (Option (PoolEvent α))}
    (hr : (poolMachine n α).run (ThreadPool.start n α) acts = some (p, outs)) :
    PoolInv p acts outs :=
  Machine.run_history (I := PoolInv) (fun _ _ _ _ _ _ _ h _ hs => poolInv_step h hs)
    (Machine.along_true _ _) hr poolInv_start

/-- In every interleaving the tasks are taken in the order of submission, each once; the submitted
tasks are the queued, the running and the finished ones; and when the workers have ended, which the
destructor waits for, every task has finished. -/
theorem pool_runs_every_task (hn : 0 < n) {p : ThreadPool n α} {acts : List (PoolAction n α)}
    {outs : List (Option (PoolEvent α))}
    (hr : (poolMachine n α).run (ThreadPool.start n α) acts = some (p, outs)) :
    taken outs ++ p.tasks = submitted acts ∧
      ((submitted acts).Nodup → (taken outs).Nodup) ∧
      (submitted acts : Multiset α) = p.tasks + p.running + finished outs ∧
      (p.destructor = .returned → ∀ w, p.workers w = .exited) ∧
      ((∀ w, p.workers w = .exited) → p.tasks = [] ∧ (finished outs).Perm (submitted acts)) := by
  have h := poolInv_run hr
  have hunion : (submitted acts : Multiset α) = p.tasks + p.running + finished outs := by
    rw [← h.order, ← Multiset.coe_add, h.taken]
    abel
  refine ⟨h.order, fun hnodup => ?_, hunion, h.returned, fun hall => ?_⟩
  · rw [← h.order] at hnodup
    exact hnodup.of_append_left
  · have hqueue : p.tasks = [] := (h.exited ⟨0, hn⟩ (hall _)).2
    have hidle : p.running = 0 := Finset.sum_eq_zero fun w _ => by rw [hall w]; rfl
    rw [hqueue, hidle, Multiset.coe_nil, zero_add, zero_add] at hunion
    exact ⟨hqueue, Multiset.coe_eq_coe.mp hunion.symm⟩

/-- Two workers and three tasks, the last of which are still queued when the pool stops. -/
def drainActions : List (PoolAction 2 Nat) :=
  [.test 1, .submit 10, .notifyOne (some 1), .test 0, .test 1, .submit 11, .notifyOne (some 1),
    .submit 12, .notifyOne none, .setStop, .test 1, .finish 0, .test 0, .notifyAll, .finish 1,
    .test 1, .finish 0, .test 0, .join]

theorem pool_runs_every_task_drain :
    ∃ p outs, (poolMachine 2 Nat).run (ThreadPool.start 2 Nat) drainActions = some (p, outs) ∧
      p.destructor = .returned ∧ (finished outs).Perm [10, 11, 12] := by
  refine ⟨_, _, rfl, rfl, ?_⟩
  have hrun : (poolMachine 2 Nat).run (ThreadPool.start 2 Nat) drainActions = some (_, _) := rfl
  obtain ⟨-, -, -, hjoined, hdrained⟩ := pool_runs_every_task (by decide) hrun
  exact (hdrained (hjoined rfl)).2

end TinyKV
