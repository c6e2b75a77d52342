import TinyKV.ThreadPool
import Mathlib.Algebra.Order.BigOperators.Group.Finset
import Mathlib.Data.Fintype.Card

/-!
# The pool comes to rest

`submit` in `src/concurrency/thread_pool.cpp` notifies one worker when it has given `queueMutex_`
back. A worker sleeps only if it has found the queue empty, and it takes one task at a time; the
destructor notifies all workers once and joins them.

* `pool_step`, `testStep_cases`: what a step does.
* `PoolAwake`: while a worker sleeps, each queued task has a notification or a worker that is on its
  way to the queue; and no worker sleeps behind `notify_all`. `poolAwake_step`.
* `sleepers_are_not_needed`: this holds in every state.
* `ThreadPool.stepsLeft`: the steps that the pool can take by itself. `stepsLeft_step`.
* `pool_comes_to_rest`: the pool stops after a bounded number of steps, and not before every task
  has run and the destructor, if it was called, has returned.
-/

namespace TinyKV

variable {n : Nat} {α : Type*} {p p' : ThreadPool n α} {i : PoolAction n α}
  {o : Option (PoolEvent α)}

/-! ## The steps -/

theorem Worker.eq_waiting {x : Worker α} (h : x.isWaiting = true) : x = .waiting := by
  cases x with
  | waiting => rfl
  | _ => cases h

theorem Worker.eq_exited {x : Worker α} (h : x.hasExited = true) : x = .exited := by
  cases x with
  | exited => rfl
  | _ => cases h

/-- What a step does. -/
theorem pool_step (hs : p.step i = some (p', o)) :
    match i with
    | .submit task => p.destructor = .idle ∧ o = none ∧
        p' = { p with tasks := p.tasks ++ [task], notifies := p.notifies + 1 }
    | .notifyOne (some w) => p.notifies ≠ 0 ∧ p.workers w = .waiting ∧ o = none ∧
        p' = { p with notifies := p.notifies - 1 }.setWorker w .locking
    | .notifyOne none => p.notifies ≠ 0 ∧ (∀ w, p.workers w ≠ .waiting) ∧ o = none ∧
        p' = { p with notifies := p.notifies - 1 }
    | .test w => p.workers w = .locking ∧ (p', o) = p.testStep w
    | .wake w => p.workers w = .waiting ∧ o = none ∧ p' = p.setWorker w .locking
    | .finish w => ∃ task, p.workers w = .running task ∧ o = some (.finished task) ∧
        p' = p.setWorker w .locking
    | .setStop => p.destructor = .idle ∧ p.notifies = 0 ∧ o = none ∧
        p' = { p with stop := true, destructor := .notifying }
    | .notifyAll => p.destructor = .notifying ∧ o = none ∧
        p' = { p with workers := fun w => (p.workers w).notified, destructor := .joining }
    | .join => p.destructor = .joining ∧ (∀ w, p.workers w = .exited) ∧ o = none ∧
        p' = { p with destructor := .returned } := by
  cases i with
  | submit task =>
    obtain ⟨hidle, hs⟩ := Option.ite_none_right_eq_some.mp hs
    cases hs
    exact ⟨hidle, rfl, rfl⟩
  | notifyOne woken =>
    cases woken with
    | none =>
      obtain ⟨⟨hsome, hnone⟩, hs⟩ := Option.ite_none_right_eq_some.mp hs
      cases hs
      refine ⟨hsome, fun w hw => ?_, rfl, rfl⟩
      have hwaiting := hnone w
      rw [hw] at hwaiting
      cases hwaiting
    | some w =>
      obtain ⟨⟨hsome, hw⟩, hs⟩ := Option.ite_none_right_eq_some.mp hs
      cases hs
      exact ⟨hsome, Worker.eq_waiting hw, rfl, rfl⟩
  | test w =>
    simp only [ThreadPool.step] at hs
    split at hs
    · rename_i hw
      exact ⟨hw, (Option.some.inj hs).symm⟩
    · cases hs
  | wake w =>
    simp only [ThreadPool.step] at hs
    split at hs
    · rename_i hw
      cases hs
      exact ⟨hw, rfl, rfl⟩
    · cases hs
  | finish w =>
    simp only [ThreadPool.step] at hs
    split at hs
    · rename_i task hw
      cases hs
      exact ⟨task, hw, rfl, rfl⟩
    · cases hs
  | setStop =>
    obtain ⟨⟨hidle, hzero⟩, hs⟩ := Option.ite_none_right_eq_some.mp hs
    cases hs
    exact ⟨hidle, hzero, rfl, rfl⟩
  | notifyAll =>
    obtain ⟨hnotifying, hs⟩ := Option.ite_none_right_eq_some.mp hs
    cases hs
    exact ⟨hnotifying, rfl, rfl⟩
  | join =>
    obtain ⟨⟨hjoining, hexited⟩, hs⟩ := Option.ite_none_right_eq_some.mp hs
    cases hs
    exact ⟨hjoining, fun w => Worker.eq_exited (hexited w), rfl, rfl⟩

/-- A worker at the predicate takes a task, ends or goes to sleep. -/
theorem testStep_cases (p : ThreadPool n α) (w : Fin n) :
    (∃ task rest, p.tasks = task :: rest ∧
      p.testStep w = ({ p with tasks := rest }.setWorker w (.running task), some (.taken task))) ∨
    (p.tasks = [] ∧ p.stop = true ∧ p.testStep w = (p.setWorker w .exited, none)) ∨
    (p.tasks = [] ∧ p.stop = false ∧ p.testStep w = (p.setWorker w .waiting, none)) := by
  unfold ThreadPool.testStep
  cases htasks : p.tasks with
  | cons task rest => exact .inl ⟨task, rest, rfl, by simp⟩
  | nil =>
    cases hstop : p.stop with
    | true => exact .inr (.inl ⟨rfl, rfl, rfl⟩)
    | false => exact .inr (.inr ⟨rfl, rfl, rfl⟩)

/-! ## Sums over the workers -/

/-- The sum of `f` over the workers. -/
def ThreadPool.total (f : Worker α → Nat) (p : ThreadPool n α) : Nat := ∑ w, f (p.workers w)

theorem total_setWorker (f : Worker α → Nat) (p : ThreadPool n α) (w : Fin n) (x : Worker α) :
    (p.setWorker w x).total f + f (p.workers w) = p.total f + f x := by
  have hrest : ∑ v ∈ Finset.univ.erase w, f (Function.update p.workers w x v) =
      ∑ v ∈ Finset.univ.erase w, f (p.workers v) :=
    Finset.sum_congr rfl fun v hv => by rw [Function.update_of_ne (Finset.ne_of_mem_erase hv)]
  have hnew := Finset.add_sum_erase Finset.univ (fun v => f (Function.update p.workers w x v))
    (Finset.mem_univ w)
  have hold := Finset.add_sum_erase Finset.univ (fun v => f (p.workers v)) (Finset.mem_univ w)
  simp only [Function.update_self] at hnew
  show ∑ v, f (Function.update p.workers w x v) + f (p.workers w) = ∑ v, f (p.workers v) + f x
  omega

/-- The worker goes to the queue and looks at it. -/
def Worker.isLocking : Worker α → Bool
  | .locking => true
  | .waiting => false
  | .running _ => false
  | .exited => false

/-- The workers on their way to the queue. -/
def ThreadPool.onTheWay (p : ThreadPool n α) : Nat := p.total fun x => x.isLocking.toNat

theorem onTheWay_setWorker (p : ThreadPool n α) {w : Fin n} {old : Worker α}
    (hw : p.workers w = old) (new : Worker α) :
    (p.setWorker w new).onTheWay + old.isLocking.toNat = p.onTheWay + new.isLocking.toNat := by
  rw [← hw]
  exact total_setWorker _ p w new

/-! ## No task waits for a worker that sleeps -/

structure PoolAwake (p : ThreadPool n α) : Prop where
  awake : ∀ w, p.workers w = .waiting → p.tasks.length ≤ p.notifies + p.onTheWay
  stop : p.destructor ≠ .idle → p.stop = true
  joining : p.destructor = .joining → ∀ w, p.workers w ≠ .waiting

theorem poolAwake_start : PoolAwake (ThreadPool.start n α) where
  awake _ h := by cases h
  stop h := absurd rfl h
  joining h := by cases h

/-- A worker that waits after a worker moved. -/
theorem waiting_setWorker {w v : Fin n} {x : Worker α}
    (h : (p.setWorker w x).workers v = .waiting) : x = .waiting ∨ p.workers v = .waiting := by
  have h : Function.update p.workers w x v = .waiting := h
  by_cases hvw : v = w
  · rw [hvw, Function.update_self] at h
    exact .inl h
  · rw [Function.update_of_ne hvw] at h
    exact .inr h

/-- A worker goes to the queue. -/
theorem PoolAwake.toQueue (h : PoolAwake p) {w : Fin n} {old : Worker α}
    (hw : p.workers w = old) (hold : old.isLocking = false) :
    PoolAwake (p.setWorker w .locking) where
  awake v hv := by
    obtain hx | hv := waiting_setWorker hv
    · cases hx
    · have hle := h.awake v hv
      have hway := onTheWay_setWorker p hw .locking
      rw [hold] at hway
      replace hway : (p.setWorker w .locking).onTheWay + 0 = p.onTheWay + 1 := hway
      show p.tasks.length ≤ p.notifies + (p.setWorker w .locking).onTheWay
      omega
  stop := h.stop
  joining hj v hv := by
    obtain hx | hv := waiting_setWorker hv
    · cases hx
    · exact h.joining hj v hv

/-- A worker has looked at the queue. -/
theorem PoolAwake.test (h : PoolAwake p) {w : Fin n} (hw : p.workers w = .locking) :
    PoolAwake (p.testStep w).1 := by
  obtain ⟨task, rest, htasks, heq⟩ | ⟨htasks, -, heq⟩ | ⟨htasks, hstop, heq⟩ := testStep_cases p w
  · rw [heq]
    refine ⟨fun v hv => ?_, h.stop, fun hj v hv => ?_⟩
    · obtain hx | hv := waiting_setWorker hv
      · cases hx
      · have hle := h.awake v hv
        have hway : ({ p with tasks := rest }.setWorker w (.running task)).onTheWay + 1 =
            p.onTheWay + 0 := onTheWay_setWorker { p with tasks := rest } hw (.running task)
        rw [htasks, List.length_cons] at hle
        show rest.length ≤ p.notifies +
          ({ p with tasks := rest }.setWorker w (.running task)).onTheWay
        omega
    · obtain hx | hv := waiting_setWorker hv
      · cases hx
      · exact h.joining hj v hv
  · rw [heq]
    refine ⟨fun v _ => ?_, h.stop, fun hj v hv => ?_⟩
    · show p.tasks.length ≤ _
      rw [htasks]
      exact Nat.zero_le _
    · obtain hx | hv := waiting_setWorker hv
      · cases hx
      · exact h.joining hj v hv
  · rw [heq]
    refine ⟨fun v _ => ?_, h.stop, fun hj => ?_⟩
    · show p.tasks.length ≤ _
      rw [htasks]
      exact Nat.zero_le _
    · have htrue := h.stop (by rw [show p.destructor = .joining from hj]; nofun)
      rw [hstop] at htrue
      cases htrue

theorem poolAwake_step (h : PoolAwake p) (hs : p.step i = some (p', o)) : PoolAwake p' := by
  have hstep := pool_step hs
  cases i with
  | submit task =>
    obtain ⟨hidle, -, rfl⟩ := hstep
    refine ⟨fun w hw => ?_, h.stop, h.joining⟩
    have hle := h.awake w hw
    show (p.tasks ++ [task]).length ≤ p.notifies + 1 + p.onTheWay
    rw [List.length_append, List.length_singleton]
    omega
  | notifyOne woken =>
    cases woken with
    | none =>
      obtain ⟨-, hnone, -, rfl⟩ := hstep
      exact ⟨fun w hw => absurd hw (hnone w), h.stop, h.joining⟩
    | some w =>
      obtain ⟨hsome, hw, -, rfl⟩ := hstep
      -- The notification is now the worker on its way.
      have hway : ({ p with notifies := p.notifies - 1 }.setWorker w .locking).onTheWay + 0 =
          p.onTheWay + 1 := onTheWay_setWorker { p with notifies := p.notifies - 1 } hw .locking
      refine ⟨fun v hv => ?_, h.stop, fun hj => absurd hw (h.joining hj w)⟩
      obtain hx | hv := waiting_setWorker hv
      · cases hx
      · have hle := h.awake v hv
        show p.tasks.length ≤ p.notifies - 1 +
          ({ p with notifies := p.notifies - 1 }.setWorker w .locking).onTheWay
        omega
  | test w =>
    obtain ⟨hw, htest⟩ := hstep
    have hkeep := h.test hw
    rw [← htest] at hkeep
    exact hkeep
  | wake w =>
    obtain ⟨hw, -, rfl⟩ := hstep
    exact h.toQueue hw rfl
  | finish w =>
    obtain ⟨task, hw, -, rfl⟩ := hstep
    exact h.toQueue hw rfl
  | setStop =>
    obtain ⟨-, -, -, rfl⟩ := hstep
    exact ⟨h.awake, fun _ => rfl, nofun⟩
  | notifyAll =>
    obtain ⟨hnotifying, -, rfl⟩ := hstep
    have hawake : ∀ w, (p.workers w).notified ≠ .waiting := by
      intro w
      cases p.workers w <;> nofun
    refine ⟨fun w hw => absurd hw (hawake w), fun _ => h.stop ?_, fun _ => hawake⟩
    rw [hnotifying]
    nofun
  | join =>
    obtain ⟨hjoining, -, -, rfl⟩ := hstep
    refine ⟨h.awake, fun _ => h.stop ?_, nofun⟩
    rw [hjoining]
    nofun

theorem poolAwake_run {acts : List (PoolAction n α)} {outs : List (Option (PoolEvent α))}
    (hr : (poolMachine n α).run (ThreadPool.start n α) acts = some (p, outs)) : PoolAwake p :=
  Machine.run_invariant (I := PoolAwake) (fun _ _ _ _ h _ hs => poolAwake_step h hs)
    (Machine.along_true _ _) hr poolAwake_start

/-- **A worker that sleeps is not needed.** In every state of a run, if a worker sleeps, then there
are as many notifications to come and workers on their way to the queue as there are tasks in it. -/
theorem sleepers_are_not_needed {acts : List (PoolAction n α)}
    {outs : List (Option (PoolEvent α))}
    (hr : (poolMachine n α).run (ThreadPool.start n α) acts = some (p, outs)) {w : Fin n}
    (hw : p.workers w = .waiting) : p.tasks.length ≤ p.notifies + p.onTheWay :=
  (poolAwake_run hr).awake w hw

/-! ## Coming to rest -/

/-- The steps of a worker until it sleeps or ends. -/
def Worker.steps : Worker α → Nat
  | .waiting => 0
  | .exited => 0
  | .locking => 1
  | .running _ => 2

/-- The steps of the destructor, with those of the workers that `notify_all` wakes. -/
def PoolDestructor.steps (n : Nat) : PoolDestructor → Nat
  | .idle => 0
  | .notifying => n + 2
  | .joining => 1
  | .returned => 0

/-- The steps that the pool can take by itself: two for a task, and two for a notification. -/
def ThreadPool.stepsLeft (p : ThreadPool n α) : Nat :=
  2 * p.tasks.length + 2 * p.notifies + p.total Worker.steps + p.destructor.steps n

/-- A step that the pool takes by itself counts one. -/
def PoolAction.own : PoolAction n α → Nat
  | .notifyOne _ => 1
  | .test _ => 1
  | .finish _ => 1
  | .notifyAll => 1
  | .join => 1
  | .submit _ => 0
  | .wake _ => 0
  | .setStop => 0

/-- The steps that an action from outside brings the pool. -/
def PoolAction.brings : PoolAction n α → Nat
  | .submit _ => 4
  | .wake _ => 1
  | .setStop => n + 2
  | .notifyOne _ => 0
  | .test _ => 0
  | .finish _ => 0
  | .notifyAll => 0
  | .join => 0

theorem stepsLeft_setWorker (p : ThreadPool n α) {w : Fin n} {old : Worker α}
    (hw : p.workers w = old) (new : Worker α) :
    (p.setWorker w new).stepsLeft + old.steps = p.stepsLeft + new.steps := by
  have htotal := total_setWorker Worker.steps p w new
  rw [hw] at htotal
  show 2 * p.tasks.length + 2 * p.notifies + (p.setWorker w new).total Worker.steps +
    p.destructor.steps n + old.steps = p.stepsLeft + new.steps
  unfold ThreadPool.stepsLeft
  omega

/-- `notify_all` wakes `n` workers at most. -/
theorem total_notified (p : ThreadPool n α) :
    ∑ w, (p.workers w).notified.steps ≤ p.total Worker.steps + n := by
  have hone : ∀ x : Worker α, x.notified.steps ≤ x.steps + 1 := by
    intro x
    cases x with
    | waiting => exact Nat.le_refl 1
    | locking | running | exited => exact Nat.le_succ _
  calc ∑ w, (p.workers w).notified.steps
      ≤ ∑ w, ((p.workers w).steps + 1) := Finset.sum_le_sum fun w _ => hone _
    _ = p.total Worker.steps + n := by simp [Finset.sum_add_distrib, ThreadPool.total]

theorem stepsLeft_step (hs : p.step i = some (p', o)) :
    p'.stepsLeft + i.own ≤ p.stepsLeft + i.brings := by
  have hstep := pool_step hs
  cases i with
  | submit task =>
    obtain ⟨-, -, rfl⟩ := hstep
    simp only [ThreadPool.stepsLeft, ThreadPool.total, PoolAction.own, PoolAction.brings,
      List.length_append, List.length_singleton]
    omega
  | notifyOne woken =>
    cases woken with
    | none =>
      obtain ⟨hsome, -, -, rfl⟩ := hstep
      simp only [ThreadPool.stepsLeft, ThreadPool.total, PoolAction.own, PoolAction.brings]
      omega
    | some w =>
      obtain ⟨hsome, hw, -, rfl⟩ := hstep
      have hmove := stepsLeft_setWorker { p with notifies := p.notifies - 1 } hw .locking
      simp only [ThreadPool.stepsLeft, ThreadPool.total, Worker.steps, PoolAction.own,
        PoolAction.brings] at hmove ⊢
      omega
  | test w =>
    obtain ⟨hw, htest⟩ := hstep
    obtain ⟨task, rest, htasks, heq⟩ | ⟨-, -, heq⟩ | ⟨-, -, heq⟩ := testStep_cases p w
    · cases htest.trans heq
      have hmove := stepsLeft_setWorker { p with tasks := rest } hw (.running task)
      simp only [ThreadPool.stepsLeft, ThreadPool.total, Worker.steps, PoolAction.own,
        PoolAction.brings, htasks, List.length_cons] at hmove ⊢
      omega
    · cases htest.trans heq
      exact (stepsLeft_setWorker p hw .exited).le
    · cases htest.trans heq
      exact (stepsLeft_setWorker p hw .waiting).le
  | wake w =>
    obtain ⟨hw, -, rfl⟩ := hstep
    exact (stepsLeft_setWorker p hw .locking).le
  | finish w =>
    obtain ⟨task, hw, -, rfl⟩ := hstep
    have hmove : (p.setWorker w .locking).stepsLeft + 2 = p.stepsLeft + 1 :=
      stepsLeft_setWorker p hw .locking
    show (p.setWorker w .locking).stepsLeft + 1 ≤ p.stepsLeft
    omega
  | setStop =>
    obtain ⟨hidle, -, -, rfl⟩ := hstep
    simp only [ThreadPool.stepsLeft, ThreadPool.total, PoolAction.own, PoolAction.brings, hidle,
      PoolDestructor.steps]
    omega
  | notifyAll =>
    obtain ⟨hnotifying, -, rfl⟩ := hstep
    have hwoken := total_notified p
    simp only [ThreadPool.stepsLeft, ThreadPool.total, PoolAction.own, PoolAction.brings,
      hnotifying, PoolDestructor.steps] at hwoken ⊢
    omega
  | join =>
    obtain ⟨hjoining, -, -, rfl⟩ := hstep
    simp only [ThreadPool.stepsLeft, ThreadPool.total, PoolAction.own, PoolAction.brings, hjoining,
      PoolDestructor.steps]
    omega

/-- No step of its own is open to the pool. -/
def ThreadPool.AtRest (p : ThreadPool n α) : Prop :=
  ∀ a : PoolAction n α, a.own = 1 → p.step a = none

/-- At rest a worker sleeps or has ended. -/
theorem ThreadPool.AtRest.worker (h : p.AtRest) (w : Fin n) :
    p.workers w = .waiting ∨ p.workers w = .exited := by
  cases hw : p.workers w with
  | waiting => exact .inl rfl
  | exited => exact .inr rfl
  | locking =>
    have htest := h (.test w) rfl
    simp [ThreadPool.step, hw] at htest
  | running task =>
    have hfinish := h (.finish w) rfl
    simp [ThreadPool.step, hw] at hfinish

theorem ThreadPool.AtRest.notifies (h : p.AtRest) : p.notifies = 0 := by
  by_contra hsome
  by_cases hsleeper : ∃ w, p.workers w = .waiting
  · obtain ⟨w, hw⟩ := hsleeper
    have hnotify := h (.notifyOne (some w)) rfl
    simp [ThreadPool.step, hsome, hw, Worker.isWaiting] at hnotify
  · have hnone : ∀ w, (p.workers w).isWaiting = false := by
      intro w
      cases hw : p.workers w with
      | waiting => exact absurd ⟨w, hw⟩ hsleeper
      | _ => rfl
    have hnotify := h (.notifyOne none) rfl
    simp [ThreadPool.step, hsome, hnone] at hnotify

/-- At rest nobody is on the way to the queue, so that a worker that sleeps has no task. -/
theorem ThreadPool.AtRest.tasks (h : p.AtRest) (hn : 0 < n) (hawake : PoolAwake p)
    (hexited : ∀ w, p.workers w = .exited → p.tasks = []) : p.tasks = [] := by
  obtain hw | hw := h.worker ⟨0, hn⟩
  · have hle := hawake.awake _ hw
    have hnobody : p.onTheWay = 0 := by
      unfold ThreadPool.onTheWay ThreadPool.total
      refine Finset.sum_eq_zero fun w _ => ?_
      obtain hw | hw := h.worker w
      · rw [hw]
        rfl
      · rw [hw]
        rfl
    rw [h.notifies, hnobody] at hle
    exact List.eq_nil_of_length_eq_zero (Nat.le_zero.mp hle)
  · exact hexited _ hw

theorem ThreadPool.AtRest.destructor (h : p.AtRest) (hawake : PoolAwake p) :
    p.destructor = .idle ∨ p.destructor = .returned := by
  cases hd : p.destructor with
  | idle => exact .inl rfl
  | returned => exact .inr rfl
  | notifying =>
    have hnotify := h .notifyAll rfl
    simp [ThreadPool.step, hd] at hnotify
  | joining =>
    have hall : ∀ w, (p.workers w).hasExited = true := by
      intro w
      obtain hw | hw := h.worker w
      · exact absurd hw (hawake.joining hd w)
      · rw [hw]
        rfl
    have hjoin := h .join rfl
    simp [ThreadPool.step, hd, hall] at hjoin

/-- **The pool comes to rest.** However the threads take turns, the steps that the pool takes by
itself are bounded by what the calls of `submit`, of the destructor and the wake-ups bring. When no
such step is open, every task that was submitted has run, and the destructor has returned if it was
called. -/
theorem pool_comes_to_rest (hn : 0 < n) {acts : List (PoolAction n α)}
    {outs : List (Option (PoolEvent α))}
    (hr : (poolMachine n α).run (ThreadPool.start n α) acts = some (p, outs)) :
    (acts.map PoolAction.own).sum ≤ n + (acts.map PoolAction.brings).sum ∧
      (p.AtRest → (finished outs).Perm (submitted acts) ∧
        (p.destructor = .idle ∨ p.destructor = .returned)) := by
  have hawake := poolAwake_run hr
  have hinv := poolInv_run hr
  refine ⟨?_, fun hrest => ⟨?_, hrest.destructor hawake⟩⟩
  · have hpotential : p.stepsLeft + (acts.map PoolAction.own).sum ≤
        (ThreadPool.start n α).stepsLeft + (acts.map PoolAction.brings).sum :=
      Machine.run_potential ThreadPool.stepsLeft (I := fun _ => True)
        (fun _ _ _ _ _ _ hs => ⟨trivial, stepsLeft_step hs⟩) (Machine.along_true _ _) hr trivial
    have hstart : (ThreadPool.start n α).stepsLeft = n := by
      simp [ThreadPool.stepsLeft, ThreadPool.start, ThreadPool.total, Worker.steps,
        PoolDestructor.steps]
    omega
  · have htasks : p.tasks = [] := hrest.tasks hn hawake fun w hw => (hinv.exited w hw).2
    have hidle : p.running = 0 := Finset.sum_eq_zero fun w _ => by
      obtain hw | hw := hrest.worker w
      · rw [hw]
        rfl
      · rw [hw]
        rfl
    have horder := hinv.order
    have htaken := hinv.taken
    rw [htasks, List.append_nil] at horder
    rw [hidle, zero_add, horder] at htaken
    exact (Multiset.coe_eq_coe.mp htaken).symm

theorem sleepers_are_not_needed_burst :
    ∃ p outs, (poolMachine 2 Nat).run (ThreadPool.start 2 Nat)
        [.test 0, .test 1, .submit 10, .notifyOne (some 0), .submit 11, .submit 12] =
          some (p, outs) ∧
      p.tasks.length = 3 ∧ 3 ≤ p.notifies + p.onTheWay := by
  have hrun : (poolMachine 2 Nat).run (ThreadPool.start 2 Nat)
      [.test 0, .test 1, .submit 10, .notifyOne (some 0), .submit 11, .submit 12] =
        some (_, _) := rfl
  exact ⟨_, _, hrun, rfl, sleepers_are_not_needed hrun (w := 1) rfl⟩

theorem pool_comes_to_rest_drain :
    ∃ p outs, (poolMachine 2 Nat).run (ThreadPool.start 2 Nat) drainActions = some (p, outs) ∧
      (finished outs).Perm [10, 11, 12] ∧
      (p.destructor = .idle ∨ p.destructor = .returned) := by
  have hrun : (poolMachine 2 Nat).run (ThreadPool.start 2 Nat) drainActions = some (_, _) := rfl
  obtain ⟨-, hrest⟩ := pool_comes_to_rest (by decide) hrun
  refine ⟨_, _, hrun, hrest fun a ha => ?_⟩
  -- Both workers have ended, and the destructor has returned.
  match a, ha with
  | .notifyOne none, _ | .notifyOne (some _), _ | .notifyAll, _ | .join, _ => rfl
  | .test 0, _ | .test 1, _ | .finish 0, _ | .finish 1, _ => rfl

end TinyKV
