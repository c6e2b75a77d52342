import TinyKV.Durability
import TinyKV.PoolLiveness
import TinyKV.Timer

/-!
# One flush a second

A primary with its timer thread and its thread pool, as `main` in `src/server_main.cpp` puts them
together: the timer gives the pool a flush every second, a worker runs it, and the clients' lines go
on all the while. The process can be killed at any time.

* `everysecMachine`: the server and its buffer (`Durability.lean`), the timer thread (`Timer.lean`)
  and the pool (`ThreadPool.lean`), a step at a time. The tasks carry the time at which the pool was
  given them, and a task does its work in its last step. `everysec_step`: what a step does.
* `ThreadPool.Holds`: a task is in the pool from `submit` until it has run. `holds_step`.
* `Timely`: the timer is late by `latency` milliseconds at most, a task has run `delay` milliseconds
  after it was given, and nobody calls `stop`. A crash cuts the file at the end of a line.
* `TimerPhase.flushBy`: when the next flush will have been given. `flushBy_step`: a step does not
  put it off.
* `EverysecInv`: what waits for a flush is owed one, which is in the pool or will be in time.
  `everysecInv_step`.
* `crash_loses_last_second`: a process that is killed outside of `save()` loses what was written in
  the last `1000 + 2 * latency + delay` milliseconds, and nothing before.

A flush hands the bytes to the operating system; that the machine loses power is not in the model.
Lines, the sweeper and what runs beside `save()` are as in `Durability.lean`: a task that saves does
so in one step, or the process is killed within it.
-/

namespace TinyKV

/-! ## The server with its threads -/

structure Everysec (n : Nat) where
  server : BufferedServer
  timer : Timer
  pool : ThreadPool n (Int × TimerTask)

def Everysec.start (n : Nat) (clock : Nat → Now) (now : Int) : Everysec n :=
  ⟨.start clock, .start now, .start n _⟩

inductive EverysecAction (n : Nat) where
  /-- A line of the client on connection `fd`. -/
  | line (fd : Nat) (now : Now) (line : Line)
  /-- Some bytes leave the buffer. -/
  | spill (k : Nat)
  /-- The process is killed, and a new one starts on the files. -/
  | crash (saved : Option Nat) (clock : Nat → Now)
  /-- The clock, or a step of the timer thread. -/
  | timer (a : TimerAction)
  /-- A step of the pool; its tasks are those of the timer. -/
  | pool (a : PoolAction n (Int × TimerTask))

/-- What a task does to the server. -/
def TimerTask.act : TimerTask → BufferedAction
  | .flush => .flush
  | .save => .save

namespace Everysec

variable {n : Nat} (s : Everysec n)

/-- The server does a step, which is seen with its time. -/
def serve (a : BufferedAction) : Option (Everysec n × Option (Int × BufferedAction)) :=
  (bufferedMachine.step s.server a).map fun r =>
    ({ s with server := r.1 }, some (s.timer.now, a))

/-- The timer thread has done a step, with a task for the pool. -/
def submit (timer : Timer) :
    Option TimerTask → Option (Everysec n × Option (Int × BufferedAction))
  | none => some ({ s with timer := timer }, none)
  | some task => (s.pool.step (.submit (timer.now, task))).map fun r =>
    ({ s with timer := timer, pool := r.1 }, none)

/-- The pool has done a step. -/
def poolDone (pool : ThreadPool n (Int × TimerTask)) :
    Option (PoolEvent (Int × TimerTask)) →
      Option (Everysec n × Option (Int × BufferedAction))
  | some (.finished task) => ({ s with pool := pool } : Everysec n).serve task.2.act
  | some (.taken _) => some ({ s with pool := pool }, none)
  | none => some ({ s with pool := pool }, none)

def step (saveIntervalSeconds : Int) :
    EverysecAction n → Option (Everysec n × Option (Int × BufferedAction))
  | .line fd now line => s.serve (.line fd now line)
  | .spill k => s.serve (.spill k)
  | .crash saved clock =>
    some (⟨s.server.crash saved clock, .start s.timer.now, .start n _⟩,
      some (s.timer.now, .crash saved clock))
  | .timer a => (s.timer.step saveIntervalSeconds a).bind fun r => s.submit r.1 r.2
  | .pool (.submit _) => none
  | .pool a => (s.pool.step a).bind fun r => s.poolDone r.1 r.2

end Everysec

def everysecMachine (n : Nat) (saveIntervalSeconds : Int) :
    Machine (Everysec n) (EverysecAction n) (Option (Int × BufferedAction)) where
  step s := s.step saveIntervalSeconds

section

variable {n : Nat} {saveIntervalSeconds : Int} {s s' : Everysec n}
  {o : Option (Int × BufferedAction)}

theorem serve_eq_some {a : BufferedAction} (h : s.serve a = some (s', o)) :
    ∃ t r, bufferedMachine.step s.server a = some (t, r) ∧ s' = { s with server := t } ∧
      o = some (s.timer.now, a) := by
  obtain ⟨⟨t, r⟩, hstep, he⟩ := Option.map_eq_some_iff.mp h
  cases he
  exact ⟨t, r, hstep, rfl, rfl⟩

/-- What a step does: the server serves, the timer thread does a step, or the pool does. -/
theorem everysec_step {a : EverysecAction n} (hs : s.step saveIntervalSeconds a = some (s', o)) :
    match a with
    | .line fd now line => s.serve (.line fd now line) = some (s', o)
    | .spill k => s.serve (.spill k) = some (s', o)
    | .crash saved clock => s' = ⟨s.server.crash saved clock, .start s.timer.now, .start n _⟩ ∧
        o = some (s.timer.now, .crash saved clock)
    | .timer a => o = none ∧ ∃ t task, s.timer.step saveIntervalSeconds a = some (t, task) ∧
        (task = none ∧ s' = { s with timer := t } ∨
          ∃ x p e, task = some x ∧ s.pool.step (.submit (t.now, x)) = some (p, e) ∧
            s' = { s with timer := t, pool := p })
    | .pool a => (∀ x, a ≠ .submit x) ∧ ∃ p e, s.pool.step a = some (p, e) ∧
        ((∀ x, e ≠ some (.finished x)) ∧ o = none ∧ s' = { s with pool := p } ∨
          ∃ x, e = some (.finished x) ∧
            ({ s with pool := p } : Everysec n).serve x.2.act = some (s', o)) := by
  cases a with
  | line fd now line => exact hs
  | spill k => exact hs
  | crash saved clock =>
    cases hs
    exact ⟨rfl, rfl⟩
  | timer a =>
    obtain ⟨⟨t, task⟩, ht, hsubmit⟩ := Option.bind_eq_some_iff.mp hs
    cases task with
    | none =>
      cases hsubmit
      exact ⟨rfl, t, none, ht, .inl ⟨rfl, rfl⟩⟩
    | some x =>
      obtain ⟨⟨p, e⟩, hp, he⟩ := Option.map_eq_some_iff.mp hsubmit
      cases he
      exact ⟨rfl, t, some x, ht, .inr ⟨x, p, e, rfl, hp, rfl⟩⟩
  | pool a =>
    have hpool : (∀ x, a ≠ .submit x) ∧
        ((s.pool.step a).bind fun r => s.poolDone r.1 r.2) = some (s', o) := by
      cases a with
      | submit => cases hs
      | notifyOne | test | wake | finish | setStop | notifyAll | join => exact ⟨nofun, hs⟩
    obtain ⟨⟨p, e⟩, hp, hdone⟩ := Option.bind_eq_some_iff.mp hpool.2
    refine ⟨hpool.1, p, e, hp, ?_⟩
    cases e with
    | none =>
      cases hdone
      exact .inl ⟨nofun, rfl, rfl⟩
    | some e =>
      cases e with
      | taken x =>
        cases hdone
        exact .inl ⟨nofun, rfl, rfl⟩
      | finished x => exact .inr ⟨x, rfl, hdone⟩

end

/-! ## The tasks in the pool -/

section

variable {n : Nat} {α : Type*} {p p' : ThreadPool n α} {a : PoolAction n α}
  {e : Option (PoolEvent α)} {x : α}

def Worker.runs : Worker α → Option α
  | .running task => some task
  | .locking => none
  | .waiting => none
  | .exited => none

/-- The task is in the queue, or a worker runs it. -/
def ThreadPool.Holds (p : ThreadPool n α) (x : α) : Prop :=
  x ∈ p.tasks ∨ ∃ w, (p.workers w).runs = some x

theorem runs_setWorker {w v : Fin n} {new : Worker α}
    (h : ((p.setWorker w new).workers v).runs = some x) :
    new.runs = some x ∨ (p.workers v).runs = some x := by
  have h : (Function.update p.workers w new v).runs = some x := h
  by_cases hvw : v = w
  · rw [hvw, Function.update_self] at h
    exact .inl h
  · rw [Function.update_of_ne hvw] at h
    exact .inr h

theorem runs_of_setWorker {w v : Fin n} (new : Worker α) (h : (p.workers v).runs = some x)
    (hother : (p.workers w).runs ≠ some x) :
    ((p.setWorker w new).workers v).runs = some x := by
  have hvw : v ≠ w := by
    rintro rfl
    exact hother h
  show (Function.update p.workers w new v).runs = some x
  rw [Function.update_of_ne hvw]
  exact h

/-- A worker that runs nothing moves. -/
theorem holds_setWorker {w : Fin n} {new : Worker α} (hnew : new.runs = none)
    (hold : (p.workers w).runs = none) : (p.setWorker w new).Holds x ↔ p.Holds x := by
  refine or_congr_right ⟨?_, ?_⟩
  · rintro ⟨v, hv⟩
    obtain hv | hv := runs_setWorker hv
    · rw [hnew] at hv
      cases hv
    · exact ⟨v, hv⟩
  · rintro ⟨v, hv⟩
    exact ⟨v, runs_of_setWorker new hv (by rw [hold]; nofun)⟩

/-- A worker takes the first task. -/
theorem holds_take {w : Fin n} {task : α} {rest : List α} (hw : (p.workers w).runs = none)
    (htasks : p.tasks = task :: rest) :
    ({ p with tasks := rest }.setWorker w (.running task)).Holds x ↔ p.Holds x := by
  constructor
  · rintro (hx | ⟨v, hv⟩)
    · exact .inl (htasks ▸ List.mem_cons_of_mem _ hx)
    · obtain hv | hv := runs_setWorker hv
      · cases hv
        exact .inl (htasks ▸ List.mem_cons_self)
      · exact .inr ⟨v, hv⟩
  · rintro (hx | ⟨v, hv⟩)
    · rw [htasks] at hx
      obtain rfl | hx := List.mem_cons.mp hx
      · refine .inr ⟨w, ?_⟩
        show (Function.update p.workers w (Worker.running x) w).runs = some x
        rw [Function.update_self]
        rfl
      · exact .inl hx
    · have hother : (p.workers w).runs ≠ some x := by rw [hw]; nofun
      exact .inr ⟨v, runs_of_setWorker (p := { p with tasks := rest }) _ hv hother⟩

theorem holds_submit {task : α} (hs : p.step (.submit task) = some (p', e)) :
    p'.Holds x ↔ p.Holds x ∨ x = task := by
  obtain ⟨-, -, rfl⟩ := pool_step hs
  show (x ∈ p.tasks ++ [task] ∨ _) ↔ _
  rw [List.mem_append, List.mem_singleton]
  exact or_right_comm

/-- The pool gets its tasks from `submit`, and keeps them until they have run. -/
theorem holds_step (hs : p.step a = some (p', e)) :
    (p'.Holds x → p.Holds x ∨ a = .submit x) ∧
      (p.Holds x → p'.Holds x ∨ e = some (.finished x)) := by
  have hstep := pool_step hs
  have hsame : (p'.Holds x ↔ p.Holds x) → (p'.Holds x → p.Holds x ∨ a = .submit x) ∧
      (p.Holds x → p'.Holds x ∨ e = some (.finished x)) := fun h =>
    ⟨fun hx => .inl (h.mp hx), fun hx => .inl (h.mpr hx)⟩
  cases a with
  | submit task =>
    refine ⟨fun hx => ((holds_submit hs).mp hx).imp_right ?_, fun hx =>
      .inl ((holds_submit hs).mpr (.inl hx))⟩
    rintro rfl
    rfl
  | notifyOne woken =>
    cases woken with
    | none =>
      obtain ⟨-, -, -, rfl⟩ := hstep
      exact hsame Iff.rfl
    | some w =>
      obtain ⟨-, hw, -, rfl⟩ := hstep
      exact hsame (holds_setWorker (p := { p with notifies := p.notifies - 1 }) rfl
        (congrArg Worker.runs hw))
  | test w =>
    obtain ⟨hw, htest⟩ := hstep
    have hnone : (p.workers w).runs = none := congrArg Worker.runs hw
    obtain ⟨task, rest, htasks, heq⟩ | ⟨-, -, heq⟩ | ⟨-, -, heq⟩ := testStep_cases p w
    · cases htest.trans heq
      exact hsame (holds_take hnone htasks)
    · cases htest.trans heq
      exact hsame (holds_setWorker rfl hnone)
    · cases htest.trans heq
      exact hsame (holds_setWorker rfl hnone)
  | wake w =>
    obtain ⟨hw, -, rfl⟩ := hstep
    exact hsame (holds_setWorker rfl (congrArg Worker.runs hw))
  | finish w =>
    obtain ⟨task, hw, rfl, rfl⟩ := hstep
    refine ⟨?_, ?_⟩
    · rintro (hx | ⟨v, hv⟩)
      · exact .inl (.inl hx)
      · obtain hv | hv := runs_setWorker hv
        · cases hv
        · exact .inl (.inr ⟨v, hv⟩)
    · rintro (hx | ⟨v, hv⟩)
      · exact .inl (.inl hx)
      · by_cases htask : task = x
        · exact .inr (congrArg (fun x => some (PoolEvent.finished x)) htask)
        · refine .inl (.inr ⟨v, runs_of_setWorker _ hv ?_⟩)
          rw [hw]
          exact fun h => htask (Option.some.inj h)
  | setStop =>
    obtain ⟨-, -, -, rfl⟩ := hstep
    exact hsame Iff.rfl
  | notifyAll =>
    obtain ⟨-, -, rfl⟩ := hstep
    have hruns : ∀ w, (p.workers w).notified.runs = (p.workers w).runs := by
      intro w
      cases p.workers w <;> rfl
    exact hsame (or_congr_right (exists_congr fun w => by rw [hruns]))
  | join =>
    obtain ⟨-, -, -, rfl⟩ := hstep
    exact hsame Iff.rfl

/-- A task that has run was one of a worker. -/
theorem finished_step (hs : p.step a = some (p', some (.finished x))) :
    ∃ w, a = .finish w ∧ p.workers w = .running x := by
  have hstep := pool_step hs
  cases a with
  | finish w =>
    obtain ⟨task, hw, he, -⟩ := hstep
    cases he
    exact ⟨w, rfl, hw⟩
  | test w =>
    obtain ⟨-, htest⟩ := hstep
    obtain ⟨_, _, -, heq⟩ | ⟨-, -, heq⟩ | ⟨-, -, heq⟩ := testStep_cases p w
    all_goals cases htest.trans heq
  | submit task =>
    obtain ⟨-, he, -⟩ := hstep
    cases he
  | notifyOne woken =>
    cases woken with
    | none | some =>
      obtain ⟨-, -, he, -⟩ := hstep
      cases he
  | wake w =>
    obtain ⟨-, he, -⟩ := hstep
    cases he
  | setStop | join =>
    obtain ⟨-, -, he, -⟩ := hstep
    cases he
  | notifyAll =>
    obtain ⟨-, he, -⟩ := hstep
    cases he

end

/-! ## In time -/

/-- No task is in the pool for longer than `delay`. -/
def ThreadPool.InTime {n : Nat} (delay : Nat) (now : Int)
    (p : ThreadPool n (Int × TimerTask)) : Prop :=
  ∀ x, p.Holds x → now ≤ x.1 + delay

instance {n : Nat} (delay : Nat) (now : Int) (p : ThreadPool n (Int × TimerTask)) :
    Decidable (p.InTime delay now) :=
  decidable_of_iff ((∀ x ∈ p.tasks, now ≤ x.1 + delay) ∧
      ∀ w, ∀ x ∈ (p.workers w).runs, now ≤ x.1 + delay)
    ⟨fun h x hx => hx.elim (h.1 x) fun ⟨w, hw⟩ => h.2 w x hw,
      fun h => ⟨fun x hx => h x (.inl hx), fun w x hw => h x (.inr ⟨w, hw⟩)⟩⟩

/-- A step in time: the timer is late by `latency` milliseconds at most, no task is in the pool for
longer than `delay`, and nobody calls `stop`. What it does to the files leaves whole lines. -/
def Timely {n : Nat} (latency delay : Nat) (s : Everysec n) : EverysecAction n → Prop
  | .line fd now line => CutSafe s.server (.line fd now line)
  | .spill _ => True
  | .crash saved clock => CutSafe s.server (.crash saved clock)
  | .timer .stop => False
  | .timer (.tick now) => Prompt latency s.timer (.tick now) ∧ s.pool.InTime delay now
  | .timer .notify => True
  | .timer .enter => True
  | .timer .wake => True
  | .timer .test => True
  | .timer .timeout => True
  | .timer .submit => True
  | .pool (.finish w) => ∀ x ∈ (s.pool.workers w).runs, CutSafe s.server x.2.act
  | .pool (.submit _) => True
  | .pool (.notifyOne _) => True
  | .pool (.test _) => True
  | .pool (.wake _) => True
  | .pool .setStop => True
  | .pool .notifyAll => True
  | .pool .join => True

instance {n : Nat} (latency delay : Nat) (s : Everysec n) :
    ∀ a, Decidable (Timely latency delay s a)
  | .line fd now line => inferInstanceAs (Decidable (CutSafe s.server (.line fd now line)))
  | .spill _ => instDecidableTrue
  | .crash saved clock => inferInstanceAs (Decidable (CutSafe s.server (.crash saved clock)))
  | .timer .stop => instDecidableFalse
  | .timer (.tick now) => inferInstanceAs (Decidable (Prompt latency s.timer (.tick now) ∧ _))
  | .timer .notify | .timer .enter | .timer .wake | .timer .test | .timer .timeout
  | .timer .submit => instDecidableTrue
  | .pool (.finish w) =>
    inferInstanceAs (Decidable (∀ x ∈ (s.pool.workers w).runs, CutSafe s.server x.2.act))
  | .pool (.submit _) | .pool (.notifyOne _) | .pool (.test _) | .pool (.wake _) | .pool .setStop
  | .pool .notifyAll | .pool .join => instDecidableTrue

/-! ## The next flush -/

/-- When the thread will have given the pool its next flush. -/
def TimerPhase.flushBy (latency : Nat) : TimerPhase → Option Int
  | .starting deadline => some (deadline + latency + (1000 + latency))
  | .waiting deadline => some (deadline + latency)
  | .woken deadline => some (deadline + latency)
  | .submitting deadline rest =>
    if .flush ∈ rest then some (deadline + latency)
    else some (deadline + latency + (1000 + latency))
  | .ended => none

section

variable {latency : Nat} {saveIntervalSeconds : Int} {t t' : Timer} {a : TimerAction}
  {o : Option TimerTask}

/-- The thread goes on. -/
structure TimerLive (t : Timer) : Prop where
  running : t.running = true
  phase : t.phase ≠ .ended

theorem TimerLive.deadline (h : TimerLive t) : ∃ d, t.phase.deadline = some d := by
  cases hphase : t.phase with
  | ended => exact absurd hphase h.phase
  | starting d | waiting d | woken d | submitting d rest => exact ⟨d, rfl⟩

theorem timerLive_step (h : TimerLive t) (ha : a ≠ .stop)
    (hs : t.step saveIntervalSeconds a = some (t', o)) : TimerLive t' := by
  have hstep := timer_step hs
  obtain ⟨hrunning, hphase⟩ := h
  cases a with
  | stop => exact absurd rfl ha
  | tick now =>
    obtain ⟨-, rfl, -⟩ := hstep
    exact ⟨hrunning, hphase⟩
  | notify =>
    obtain ⟨-, -, rfl⟩ := hstep
    refine ⟨hrunning, fun hended => ?_⟩
    have hended : t.phase.notified = .ended := hended
    cases hold : t.phase with
    | ended => exact hphase hold
    | starting | waiting | woken | submitting =>
      rw [hold] at hended
      cases hended
  | enter =>
    obtain ⟨d, -, rfl, -⟩ := hstep
    rw [Timer.loop, if_pos hrunning]
    exact ⟨hrunning, by rintro ⟨⟩⟩
  | wake =>
    obtain ⟨d, -, rfl, -⟩ := hstep
    exact ⟨hrunning, by rintro ⟨⟩⟩
  | test =>
    obtain ⟨d, -, -, rfl⟩ := hstep
    rw [if_pos hrunning]
    exact ⟨hrunning, by rintro ⟨⟩⟩
  | timeout =>
    obtain ⟨d, -, -, -, ⟨-, rfl⟩ | ⟨hstopped, -⟩⟩ := hstep
    · unfold Timer.body
      split <;> exact ⟨hrunning, by rintro ⟨⟩⟩
    · rw [hrunning] at hstopped
      cases hstopped
  | submit =>
    obtain ⟨d, task, rest, -, -, rfl⟩ := hstep
    exact ⟨hrunning, by rintro ⟨⟩⟩

/-- The next flush is not far, and it is not late. -/
theorem OnTime.flushBy (h : OnTime latency t) (hphase : t.phase ≠ .ended) :
    ∃ b, t.phase.flushBy latency = some b ∧ b ≤ t.now + (1000 + 2 * latency) := by
  cases hp : t.phase with
  | starting d =>
    obtain ⟨-, hset⟩ := h d (by rw [hp]; rfl)
    rw [hp] at hset
    refine ⟨_, rfl, ?_⟩
    simp only [TimerPhase.ahead] at hset
    omega
  | waiting d | woken d =>
    obtain ⟨-, hset⟩ := h d (by rw [hp]; rfl)
    rw [hp] at hset
    refine ⟨_, rfl, ?_⟩
    simp only [TimerPhase.ahead] at hset
    omega
  | submitting d rest =>
    obtain ⟨-, hset⟩ := h d (by rw [hp]; rfl)
    rw [hp] at hset
    simp only [TimerPhase.ahead] at hset
    by_cases hrest : .flush ∈ rest
    · exact ⟨_, if_pos hrest, by omega⟩
    · exact ⟨_, if_neg hrest, by omega⟩
  | ended => exact absurd hp hphase

theorem OnTime.now_le (h : OnTime latency t) {b : Int} (hb : t.phase.flushBy latency = some b) :
    t.now ≤ b := by
  cases hp : t.phase with
  | starting d | waiting d | woken d =>
    obtain ⟨hlate, -⟩ := h d (by rw [hp]; rfl)
    rw [hp] at hb
    cases hb
    omega
  | submitting d rest =>
    obtain ⟨hlate, -⟩ := h d (by rw [hp]; rfl)
    rw [hp] at hb
    by_cases hrest : .flush ∈ rest
    · cases (if_pos hrest).symm.trans hb
      exact hlate
    · cases (if_neg hrest).symm.trans hb
      omega
  | ended =>
    rw [hp] at hb
    cases hb

/-- The thread gives the pool a flush, or the next one will not be later. -/
theorem flushBy_step (hrunning : t.running = true) (ht : OnTime latency t) (ha : a ≠ .stop)
    (hs : t.step saveIntervalSeconds a = some (t', o)) {b : Int}
    (hb : t.phase.flushBy latency = some b) :
    (∃ b', t'.phase.flushBy latency = some b' ∧ b' ≤ b) ∨ o = some .flush ∧ t'.now ≤ b := by
  have hstep := timer_step hs
  have hnow := ht.now_le hb
  cases a with
  | stop => exact absurd rfl ha
  | tick now =>
    obtain ⟨-, rfl, -⟩ := hstep
    exact .inl ⟨b, hb, le_rfl⟩
  | notify =>
    obtain ⟨-, -, rfl⟩ := hstep
    have hsame : t.phase.notified.flushBy latency = t.phase.flushBy latency := by
      cases t.phase <;> rfl
    exact .inl ⟨b, hsame.trans hb, le_rfl⟩
  | enter =>
    obtain ⟨d, hphase, rfl, -⟩ := hstep
    have hlate : t.phase.deadline = some d ∧
        t.phase.flushBy latency = some (d + latency + (1000 + latency)) := by
      obtain hphase | hphase := hphase <;> rw [hphase] <;> exact ⟨rfl, rfl⟩
    rw [hlate.2] at hb
    cases hb
    rw [Timer.loop, if_pos hrunning]
    refine .inl ⟨t.now + 1000 + latency, rfl, ?_⟩
    have hle := (ht d hlate.1).1
    omega
  | wake =>
    obtain ⟨d, hphase, rfl, -⟩ := hstep
    rw [hphase] at hb
    exact .inl ⟨b, hb, le_rfl⟩
  | test =>
    obtain ⟨d, hphase, -, rfl⟩ := hstep
    rw [hphase] at hb
    rw [if_pos hrunning]
    exact .inl ⟨b, hb, le_rfl⟩
  | timeout =>
    obtain ⟨d, hphase, -, -, ⟨-, rfl⟩ | ⟨hstopped, -⟩⟩ := hstep
    · rw [hphase] at hb
      refine .inl ⟨b, ?_, le_rfl⟩
      unfold Timer.body
      split <;> exact hb
    · rw [hrunning] at hstopped
      cases hstopped
  | submit =>
    obtain ⟨d, task, rest, hphase, rfl, rfl⟩ := hstep
    cases task with
    | flush => exact .inr ⟨rfl, hnow⟩
    | save =>
      rw [hphase] at hb
      refine .inl ⟨b, ?_, le_rfl⟩
      rw [← hb]
      show (if _ then _ else _) = if _ then _ else _
      simp only [List.mem_cons, reduceCtorEq, false_or]

end

/-! ## What waits for a flush -/

section

variable {n : Nat} {latency delay : Nat} {saveIntervalSeconds : Int} {clock : Nat → Now}
  {s s' : Everysec n} {o : Option (Int × BufferedAction)} {history : List (Int × BufferedAction)}

/-- What the server has done since the buffer was last forced out. -/
def unforced (history : List (Int × BufferedAction)) : List (Int × BufferedAction) :=
  history.rtakeWhile fun x => !x.2.forces

/-- What was done at `time` will be flushed: the flush is in the pool, or the timer gives it. -/
def Owed (latency : Nat) (s : Everysec n) (time : Int) : Prop :=
  (∃ given, s.pool.Holds (given, .flush) ∧ given ≤ time + (1000 + 2 * latency)) ∨
    ∃ b, s.timer.phase.flushBy latency = some b ∧ b ≤ time + (1000 + 2 * latency)

structure EverysecInv (clock : Nat → Now) (latency delay : Nat) (s : Everysec n)
    (history : List (Int × BufferedAction)) : Prop where
  server : ∃ os, bufferedMachine.run (.start clock) (history.map Prod.snd) = some (s.server, os)
  safe : bufferedMachine.Along CutSafe (.start clock) (history.map Prod.snd)
  live : TimerLive s.timer
  onTime : OnTime latency s.timer
  inTime : s.pool.InTime delay s.timer.now
  owed : ∀ x ∈ unforced history, Owed latency s x.1

theorem timerLive_start (now : Int) : TimerLive (.start now) := ⟨rfl, nofun⟩

theorem inTime_start (now : Int) : (ThreadPool.start n (Int × TimerTask)).InTime delay now := by
  rintro x (hx | ⟨w, hw⟩)
  · cases hx
  · cases hw

theorem everysecInv_start (clock : Nat → Now) (latency delay : Nat) (now : Int) :
    EverysecInv clock latency delay (.start n clock now) [] where
  server := ⟨[], rfl⟩
  safe := trivial
  live := timerLive_start now
  onTime := onTime_start latency now
  inTime := inTime_start now
  owed x hx := by cases hx

/-- What was done is not older than the delays. -/
theorem EverysecInv.recent (h : EverysecInv clock latency delay s history)
    {x : Int × BufferedAction} (hx : x ∈ unforced history) :
    s.timer.now ≤ x.1 + (1000 + 2 * latency + delay) := by
  obtain ⟨given, hheld, hle⟩ | ⟨b, hb, hle⟩ := h.owed x hx
  · have hdone : s.timer.now ≤ given + delay := h.inTime _ hheld
    omega
  · have hnow := h.onTime.now_le hb
    omega

theorem run_server_concat {a : BufferedAction} {t : BufferedServer} {r : Option Server.Response}
    (hrun : ∃ os, bufferedMachine.run (.start clock) (history.map Prod.snd) = some (s.server, os))
    (hs : bufferedMachine.step s.server a = some (t, r)) (time : Int) :
    ∃ os, bufferedMachine.run (.start clock) ((history ++ [(time, a)]).map Prod.snd) =
      some (t, os) := by
  obtain ⟨os, hos⟩ := hrun
  rw [List.map_append]
  exact ⟨os ++ [r], Machine.run_append.mpr
    ⟨s.server, os, [r], hos, Machine.run_cons.mpr ⟨t, r, [], hs, rfl, rfl⟩, rfl⟩⟩

theorem safe_concat {a : BufferedAction}
    (hrun : ∃ os, bufferedMachine.run (.start clock) (history.map Prod.snd) = some (s.server, os))
    (hsafe : bufferedMachine.Along CutSafe (.start clock) (history.map Prod.snd))
    (ha : CutSafe s.server a) (time : Int) :
    bufferedMachine.Along CutSafe (.start clock) ((history ++ [(time, a)]).map Prod.snd) := by
  rw [List.map_append]
  refine Machine.along_append.mpr ⟨hsafe, fun t os hos => ?_⟩
  obtain ⟨os', hos'⟩ := hrun
  rw [hos'] at hos
  cases hos
  exact ⟨ha, fun _ _ _ => trivial⟩

/-- The server does a step that forces the buffer out; the threads may have moved. -/
theorem EverysecInv.forced (h : EverysecInv clock latency delay s history) {a : BufferedAction}
    {r : Option Server.Response} (hs : bufferedMachine.step s.server a = some (s'.server, r))
    (ha : CutSafe s.server a) (hforces : a.forces = true) (hlive : TimerLive s'.timer)
    (hon : OnTime latency s'.timer) (hin : s'.pool.InTime delay s'.timer.now) (time : Int) :
    EverysecInv clock latency delay s' (history ++ [(time, a)]) where
  server := run_server_concat h.server hs time
  safe := safe_concat h.server h.safe ha time
  live := hlive
  onTime := hon
  inTime := hin
  owed x hx := by
    rw [unforced, List.rtakeWhile_concat, hforces] at hx
    cases hx

/-- The server does any step. -/
theorem EverysecInv.serve (h : EverysecInv clock latency delay s history) {a : BufferedAction}
    (hs : s.serve a = some (s', o)) (ha : CutSafe s.server a) :
    EverysecInv clock latency delay s' (history ++ o.toList) := by
  obtain ⟨t, r, hstep, rfl, rfl⟩ := serve_eq_some hs
  cases hforces : a.forces with
  | true =>
    have hserver : bufferedMachine.step s.server a =
      some (({ s with server := t } : Everysec n).server, r) := hstep
    exact h.forced hserver ha hforces h.live h.onTime h.inTime _
  | false =>
    refine ⟨run_server_concat h.server hstep _, safe_concat h.server h.safe ha _, h.live, h.onTime,
      h.inTime, fun x hx => ?_⟩
    rw [Option.toList_some, unforced, List.rtakeWhile_concat, hforces] at hx
    obtain hx | hx := List.mem_append.mp hx
    · exact h.owed x hx
    · -- The next flush is at most a second and the delays away.
      rw [List.mem_singleton.mp hx]
      exact .inr (h.onTime.flushBy h.live.phase)

/-- A step that the server does not see. -/
theorem EverysecInv.quiet (h : EverysecInv clock latency delay s history)
    (hserver : s'.server = s.server) (hlive : TimerLive s'.timer) (hon : OnTime latency s'.timer)
    (hin : s'.pool.InTime delay s'.timer.now)
    (howed : ∀ time, Owed latency s time → Owed latency s' time) :
    EverysecInv clock latency delay s' history :=
  ⟨hserver ▸ h.server, h.safe, hlive, hon, hin, fun x hx => howed _ (h.owed x hx)⟩

/-- The timer thread does a step; the pool has the task, if there is one. -/
theorem EverysecInv.timer (h : EverysecInv clock latency delay s history) {a : TimerAction}
    (ha : Timely latency delay s (.timer a)) {t : Timer} {task : Option TimerTask}
    (ht : s.timer.step saveIntervalSeconds a = some (t, task))
    {p : ThreadPool n (Int × TimerTask)}
    (hp : ∀ x, p.Holds x ↔ s.pool.Holds x ∨ ∃ y ∈ task, x = (t.now, y)) :
    EverysecInv clock latency delay { s with timer := t, pool := p } history := by
  have hstop : a ≠ .stop := by
    rintro rfl
    exact ha
  have hprompt : Prompt latency s.timer a := by
    cases a with
    | tick now => exact ha.1
    | stop | notify | enter | wake | test | timeout | submit => trivial
  have hlive := timerLive_step h.live hstop ht
  have hold : s.pool.InTime delay t.now := by
    obtain ⟨d, hd⟩ := hlive.deadline
    obtain ⟨-, -, -, hnow | ⟨-, rfl⟩⟩ | ⟨_, -, -, -, -, hnow, -⟩ | ⟨-, -, -, -, hnow, -⟩ :=
      timerDeadline_step ht hd
    · rw [hnow]
      exact h.inTime
    · exact ha.2
    · rw [hnow]
      exact h.inTime
    · rw [hnow]
      exact h.inTime
  refine h.quiet rfl hlive (onTime_step h.onTime hprompt ht) (fun x hx => ?_) fun time howed => ?_
  · obtain hx | ⟨y, -, rfl⟩ := (hp x).mp hx
    · exact hold x hx
    · exact Int.le_add_of_nonneg_right (Int.natCast_nonneg delay)
  · obtain ⟨given, hx, hle⟩ | ⟨b, hb, hle⟩ := howed
    · exact .inl ⟨given, (hp _).mpr (.inl hx), hle⟩
    · obtain ⟨b', hb', hle'⟩ | ⟨rfl, hnow⟩ := flushBy_step h.live.running h.onTime hstop ht hb
      · exact .inr ⟨b', hb', hle'.trans hle⟩
      · exact .inl ⟨t.now, (hp _).mpr (.inr ⟨.flush, rfl, rfl⟩), hnow.trans hle⟩

theorem everysecInv_step {a : EverysecAction n}
    (h : EverysecInv clock latency delay s history) (ha : Timely latency delay s a)
    (hs : s.step saveIntervalSeconds a = some (s', o)) :
    EverysecInv clock latency delay s' (history ++ o.toList) := by
  have hstep := everysec_step hs
  have hnone : history ++ (none : Option (Int × BufferedAction)).toList = history :=
    List.append_nil _
  cases a with
  | line fd now line => exact h.serve hstep ha
  | spill k => exact h.serve hstep trivial
  | crash saved clock =>
    obtain ⟨rfl, rfl⟩ := hstep
    have hserver : bufferedMachine.step s.server (.crash saved clock) = some
      ((⟨s.server.crash saved clock, .start s.timer.now, .start n _⟩ : Everysec n).server,
        none) := rfl
    exact h.forced hserver ha rfl (timerLive_start _) (onTime_start latency _) (inTime_start _)
      s.timer.now
  | timer a =>
    obtain ⟨rfl, t, task, ht, ⟨rfl, rfl⟩ | ⟨x, p, e, rfl, hp, rfl⟩⟩ := hstep
    · rw [hnone]
      exact h.timer ha ht (by simp)
    · rw [hnone]
      refine h.timer ha ht fun y => ?_
      rw [holds_submit hp]
      simp
  | pool a =>
    obtain ⟨hnot, p, e, hp, ⟨hrest, rfl, rfl⟩ | ⟨x, rfl, hserve⟩⟩ := hstep
    · -- The pool holds what it held.
      rw [hnone]
      have hheld := fun x => holds_step (x := x) hp
      refine h.quiet rfl h.live h.onTime (fun x hx => ?_) fun time howed => ?_
      · exact h.inTime x (((hheld x).1 hx).resolve_right (hnot x))
      · refine howed.imp_left ?_
        rintro ⟨given, hx, hle⟩
        exact ⟨given, ((hheld _).2 hx).resolve_right (hrest _), hle⟩
    · obtain ⟨w, rfl, hw⟩ := finished_step hp
      obtain ⟨t, r, hserver, rfl, rfl⟩ := serve_eq_some hserve
      have hsafe : CutSafe s.server x.2.act := ha x (by rw [hw]; rfl)
      have hforces : x.2.act.forces = true := by cases x.2 <;> rfl
      have hstep : bufferedMachine.step s.server x.2.act =
        some (({ s with server := t, pool := p } : Everysec n).server, r) := hserver
      refine h.forced hstep hsafe hforces h.live h.onTime (fun y hy => ?_) s.timer.now
      exact h.inTime y (((holds_step hp).1 hy).resolve_right nofun)

theorem everysecInv_run {start : Int} {acts : List (EverysecAction n)}
    {outs : List (Option (Int × BufferedAction))}
    (htimely : (everysecMachine n saveIntervalSeconds).Along (Timely latency delay)
      (.start n clock start) acts)
    (hrun : (everysecMachine n saveIntervalSeconds).run (.start n clock start) acts =
      some (s, outs)) :
    EverysecInv clock latency delay s outs.reduceOption := by
  refine Machine.run_history
    (I := fun s _ outs => EverysecInv clock latency delay s outs.reduceOption)
    (fun s _ outs a s' o _ h ha hs => ?_) htimely hrun (everysecInv_start clock latency delay start)
  rw [reduceOption_concat]
  exact everysecInv_step h ha hs

/-- What came last and did not force the buffer out. -/
theorem mem_unforced {before after : List (Int × BufferedAction)}
    (hafter : ∀ x ∈ after, x.2.forces = false) {x : Int × BufferedAction} (hx : x ∈ after) :
    x ∈ unforced (before ++ after) := by
  induction after using List.reverseRecOn with
  | nil => cases hx
  | append_singleton after y ih =>
    have hy : y.2.forces = false := hafter y (List.mem_append_right _ (List.mem_singleton_self y))
    rw [← List.append_assoc, unforced, List.rtakeWhile_concat, hy]
    obtain hx | hx := List.mem_append.mp hx
    · exact List.mem_append_left _ (ih (fun z hz => hafter z (List.mem_append_left _ hz)) hx)
    · exact List.mem_append_right _ hx

/-- **A crash loses the last second.** If the threads are in time, then a process that is killed
outside of `save()` leaves the map of an earlier state, after which everything is at most a second
and the delays old, with the effect of a part of the next line, if one was torn. -/
theorem crash_loses_last_second {start : Int} {acts : List (EverysecAction n)}
    {outs : List (Option (Int × BufferedAction))}
    (htimely : (everysecMachine n saveIntervalSeconds).Along (Timely latency delay)
      (.start n clock start) acts)
    (hrun : (everysecMachine n saveIntervalSeconds).run (.start n clock start) acts =
      some (s, outs)) :
    ∃ before after u os₁ os₂ torn, outs.reduceOption = before ++ after ∧
      bufferedMachine.run (.start clock) (before.map Prod.snd) = some (u, os₁) ∧
      bufferedMachine.run u (after.map Prod.snd) = some (s.server, os₂) ∧
      (∀ x ∈ after, s.timer.now ≤ x.1 + (1000 + 2 * latency + delay)) ∧
      s.server.onDisk.recovered true = applyAll u.server.db.store.lookup (lineEffects torn) ∧
      (torn = [] ∨ ∃ time fd now line rest,
        after = (time, .line fd now line) :: rest ∧ torn <+: line.1) := by
  have h := everysecInv_run htimely hrun
  obtain ⟨os, hserver⟩ := h.server
  obtain ⟨pre, post, u, os₁, torn, hsplit, hpre, hpost, hrecovered, htorn⟩ :=
    (cutAt_run h.safe hserver).recovered h.safe
  obtain ⟨before, after, hhistory, rfl, rfl⟩ := List.map_eq_append_iff.mp hsplit
  have hquiet : ∀ x ∈ after, x.2.forces = false := fun x hx =>
    hpost x.2 (List.mem_map_of_mem hx)
  rw [hsplit] at hserver
  obtain ⟨u', os₁', os₂, hfirst, hrest, -⟩ := Machine.run_append.mp hserver
  rw [hpre] at hfirst
  cases hfirst
  refine ⟨before, after, u, os₁, os₂, torn, hhistory, hpre, hrest, fun x hx => ?_, hrecovered, ?_⟩
  · refine h.recent ?_
    rw [hhistory]
    exact mem_unforced hquiet hx
  · refine htorn.imp_right ?_
    rintro ⟨fd, now, line, rest, hcons, hpart⟩
    obtain ⟨⟨time, a⟩, after', rfl, rfl, rfl⟩ := List.map_eq_cons_iff.mp hcons
    exact ⟨time, fd, now, line, after', rfl, hpart⟩

end

/-- A line that a worker flushes, and another that leaves the buffer in part. -/
def flushedOnce : List (EverysecAction 1) :=
  [.timer .enter, .line 0 .epoch (.ofText "SET a 1"), .timer (.tick 1002), .timer .timeout,
    .timer .submit, .pool (.notifyOne none), .pool (.test 0), .timer (.tick 1004),
    .pool (.finish 0), .line 0 .epoch (.ofText "SET b 25"), .spill 7]

theorem crash_loses_last_second_flushedOnce :
    ∃ s outs, (everysecMachine 1 60).run (.start 1 (fun _ => .epoch) 0) flushedOnce =
        some (s, outs) ∧
      s.server.onDisk.torn = ascii "SET b 2" ∧
      ∃ before after u os₁ os₂ torn, outs.reduceOption = before ++ after ∧
        bufferedMachine.run (.start fun _ => .epoch) (before.map Prod.snd) = some (u, os₁) ∧
        bufferedMachine.run u (after.map Prod.snd) = some (s.server, os₂) ∧
        (∀ x ∈ after, s.timer.now ≤ x.1 + (1000 + 2 * (5 : Nat) + (20 : Nat))) ∧
        s.server.onDisk.recovered true = applyAll u.server.db.store.lookup (lineEffects torn) ∧
        (torn = [] ∨ ∃ time fd now line rest,
          after = (time, .line fd now line) :: rest ∧ torn <+: line.1) := by
  obtain ⟨s, outs, hrun, htorn⟩ : ∃ s outs,
      (everysecMachine 1 60).run (.start 1 (fun _ => .epoch) 0) flushedOnce = some (s, outs) ∧
        s.server.onDisk.torn = ascii "SET b 2" :=
    ⟨_, _, rfl, by decide +kernel⟩
  have htimely : (everysecMachine 1 60).Along (Timely 5 20) (.start 1 (fun _ => .epoch) 0)
      flushedOnce := by decide +kernel
  exact ⟨s, outs, hrun, htorn, crash_loses_last_second htimely hrun⟩

end TinyKV
