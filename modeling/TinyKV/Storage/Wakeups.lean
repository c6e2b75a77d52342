import TinyKV.Lib.Monitor
import TinyKV.Storage.Sweeper
import Mathlib.Data.Finset.Max

/-!
# The sweeper is woken up in time

`ExpiryManager::schedule` and `stop` in `src/storage/expiry_manager.cpp` change the data under
`mutex_` and notify when they have given it back. The sweeper sleeps until the deadline that was on
top of the heap, or for as long as the heap is empty; it relies on these notifications.

* `notifyMachine`: the steps of `sweepMachine`, with the notifications as steps of their own.
* `monitor_step`: the sweeper is a thread on a condition variable (`Lib/Monitor.lean`).
* `sweeper_sleeps_in_time`: it never sleeps past a deadline, but between a `schedule` and its
  notification.
* `due_deadline_expires`: whatever the other threads do, a deadline that is due expires after a
  bounded number of steps of the sweeper.
-/

namespace TinyKV

/-! ## The machine -/

structure NotifiedSweeper where
  sweep : SweepState
  /-- Calls of `schedule` and `stop` that have yet to notify. -/
  notifies : Nat

def NotifiedSweeper.start (now : Int) : NotifiedSweeper := ⟨.start now, 0⟩

inductive NotifyAction where
  | sweep (a : SweepAction)
  /-- `notify_one` in `schedule`, or `notify_all` in `stop`. -/
  | notify

/-- The call notifies when it has given the mutex back. -/
def SweepAction.announces : SweepAction → Bool
  | .schedule _ _ => true
  | .stop => true
  | .tick _ => false
  | .cancel _ => false
  | .check _ => false
  | .wake => false
  | .timeout _ => false
  | .onExpire => false

/-- A step of the sweeper, other than waking up by itself. -/
def SweepAction.ofSweeper : SweepAction → Bool
  | .check _ => true
  | .timeout _ => true
  | .onExpire => true
  | .tick _ => false
  | .schedule _ _ => false
  | .cancel _ => false
  | .stop => false
  | .wake => false

/-- A sweeper that sleeps starts over. -/
def SweepPhase.notified : SweepPhase → SweepPhase
  | .wait => .head
  | .waitUntil _ => .head
  | .head => .head
  | .expiring key => .expiring key
  | .returned => .returned

def notifyMachine : Machine NotifiedSweeper NotifyAction (Option TtlEvent) where
  step s
    | .sweep a => (sweepMachine.step s.sweep a).map fun r =>
      (⟨r.1, if a.announces then s.notifies + 1 else s.notifies⟩, r.2)
    | .notify =>
      if s.notifies = 0 then none
      else some (⟨{ s.sweep with phase := s.sweep.phase.notified }, s.notifies - 1⟩, none)

/-- What the sweeper sleeps for: a deadline, or anything. -/
def SweepPhase.asleep : SweepPhase → Option (Option Int)
  | .wait => some none
  | .waitUntil deadline => some (some deadline)
  | .head => none
  | .expiring _ => none
  | .returned => none

/-- What a step of the sweeper or of another thread does. -/
theorem sweep_step {s s' : SweepState} {a : SweepAction} {o : Option TtlEvent}
    (hs : sweepMachine.step s a = some (s', o)) :
    match a with
    | .tick now => s.now ≤ now ∧ s' = { s with now := now } ∧ o = none
    | .schedule key t => s' = { s with em := s.em.schedule key t } ∧ o = some (.scheduled ⟨t, key⟩)
    | .cancel key => s' = { s with em := s.em.cancel key } ∧ o = some (.cancelled key)
    | .stop => s' = { s with stop := true } ∧ o = none
    | .check top => s.phase = .head ∧ o = none ∧
        (s.stop = true ∧ s' = { s with phase := .returned } ∨
          s.stop = false ∧ s.em.HasTop top ∧
            s' = { s with phase := top.elim .wait fun e => .waitUntil e.when })
    | .wake => s.phase.asleep.isSome = true ∧ s' = { s with phase := .head } ∧ o = none
    | .timeout top => ∃ d, s.phase = .waitUntil d ∧ d ≤ s.now ∧ s.em.HasTop top ∧
        (s', o) = top.elim ({ s with phase := .head }, none) s.pop
    | .onExpire => ∃ key, s.phase = .expiring key ∧ s' = { s with phase := .head } ∧
        o = some (.called key) := by
  cases a with
  | tick now =>
    obtain ⟨hle, hs⟩ := Option.ite_none_right_eq_some.mp hs
    cases hs
    exact ⟨hle, rfl, rfl⟩
  | schedule key t | cancel key | stop =>
    cases hs
    exact ⟨rfl, rfl⟩
  | check top =>
    simp only [sweepMachine] at hs
    split at hs
    · rename_i hphase
      refine ⟨hphase, ?_⟩
      split at hs
      · rename_i hstop
        cases hs
        exact ⟨rfl, .inl ⟨hstop, rfl⟩⟩
      · rename_i hstop
        obtain ⟨htop, hs⟩ := Option.ite_none_right_eq_some.mp hs
        cases top with
        | none | some e =>
          cases hs
          exact ⟨rfl, .inr ⟨Bool.not_eq_true _ ▸ hstop, htop, rfl⟩⟩
    all_goals cases hs
  | wake =>
    simp only [sweepMachine] at hs
    split at hs
    case h_1 hphase | h_2 hphase =>
      cases hs
      exact ⟨by rw [hphase]; rfl, rfl, rfl⟩
    all_goals cases hs
  | timeout top =>
    simp only [sweepMachine] at hs
    split at hs
    · rename_i d hphase
      obtain ⟨⟨hle, htop⟩, hs⟩ := Option.ite_none_right_eq_some.mp hs
      refine ⟨d, hphase, hle, htop, ?_⟩
      cases top with
      | none =>
        cases hs
        rfl
      | some e => exact (Option.some.inj hs).symm
    all_goals cases hs
  | onExpire =>
    simp only [sweepMachine] at hs
    split at hs
    · rename_i key hphase
      cases hs
      exact ⟨key, hphase, rfl, rfl⟩
    all_goals cases hs

/-! ## No wake-up is lost -/

/-- The sweeper with what it looks at: the heap and `stop_`. -/
def NotifiedSweeper.monitor (s : NotifiedSweeper) :
    Monitor (List HeapEntry × Bool) (Option Int) where
  data := (s.sweep.em.heap, s.sweep.stop)
  asleep := s.sweep.phase.asleep
  notifies := s.notifies

/-- It is not stopped, and nothing in the heap is due before the end of its sleep. -/
def SleepsInTime (data : List HeapEntry × Bool) (w : Option Int) : Prop :=
  data.2 = false ∧ match w with
    | none => data.1 = []
    | some deadline => ∀ e ∈ data.1, deadline ≤ e.when

theorem monitor_step {s s' : NotifiedSweeper} {a : NotifyAction} {o : Option TtlEvent}
    (hs : notifyMachine.step s a = some (s', o)) :
    Monitor.Step SleepsInTime s.monitor s'.monitor := by
  cases a with
  | notify =>
    simp only [notifyMachine] at hs
    split at hs
    · cases hs
    · cases hs
      have hnone : s.sweep.phase.notified.asleep = none := by cases s.sweep.phase <;> rfl
      have hview : NotifiedSweeper.monitor ⟨{ s.sweep with phase := s.sweep.phase.notified },
          s.notifies - 1⟩ = { s.monitor with asleep := none, notifies := s.notifies - 1 } := by
        simp only [NotifiedSweeper.monitor, hnone]
      rw [hview]
      exact .notify
  | sweep a =>
    obtain ⟨⟨t, o'⟩, ht, he⟩ := Option.map_eq_some_iff.mp hs
    cases he
    have hstep := sweep_step ht
    cases a with
    | tick now =>
      obtain ⟨-, rfl, -⟩ := hstep
      exact .refl _
    | schedule key t =>
      obtain ⟨rfl, -⟩ := hstep
      exact .announce (m := s.monitor) (_, _)
    | cancel key =>
      obtain ⟨rfl, -⟩ := hstep
      exact .refl _
    | stop =>
      obtain ⟨rfl, -⟩ := hstep
      exact .announce (m := s.monitor) (_, _)
    | check top =>
      obtain ⟨-, -, ⟨-, rfl⟩ | ⟨hstop, htop, rfl⟩⟩ := hstep
      · exact .run (m := s.monitor) (_, _)
      · cases top with
        | none => exact .sleep (m := s.monitor) none ⟨hstop, htop⟩
        | some e => exact .sleep (m := s.monitor) (some e.when) ⟨hstop, htop.2⟩
    | wake =>
      obtain ⟨-, rfl, -⟩ := hstep
      exact .run (m := s.monitor) (_, _)
    | timeout top =>
      obtain ⟨d, -, -, -, hpop⟩ := hstep
      cases top with
      | none =>
        cases hpop
        exact .run (m := s.monitor) (_, _)
      | some e =>
        replace hpop : (t, o') = s.sweep.pop e := hpop
        obtain ⟨-, heq⟩ | ⟨-, heq⟩ := pop_cases s.sweep e
        · cases hpop.trans heq
          exact .run (m := s.monitor) (_, _)
        · cases hpop.trans heq
          exact .run (m := s.monitor) (_, _)
    | onExpire =>
      obtain ⟨key, -, rfl, -⟩ := hstep
      exact .run (m := s.monitor) (_, _)

/-! ## Whole runs -/

/-- A sweeper that has returned was stopped, and every live deadline has its entry. -/
structure NotifiedInv (s : NotifiedSweeper) : Prop where
  returned : s.sweep.phase = .returned → s.sweep.stop = true
  queued : s.sweep.em.Queued

theorem notifiedInv_start (now : Int) : NotifiedInv (.start now) where
  returned h := by cases h
  queued _ _ h := by cases h

theorem notifiedInv_step {s s' : NotifiedSweeper} {a : NotifyAction} {o : Option TtlEvent}
    (h : NotifiedInv s) (hs : notifyMachine.step s a = some (s', o)) : NotifiedInv s' := by
  cases a with
  | notify =>
    obtain ⟨-, hs⟩ := Option.ite_none_left_eq_some.mp hs
    cases hs
    refine ⟨fun hphase => h.returned ?_, h.queued⟩
    cases hold : s.sweep.phase with
    | returned => rfl
    | _ =>
      simp only [hold, SweepPhase.notified] at hphase
      cases hphase
  | sweep a =>
    obtain ⟨⟨t, o'⟩, ht, he⟩ := Option.map_eq_some_iff.mp hs
    cases he
    have hstep := sweep_step ht
    cases a with
    | tick now =>
      obtain ⟨-, rfl, -⟩ := hstep
      exact ⟨h.returned, h.queued⟩
    | schedule key t =>
      obtain ⟨rfl, -⟩ := hstep
      exact ⟨h.returned, h.queued.schedule key t⟩
    | cancel key =>
      obtain ⟨rfl, -⟩ := hstep
      exact ⟨h.returned, h.queued.cancel key⟩
    | stop =>
      obtain ⟨rfl, -⟩ := hstep
      exact ⟨fun _ => rfl, h.queued⟩
    | check top =>
      obtain ⟨-, -, ⟨hstop, rfl⟩ | ⟨-, -, rfl⟩⟩ := hstep
      · exact ⟨fun _ => hstop, h.queued⟩
      · refine ⟨fun hphase => ?_, h.queued⟩
        cases top <;> cases hphase
    | wake =>
      obtain ⟨-, rfl, -⟩ := hstep
      exact ⟨nofun, h.queued⟩
    | timeout top =>
      obtain ⟨d, -, -, -, hpop⟩ := hstep
      cases top with
      | none =>
        cases hpop
        exact ⟨nofun, h.queued⟩
      | some e =>
        replace hpop : (t, o') = s.sweep.pop e := hpop
        obtain ⟨-, heq⟩ | ⟨-, heq⟩ := pop_cases s.sweep e
        · cases hpop.trans heq
          exact ⟨nofun, h.queued.popTop e⟩
        · cases hpop.trans heq
          exact ⟨nofun, h.queued.popTop e⟩
    | onExpire =>
      obtain ⟨key, -, rfl, -⟩ := hstep
      exact ⟨nofun, h.queued⟩

/-- Some entry is on top of a heap that is not empty. -/
theorem exists_isTop {em : ExpiryManager} {e : HeapEntry} (he : e ∈ em.heap) :
    ∃ top, em.IsTop top := by
  obtain ⟨top, htop, hmin⟩ := em.heap.toFinset.exists_min_image HeapEntry.when
    ⟨e, List.mem_toFinset.mpr he⟩
  exact ⟨top, List.mem_toFinset.mp htop, fun e' he' => hmin e' (List.mem_toFinset.mpr he')⟩

/-- The sweeper has something to do: it is stopped, or an entry is due. -/
def SweepState.HasWork (s : SweepState) : Prop := s.stop = true ∨ ∃ e ∈ s.em.heap, e.when ≤ s.now

/-- **The sweeper sleeps in time.** When every `schedule` and `stop` has notified, a sweeper that
sleeps is not stopped, and it sleeps no longer than to the earliest deadline. So a sweeper that has
something to do can take a step of its own, or it has returned. -/
theorem sweeper_sleeps_in_time (now : Int) (acts : List NotifyAction) {s : NotifiedSweeper}
    {outs : List (Option TtlEvent)}
    (hrun : notifyMachine.run (.start now) acts = some (s, outs)) (hquiet : s.notifies = 0) :
    (∀ w, s.sweep.phase.asleep = some w → SleepsInTime (s.sweep.em.heap, s.sweep.stop) w) ∧
    (s.sweep.HasWork → s.sweep.phase = .returned ∨
      ∃ a, a.ofSweeper = true ∧ (notifyMachine.step s (.sweep a)).isSome = true) := by
  have hsleep := Machine.run_justified NotifiedSweeper.monitor (fun _ _ _ _ hs => monitor_step hs)
    hrun (fun _ _ hw => by cases hw) hquiet
  refine ⟨hsleep, fun hwork => ?_⟩
  cases hphase : s.sweep.phase with
  | returned => exact .inl rfl
  | expiring key =>
    refine .inr ⟨.onExpire, rfl, ?_⟩
    simp [notifyMachine, sweepMachine, hphase]
  | wait =>
    -- It sleeps for want of anything to do.
    obtain ⟨hstop, hempty⟩ := hsleep none (by
      show s.sweep.phase.asleep = _
      rw [hphase]
      rfl)
    obtain hwork | ⟨e, he, -⟩ := hwork
    · exact absurd hwork (Bool.eq_false_iff.mp hstop)
    · replace hempty : s.sweep.em.heap = [] := hempty
      rw [hempty] at he
      cases he
  | waitUntil d =>
    obtain ⟨hstop, hearliest⟩ := hsleep (some d) (by
      show s.sweep.phase.asleep = _
      rw [hphase]
      rfl)
    obtain hwork | ⟨e, he, hdue⟩ := hwork
    · exact absurd hwork (Bool.eq_false_iff.mp hstop)
    · obtain ⟨top, htop⟩ := exists_isTop he
      have hd : d ≤ s.sweep.now := Int.le_trans (hearliest e he) hdue
      refine .inr ⟨.timeout (some top), rfl, ?_⟩
      simp [notifyMachine, sweepMachine, hphase, hd, ExpiryManager.HasTop, htop]
  | head =>
    cases hstop : s.sweep.stop with
    | true =>
      refine .inr ⟨.check none, rfl, ?_⟩
      simp [notifyMachine, sweepMachine, hphase, hstop]
    | false =>
      obtain hwork | ⟨e, he, -⟩ := hwork
      · rw [hstop] at hwork
        cases hwork
      · obtain ⟨top, htop⟩ := exists_isTop he
        refine .inr ⟨.check (some top), rfl, ?_⟩
        simp [notifyMachine, sweepMachine, hphase, hstop, ExpiryManager.HasTop, htop]

/-! ## A deadline that is due -/

/-- The action does not touch the deadline of the key, and does not stop the sweeper. -/
def NotifyAction.Spares (key : Bytes) : NotifyAction → Prop
  | .sweep (.schedule k _) => k ≠ key
  | .sweep (.cancel k) => k ≠ key
  | .sweep .stop => False
  | .sweep (.tick _) => True
  | .sweep (.check _) => True
  | .sweep .wake => True
  | .sweep (.timeout _) => True
  | .sweep .onExpire => True
  | .notify => True

/-- A step of the sweeper counts one. -/
def NotifyAction.own : NotifyAction → Nat
  | .sweep a => a.ofSweeper.toNat
  | .notify => 0

/-- The steps that the action brings the sweeper: those for a new entry, or those for going back to
sleep. -/
def NotifyAction.brings : NotifyAction → Nat
  | .sweep (.schedule _ _) => 3
  | .sweep .wake => 1
  | .notify => 1
  | .sweep (.tick _) => 0
  | .sweep (.cancel _) => 0
  | .sweep .stop => 0
  | .sweep (.check _) => 0
  | .sweep (.timeout _) => 0
  | .sweep .onExpire => 0

/-- The steps until the heap is empty: three for an entry. -/
def SweepState.stepsLeft (s : SweepState) : Nat :=
  match s.phase with
  | .waitUntil _ => 3 * s.em.heap.length - 1
  | .expiring _ => 3 * s.em.heap.length + 1
  | .head => 3 * s.em.heap.length
  | .wait => 3 * s.em.heap.length
  | .returned => 3 * s.em.heap.length

/-- The entry is live and due, and the sweeper is on its way to it. -/
structure OnItsWay (e : HeapEntry) (s : SweepState) : Prop where
  live : s.em.expiryOf e.key = some e.when
  queued : e ∈ s.em.heap
  awake : s.phase ≠ .wait
  sleep : ∀ d, s.phase = .waitUntil d → d ≤ e.when

structure DueInv (e : HeapEntry) (s : SweepState) : Prop where
  stop : s.stop = false
  returned : s.phase ≠ .returned
  due : e.when ≤ s.now
  left : OnItsWay e s ∨ s.phase = .expiring e.key

theorem DueInv.stepsLeft_pos {e : HeapEntry} {s : SweepState} (h : DueInv e s) :
    1 ≤ s.stepsLeft := by
  unfold SweepState.stepsLeft
  obtain hway | hexpiring := h.left
  · have hpos := List.length_pos_of_mem hway.queued
    cases s.phase <;> dsimp only <;> omega
  · rw [hexpiring]
    exact Nat.le_add_left 1 _

theorem dueInv_sweep {e : HeapEntry} {s s' : SweepState} {a : SweepAction} {o : Option TtlEvent}
    (h : DueInv e s) (ha : (NotifyAction.sweep a).Spares e.key)
    (hs : sweepMachine.step s a = some (s', o)) (ho : o ≠ some (.called e.key)) :
    DueInv e s' ∧ s'.stepsLeft + a.ofSweeper.toNat ≤
      s.stepsLeft + (NotifyAction.sweep a).brings := by
  have hstep := sweep_step hs
  obtain ⟨hstop, hreturned, hdue, hleft⟩ := h
  cases a with
  | tick now =>
    obtain ⟨hle, rfl, -⟩ := hstep
    refine ⟨⟨hstop, hreturned, Int.le_trans hdue hle, hleft.imp (fun hw => ?_) id⟩, Nat.le_refl _⟩
    exact ⟨hw.live, hw.queued, hw.awake, hw.sleep⟩
  | schedule key t =>
    obtain ⟨rfl, -⟩ := hstep
    refine ⟨⟨hstop, hreturned, hdue, hleft.imp (fun hw => ⟨?_, ?_, hw.awake, hw.sleep⟩) id⟩, ?_⟩
    · show (s.em.schedule key t).expiryOf e.key = _
      rw [ExpiryManager.expiryOf_schedule, if_neg (Ne.symm ha)]
      exact hw.live
    · exact List.mem_cons_of_mem _ hw.queued
    · unfold SweepState.stepsLeft ExpiryManager.schedule
      cases s.phase <;> simp [SweepAction.ofSweeper, NotifyAction.brings] <;> omega
  | cancel key =>
    obtain ⟨rfl, -⟩ := hstep
    refine ⟨⟨hstop, hreturned, hdue, hleft.imp (fun hw => ⟨?_, hw.queued, hw.awake, hw.sleep⟩) id⟩,
      Nat.le_refl _⟩
    show (s.em.cancel key).expiryOf e.key = _
    rw [ExpiryManager.expiryOf_cancel, if_neg (Ne.symm ha)]
    exact hw.live
  | stop => exact absurd ha id
  | check top =>
    obtain ⟨hphase, -, ⟨htrue, -⟩ | ⟨-, htop, rfl⟩⟩ := hstep
    · rw [hstop] at htrue
      cases htrue
    obtain hw | hexpiring := hleft
    · have hpos := List.length_pos_of_mem hw.queued
      cases top with
      | none =>
        have hempty : s.em.heap = [] := htop
        rw [hempty] at hpos
        cases hpos
      | some t =>
        refine ⟨⟨hstop, nofun, hdue, .inl ⟨hw.live, hw.queued, nofun, ?_⟩⟩, ?_⟩
        · rintro d ⟨⟩
          exact htop.2 e hw.queued
        · simp only [SweepState.stepsLeft, hphase, SweepAction.ofSweeper, NotifyAction.brings,
            Option.elim_some, Bool.toNat_true]
          omega
    · rw [hphase] at hexpiring
      cases hexpiring
  | wake =>
    obtain ⟨hasleep, rfl, -⟩ := hstep
    obtain hw | hexpiring := hleft
    · refine ⟨⟨hstop, nofun, hdue, .inl ⟨hw.live, hw.queued, nofun, nofun⟩⟩, ?_⟩
      simp only [SweepState.stepsLeft, SweepAction.ofSweeper, NotifyAction.brings,
        Bool.toNat_false]
      cases s.phase <;> dsimp only <;> omega
    · rw [hexpiring] at hasleep
      cases hasleep
  | timeout top =>
    obtain ⟨d, hphase, -, htop, hpop⟩ := hstep
    obtain hw | hexpiring := hleft
    · have hpos := List.length_pos_of_mem hw.queued
      cases top with
      | none =>
        have hempty : s.em.heap = [] := htop
        rw [hempty] at hpos
        cases hpos
      | some t =>
        replace hpop : (s', o) = s.pop t := hpop
        have hlength : (s.em.popTop t).1.heap.length = s.em.heap.length - 1 := by
          rw [s.em.heap_popTop, List.length_erase_of_mem htop.1]
        -- Another entry leaves this one as it is.
        have hother : t ≠ e → (s.em.popTop t).1.expiryOf e.key = some e.when ∧
            e ∈ (s.em.popTop t).1.heap := by
          intro hne
          refine ⟨?_, ?_⟩
          · rw [(s.em.popTop_spec t).2, if_neg]
            · exact hw.live
            · rintro ⟨hlive, hkey⟩
              rw [← hkey, hw.live] at hlive
              cases t
              cases e
              cases hkey
              cases hlive
              exact hne rfl
          · rw [s.em.heap_popTop]
            exact (List.mem_erase_of_ne (Ne.symm hne)).mpr hw.queued
        obtain ⟨hlive, heq⟩ | ⟨hstale, heq⟩ := pop_cases s t
        · cases hpop.trans heq
          refine ⟨⟨hstop, nofun, hdue, ?_⟩, ?_⟩
          · by_cases hte : t = e
            · exact .inr (congrArg (fun e => SweepPhase.expiring e.key) hte)
            · obtain ⟨hlive', hmem⟩ := hother hte
              exact .inl ⟨hlive', hmem, nofun, nofun⟩
          · simp only [SweepState.stepsLeft, hphase, hlength, SweepAction.ofSweeper,
              NotifyAction.brings, Bool.toNat_true]
            omega
        · cases hpop.trans heq
          have hte : t ≠ e := by
            rintro rfl
            exact hstale hw.live
          obtain ⟨hlive', hmem⟩ := hother hte
          refine ⟨⟨hstop, nofun, hdue, .inl ⟨hlive', hmem, nofun, nofun⟩⟩, ?_⟩
          simp only [SweepState.stepsLeft, hphase, hlength, SweepAction.ofSweeper,
            NotifyAction.brings, Bool.toNat_true]
          omega
    · rw [hphase] at hexpiring
      cases hexpiring
  | onExpire =>
    obtain ⟨key, hphase, rfl, rfl⟩ := hstep
    obtain hw | hexpiring := hleft
    · refine ⟨⟨hstop, nofun, hdue, .inl ⟨hw.live, hw.queued, nofun, nofun⟩⟩, ?_⟩
      simp only [SweepState.stepsLeft, hphase, SweepAction.ofSweeper, NotifyAction.brings,
        Bool.toNat_true]
      omega
    · rw [hphase] at hexpiring
      cases hexpiring
      exact absurd rfl ho

theorem dueInv_step {e : HeapEntry} {s s' : NotifiedSweeper} {a : NotifyAction}
    {o : Option TtlEvent} (h : DueInv e s.sweep) (ha : a.Spares e.key)
    (hs : notifyMachine.step s a = some (s', o)) (ho : o ≠ some (.called e.key)) :
    DueInv e s'.sweep ∧ s'.sweep.stepsLeft + a.own ≤ s.sweep.stepsLeft + a.brings := by
  cases a with
  | sweep a =>
    obtain ⟨⟨t, o'⟩, ht, he⟩ := Option.map_eq_some_iff.mp hs
    cases he
    exact dueInv_sweep h ha ht ho
  | notify =>
    obtain ⟨-, hs⟩ := Option.ite_none_left_eq_some.mp hs
    cases hs
    obtain ⟨hstop, hreturned, hdue, hleft⟩ := h
    refine ⟨⟨hstop, ?_, hdue, ?_⟩, ?_⟩
    · cases hphase : s.sweep.phase <;> simp [SweepPhase.notified]
      exact hreturned hphase
    · refine hleft.imp (fun hw => ⟨hw.live, hw.queued, ?_, fun d hd => ?_⟩) fun hexpiring => ?_
      · cases s.sweep.phase <;> simp [SweepPhase.notified]
      · cases hphase : s.sweep.phase <;> simp [hphase, SweepPhase.notified] at hd
      · simp only [hexpiring, SweepPhase.notified]
    · unfold SweepState.stepsLeft
      cases s.sweep.phase with
      | waitUntil d =>
        simp only [SweepPhase.notified, NotifyAction.own, NotifyAction.brings]
        omega
      | _ => simp [SweepPhase.notified, NotifyAction.own, NotifyAction.brings]

/-- The sweeper is not blocked. -/
theorem DueInv.enabled {e : HeapEntry} {s : SweepState} (h : DueInv e s) :
    ∃ a, a.ofSweeper = true ∧ (sweepMachine.step s a).isSome = true := by
  obtain ⟨hstop, hreturned, hdue, hw | hexpiring⟩ := h
  · obtain ⟨top, htop⟩ := exists_isTop hw.queued
    cases hphase : s.phase with
    | returned => exact absurd hphase hreturned
    | wait => exact absurd hphase hw.awake
    | expiring key =>
      refine ⟨.onExpire, rfl, ?_⟩
      simp [sweepMachine, hphase]
    | head =>
      refine ⟨.check (some top), rfl, ?_⟩
      simp [sweepMachine, hphase, hstop, ExpiryManager.HasTop, htop]
    | waitUntil d =>
      have hd : d ≤ s.now := Int.le_trans (hw.sleep d hphase) hdue
      refine ⟨.timeout (some top), rfl, ?_⟩
      simp [sweepMachine, hphase, hd, ExpiryManager.HasTop, htop]
  · refine ⟨.onExpire, rfl, ?_⟩
    simp [sweepMachine, hexpiring]

/-- **A deadline that is due expires.** In a state that any run leads to, an entry is live and due,
the sweeper is not stopped, and every call has notified. Whatever the other threads do after that,
if they do not touch the deadline of the key: as soon as the sweeper has taken more steps of its own
than three for each entry in the heap, with those that the others have brought it, the key has
expired; and until then a step of its own is open to it. -/
theorem due_deadline_expires {now : Int} {acts : List NotifyAction} {s : NotifiedSweeper}
    {outs : List (Option TtlEvent)}
    (hrun : notifyMachine.run (.start now) acts = some (s, outs)) (hquiet : s.notifies = 0)
    (hstop : s.sweep.stop = false) {e : HeapEntry}
    (hlive : s.sweep.em.expiryOf e.key = some e.when) (hdue : e.when ≤ s.sweep.now)
    {later : List NotifyAction} (hspares : ∀ a ∈ later, a.Spares e.key) {s' : NotifiedSweeper}
    {outs' : List (Option TtlEvent)} (hlater : notifyMachine.run s later = some (s', outs')) :
    (3 * s.sweep.em.heap.length + (later.map NotifyAction.brings).sum <
        (later.map NotifyAction.own).sum → some (.called e.key) ∈ outs') ∧
    (some (.called e.key) ∉ outs' → ∃ a, a.ofSweeper = true ∧
      (notifyMachine.step s' (.sweep a)).isSome = true) := by
  have hinv : NotifiedInv s :=
    Machine.run_invariant (fun _ _ _ _ h _ hs => notifiedInv_step h hs) (Machine.along_true _ _)
      hrun (notifiedInv_start now)
  have hsleep := Machine.run_justified NotifiedSweeper.monitor (fun _ _ _ _ hs => monitor_step hs)
    hrun (fun _ _ hw => by cases hw) hquiet
  have hqueued : e ∈ s.sweep.em.heap := hinv.queued _ _ hlive
  have hstart : DueInv e s.sweep := by
    refine ⟨hstop, fun hphase => ?_, hdue, .inl ⟨hlive, hqueued, fun hphase => ?_, fun d hd => ?_⟩⟩
    · have htrue := hinv.returned hphase
      rw [hstop] at htrue
      cases htrue
    · have hempty : s.sweep.em.heap = [] := (hsleep none (congrArg SweepPhase.asleep hphase)).2
      rw [hempty] at hqueued
      cases hqueued
    · exact (hsleep (some d) (congrArg SweepPhase.asleep hd)).2 e hqueued
  -- Every step until then.
  have hstep : ∀ (u : NotifiedSweeper) (a : NotifyAction) (u' : NotifiedSweeper)
      (o : Option TtlEvent), DueInv e u.sweep →
      (a.Spares e.key ∧ ∀ u' o, notifyMachine.step u a = some (u', o) → o ≠ some (.called e.key)) →
      notifyMachine.step u a = some (u', o) →
      DueInv e u'.sweep ∧ u'.sweep.stepsLeft + a.own ≤ u.sweep.stepsLeft + a.brings :=
    fun u a u' o h ha hs => dueInv_step h ha.1 hs (ha.2 u' o hs)
  have halong : some (.called e.key) ∉ outs' → notifyMachine.Along
      (fun u a => a.Spares e.key ∧
        ∀ u' o, notifyMachine.step u a = some (u', o) → o ≠ some (.called e.key)) s later := by
    intro hnot
    refine Machine.along_and (Machine.along_of_forall hspares s)
      (Machine.along_of_outputs hlater fun o ho => ?_)
    rintro rfl
    exact hnot ho
  have hend : some (.called e.key) ∉ outs' → DueInv e s'.sweep := fun hnot =>
    Machine.run_invariant (I := fun u => DueInv e u.sweep)
      (fun u a u' o h ha hs => (hstep u a u' o h ha hs).1) (halong hnot) hlater hstart
  refine ⟨fun henough => ?_, fun hnot => ?_⟩
  · by_contra hnot
    have hpotential := Machine.run_potential (fun u => u.sweep.stepsLeft)
      (I := fun u => DueInv e u.sweep) hstep (halong hnot) hlater hstart
    have hpos := (hend hnot).stepsLeft_pos
    have hstartle : s.sweep.stepsLeft ≤ 3 * s.sweep.em.heap.length + 1 := by
      unfold SweepState.stepsLeft
      cases s.sweep.phase <;> dsimp only <;> omega
    omega
  · obtain ⟨a, hown, hsome⟩ := (hend hnot).enabled
    refine ⟨a, hown, ?_⟩
    show (Option.map _ _).isSome = true
    rw [Option.isSome_map]
    exact hsome

/-- The sweeper sleeps until 9 when an entry for 3 comes in; the clock is past it before the call
notifies. -/
def lateNotify : List NotifyAction :=
  [.sweep (.schedule (ascii "k") 9), .notify, .sweep (.check (some ⟨9, ascii "k"⟩)),
    .sweep (.schedule (ascii "j") 3), .sweep (.tick 5), .notify]

/-- An entry that is due earlier comes in first. -/
def afterLateNotify : List NotifyAction :=
  [.sweep (.check (some ⟨3, ascii "j"⟩)), .sweep (.schedule (ascii "i") 2), .notify,
    .sweep (.check (some ⟨2, ascii "i"⟩)), .sweep (.timeout (some ⟨2, ascii "i"⟩)),
    .sweep .onExpire, .sweep (.check (some ⟨3, ascii "j"⟩)),
    .sweep (.timeout (some ⟨3, ascii "j"⟩)), .sweep .onExpire,
    .sweep (.check (some ⟨9, ascii "k"⟩)), .sweep (.tick 9),
    .sweep (.timeout (some ⟨9, ascii "k"⟩)), .sweep .onExpire, .sweep (.check none)]

theorem sweeper_sleeps_in_time_lateNotify :
    ∃ s outs, notifyMachine.run (.start 0) lateNotify = some (s, outs) ∧
      s.sweep.phase ≠ .returned ∧
      ∃ a, a.ofSweeper = true ∧ (notifyMachine.step s (.sweep a)).isSome = true := by
  have hrun : notifyMachine.run (.start 0) lateNotify = some (_, _) := rfl
  obtain ⟨-, hwork⟩ := sweeper_sleeps_in_time 0 lateNotify hrun rfl
  have hreturned : SweepPhase.head ≠ .returned := nofun
  exact ⟨_, _, hrun, hreturned, (hwork (.inr ⟨⟨3, ascii "j"⟩, by decide +kernel,
    by decide +kernel⟩)).resolve_left hreturned⟩

theorem due_deadline_expires_lateNotify :
    ∃ s outs s' outs', notifyMachine.run (.start 0) lateNotify = some (s, outs) ∧
      notifyMachine.run s afterLateNotify = some (s', outs') ∧
      some (.called (ascii "j")) ∈ outs' := by
  have hrun : notifyMachine.run (.start 0) lateNotify = some (_, _) := rfl
  have hspares : ∀ a ∈ afterLateNotify, a.Spares (ascii "j") := by
    have hij : ascii "i" ≠ ascii "j" := by decide
    simp [afterLateNotify, NotifyAction.Spares, hij]
  refine ⟨_, _, _, _, hrun, rfl, ?_⟩
  exact (due_deadline_expires hrun rfl rfl (e := ⟨3, ascii "j"⟩) (by decide +kernel)
    (by decide +kernel) hspares rfl).1 (by decide +kernel)

end TinyKV
