import TinyKV.Storage.ExpiryManager
import TinyKV.Lib.Machine

/-!
# The sweeper thread

`ExpiryManager::sweepLoop` in `src/storage/expiry_manager.cpp`. The loop waits for the deadline on
top of the heap and then pops the top, which may be another entry by then: `schedule` and `cancel`
go on during the wait. It does not look at the clock again.

* `sweepMachine`: the steps of the loop, with `schedule`, `cancel`, `stop` and the clock between
  them in any order. `wait_until` reports a timeout only when the clock has reached its deadline,
  and the clock never goes back.
* `TtlEvent`: what a step does, if it does something. `eventsOn key`: the events that set or end the
  deadline of a key.
* `SweepInv`: what every step keeps. While the sweeper waits, an entry that is due then stays in the
  heap; the live deadline of a key is the one that was scheduled last, if nothing ended it since.
* `expiry_manager_runs`: no live deadline is forgotten, no entry is popped early, and a callback is
  made for a deadline that is live and due, once for a `schedule` at most.
-/

namespace TinyKV

/-! ## The machine -/

/-- Where the sweeper is. -/
inductive SweepPhase where
  /-- At `while (!stop_)`. -/
  | head
  /-- In `wait`, for the heap was empty. -/
  | wait
  | waitUntil (deadline : Int)
  /-- After the pop of a live entry, without the lock. -/
  | expiring (key : Bytes)
  | returned
  deriving DecidableEq

/-- An expiry manager with its thread and the clock. -/
structure SweepState where
  em : ExpiryManager
  now : Int
  phase : SweepPhase
  stop : Bool

/-- A new expiry manager whose thread is started. -/
def SweepState.start (now : Int) : SweepState := ⟨.empty, now, .head, false⟩

inductive SweepAction where
  /-- The clock goes on. -/
  | tick (now : Int)
  | schedule (key : Bytes) (expiresAt : Int)
  | cancel (key : Bytes)
  | stop
  /-- The loop starts over, with `top` on top of the heap. -/
  | check (top : Option HeapEntry)
  /-- The wait ends before its deadline. -/
  | wake
  /-- `wait_until` reports a timeout, with `top` on top of the heap. -/
  | timeout (top : Option HeapEntry)
  /-- The callback is called. -/
  | onExpire

/-- What a step does to the deadlines. -/
inductive TtlEvent where
  | scheduled (e : HeapEntry)
  | cancelled (key : Bytes)
  /-- A live entry is popped. -/
  | expired (e : HeapEntry)
  /-- A stale entry is popped. -/
  | discarded (e : HeapEntry)
  /-- `onExpire(key)`. -/
  | called (key : Bytes)
  deriving DecidableEq

/-- `top` can be on top of the heap; `none` is an empty heap. -/
def ExpiryManager.HasTop (em : ExpiryManager) : Option HeapEntry → Prop
  | none => em.heap = []
  | some e => em.IsTop e

instance (em : ExpiryManager) : ∀ top, Decidable (em.HasTop top)
  | none => inferInstanceAs (Decidable (em.heap = []))
  | some e => inferInstanceAs (Decidable (em.IsTop e))

/-- The pop after a timeout, with the liveness check. -/
def SweepState.pop (s : SweepState) (e : HeapEntry) : SweepState × Option TtlEvent :=
  match s.em.popTop e with
  | (em, none) => ({ s with em := em, phase := .head }, some (.discarded e))
  | (em, some key) => ({ s with em := em, phase := .expiring key }, some (.expired e))

/-- The loop, and what other threads do between its steps. -/
def sweepMachine : Machine SweepState SweepAction (Option TtlEvent) where
  step s
    | .tick now => if s.now ≤ now then some ({ s with now := now }, none) else none
    | .schedule key expiresAt =>
      some ({ s with em := s.em.schedule key expiresAt }, some (.scheduled ⟨expiresAt, key⟩))
    | .cancel key => some ({ s with em := s.em.cancel key }, some (.cancelled key))
    | .stop => some ({ s with stop := true }, none)
    | .check top =>
      match s.phase with
      | .head =>
        if s.stop then some ({ s with phase := .returned }, none)
        else if s.em.HasTop top then
          match top with
          | none => some ({ s with phase := .wait }, none)
          | some e => some ({ s with phase := .waitUntil e.when }, none)
        else none
      | .wait | .waitUntil _ | .expiring _ | .returned => none
    | .wake =>
      match s.phase with
      | .wait | .waitUntil _ => some ({ s with phase := .head }, none)
      | .head | .expiring _ | .returned => none
    | .timeout top =>
      match s.phase with
      | .waitUntil deadline =>
        if deadline ≤ s.now ∧ s.em.HasTop top then
          match top with
          | none => some ({ s with phase := .head }, none)
          | some e => some (s.pop e)
        else none
      | .head | .wait | .expiring _ | .returned => none
    | .onExpire =>
      match s.phase with
      | .expiring key => some ({ s with phase := .head }, some (.called key))
      | .head | .wait | .waitUntil _ | .returned => none

/-! ## The history -/

/-- The entries that `schedule` pushed. -/
def scheduled (events : List (Option TtlEvent)) : List HeapEntry :=
  events.filterMap fun
    | some (.scheduled e) => some e
    | _ => none

/-- The live entries that were popped. -/
def expired (events : List (Option TtlEvent)) : List HeapEntry :=
  events.filterMap fun
    | some (.expired e) => some e
    | _ => none

/-- The calls of `onExpire`. -/
def expireCalls (events : List (Option TtlEvent)) : List Bytes :=
  events.filterMap fun
    | some (.called key) => some key
    | _ => none

/-- The event sets or ends the deadline of `key`. -/
def TtlEvent.IsOn (key : Bytes) : TtlEvent → Bool
  | .scheduled e | .expired e => e.key = key
  | .cancelled k => k = key
  | .discarded _ | .called _ => false

/-- The events that set or end the deadline of `key`. -/
def eventsOn (key : Bytes) (events : List (Option TtlEvent)) : List TtlEvent :=
  (events.filterMap id).filter (TtlEvent.IsOn key)

/-- The deadline after the last of the events. -/
def lastDeadline (events : List TtlEvent) : Option Int :=
  match events.getLast? with
  | some (.scheduled e) => some e.when
  | _ => none

/-- The callback that is still to be made. -/
def SweepPhase.pending : SweepPhase → List Bytes
  | .expiring key => [key]
  | .head | .wait | .waitUntil _ | .returned => []

/-! ## The invariant -/

/-- What the TTL table has to do with the events so far. -/
structure TableInv (em : ExpiryManager) (events : List (Option TtlEvent)) : Prop where
  queued : em.Queued
  live : ∀ k, em.expiryOf k = lastDeadline (eventsOn k events)
  count : ∀ e, (expired events).count e + (if em.expiryOf e.key = some e.when then 1 else 0) ≤
    (scheduled events).count e

structure SweepInv (s : SweepState) (events : List (Option TtlEvent)) : Prop extends
    TableInv s.em events where
  waiting : ∀ d, s.phase = .waitUntil d → ∃ e ∈ s.em.heap, e.when ≤ d
  calls : expireCalls events ++ s.phase.pending = (expired events).map HeapEntry.key

section Table

variable {em : ExpiryManager} {events : List (Option TtlEvent)}

theorem eventsOn_snoc (k : Bytes) (o : Option TtlEvent) :
    eventsOn k (events ++ [o]) = eventsOn k events ++ (o.filter (TtlEvent.IsOn k)).toList := by
  unfold eventsOn
  rw [List.filterMap_append, List.filter_append]
  cases o with
  | none => rfl
  | some ev => cases h : ev.IsOn k <;> simp [Option.filter, h]

/-- The deadline of a key after one more event. -/
theorem lastDeadline_snoc (k : Bytes) (o : Option TtlEvent) :
    lastDeadline (eventsOn k (events ++ [o])) = match o with
      | some (.scheduled e) => if e.key = k then some e.when else lastDeadline (eventsOn k events)
      | some (.cancelled key) => if key = k then none else lastDeadline (eventsOn k events)
      | some (.expired e) => if e.key = k then none else lastDeadline (eventsOn k events)
      | some (.discarded _) | some (.called _) | none => lastDeadline (eventsOn k events) := by
  rw [eventsOn_snoc]
  rcases o with _ | (e | key | e | e | key)
  · simp
  · by_cases h : e.key = k <;> simp [Option.filter, TtlEvent.IsOn, h, lastDeadline]
  · by_cases h : key = k <;> simp [Option.filter, TtlEvent.IsOn, h, lastDeadline]
  · by_cases h : e.key = k <;> simp [Option.filter, TtlEvent.IsOn, h, lastDeadline]
  · simp [Option.filter, TtlEvent.IsOn]
  · simp [Option.filter, TtlEvent.IsOn]

/-- A deadline is left by its own `schedule`. -/
theorem getLast?_of_lastDeadline {k : Bytes} {t : Int}
    (h : lastDeadline (eventsOn k events) = some t) :
    (eventsOn k events).getLast? = some (.scheduled ⟨t, k⟩) := by
  unfold lastDeadline at h
  split at h
  · rename_i e hlast
    have hon := (List.mem_filter.mp (List.mem_of_getLast? hlast)).2
    have hkey : e.key = k := by simpa [TtlEvent.IsOn] using hon
    cases h
    rw [hlast, ← hkey]
  · cases h

theorem TableInv.schedule (h : TableInv em events) (k : Bytes) (t : Int) :
    TableInv (em.schedule k t) (events ++ [some (.scheduled ⟨t, k⟩)]) where
  queued := h.queued.schedule k t
  live x := by
    rw [lastDeadline_snoc, em.expiryOf_schedule, h.live]
    simp only [eq_comm]
  count e := by
    have hcount := h.count e
    rw [em.expiryOf_schedule]
    simp only [expired, scheduled, List.filterMap_append, List.count_append] at hcount ⊢
    simp only [List.filterMap_cons, List.filterMap_nil, List.count_nil, Nat.add_zero,
      List.count_singleton, beq_iff_eq]
    by_cases hk : e.key = k
    · by_cases ht : e.when = t
      · obtain rfl : e = ⟨t, k⟩ := by rw [← hk, ← ht]
        simp only [if_true]
        omega
      · rw [if_pos hk, if_neg fun he => ht (Option.some.inj he).symm]
        omega
    · rw [if_neg hk]
      omega

theorem TableInv.cancel (h : TableInv em events) (k : Bytes) :
    TableInv (em.cancel k) (events ++ [some (.cancelled k)]) where
  queued := h.queued.cancel k
  live x := by
    rw [lastDeadline_snoc, em.expiryOf_cancel, h.live]
    simp only [eq_comm]
  count e := by
    have hcount := h.count e
    rw [em.expiryOf_cancel]
    simp only [expired, scheduled, List.filterMap_append, List.count_append] at hcount ⊢
    simp only [List.filterMap_cons, List.filterMap_nil, List.count_nil, Nat.add_zero]
    have hnone : (none : Option Int) ≠ some e.when := nofun
    by_cases hk : e.key = k
    · rw [if_pos hk, if_neg hnone]
      omega
    · rw [if_neg hk]
      exact hcount

/-- The pop of a live entry ends the deadline and counts as its expiration. -/
theorem TableInv.expire (h : TableInv em events) {e : HeapEntry}
    (hlive : em.expiryOf e.key = some e.when) :
    TableInv (em.popTop e).1 (events ++ [some (.expired e)]) where
  queued := h.queued.popTop e
  live x := by
    rw [lastDeadline_snoc, (em.popTop_spec e).2, h.live]
    simp only [← h.live, hlive, true_and, eq_comm]
  count d := by
    have hcount := h.count d
    rw [(em.popTop_spec e).2]
    simp only [hlive, true_and]
    simp only [expired, scheduled, List.filterMap_append, List.count_append] at hcount ⊢
    simp only [List.filterMap_cons, List.filterMap_nil, List.count_nil, Nat.add_zero,
      List.count_singleton, beq_iff_eq]
    have hnone : (none : Option Int) ≠ some d.when := nofun
    by_cases hk : d.key = e.key
    · rw [if_pos hk, if_neg hnone]
      rw [hk, hlive] at hcount
      by_cases hd : e = d
      · rw [if_pos hd]
        rwa [if_pos (by rw [hd])] at hcount
      · rw [if_neg hd]
        omega
    · rw [if_neg hk, if_neg fun he => hk (by rw [he])]
      exact hcount

/-- The pop of a stale entry. -/
theorem TableInv.discard (h : TableInv em events) {e : HeapEntry}
    (hstale : em.expiryOf e.key ≠ some e.when) :
    TableInv (em.popTop e).1 (events ++ [some (.discarded e)]) := by
  have hsame : ∀ x, (em.popTop e).1.expiryOf x = em.expiryOf x := fun x => by
    rw [(em.popTop_spec e).2, if_neg fun hl => hstale hl.1]
  refine ⟨h.queued.popTop e, fun x => ?_, fun d => ?_⟩
  · rw [lastDeadline_snoc, hsame, h.live]
  · have hcount := h.count d
    rw [hsame]
    simpa [expired, scheduled] using hcount

/-- A step that leaves the table alone. -/
theorem TableInv.quiet (h : TableInv em events) {o : Option TtlEvent}
    (ho : ∀ ev, o = some ev → ∃ key, ev = .called key) : TableInv em (events ++ [o]) where
  queued := h.queued
  live x := by
    rw [lastDeadline_snoc, h.live]
    match o, ho with
    | none, _ => rfl
    | some ev, ho => obtain ⟨key, rfl⟩ := ho ev rfl; rfl
  count e := by
    have hcount := h.count e
    match o, ho with
    | none, _ => simpa [expired, scheduled] using hcount
    | some ev, ho =>
      obtain ⟨key, rfl⟩ := ho ev rfl
      simpa [expired, scheduled] using hcount

end Table

/-! ## The steps -/

section Steps

variable {s s' : SweepState} {events : List (Option TtlEvent)}

/-- What a pop does. -/
theorem pop_cases (s : SweepState) (e : HeapEntry) :
    (s.em.expiryOf e.key = some e.when ∧
      s.pop e = ({ s with em := (s.em.popTop e).1, phase := .expiring e.key }, some (.expired e))) ∨
    (s.em.expiryOf e.key ≠ some e.when ∧
      s.pop e = ({ s with em := (s.em.popTop e).1, phase := .head }, some (.discarded e))) := by
  have hkey := (s.em.popTop_spec e).1
  unfold SweepState.pop
  by_cases hl : s.em.expiryOf e.key = some e.when
  · rw [if_pos hl] at hkey
    left
    refine ⟨hl, ?_⟩
    split
    · rename_i hp
      rw [hp] at hkey
      cases hkey
    · rename_i em key hp
      rw [hp] at hkey ⊢
      cases hkey
      rfl
  · rw [if_neg hl] at hkey
    right
    refine ⟨hl, ?_⟩
    split
    · rename_i hp
      rw [hp]
    · rename_i hp
      rw [hp] at hkey
      cases hkey

/-- **No entry is popped early.** The entry that the sweeper waited for is still in the heap, so the
top is not later. -/
theorem SweepInv.due (h : SweepInv s events) {d : Int} (hphase : s.phase = .waitUntil d)
    (hd : d ≤ s.now) {e : HeapEntry} (htop : s.em.IsTop e) : e.when ≤ s.now := by
  obtain ⟨e', he', hle⟩ := h.waiting d hphase
  have := htop.2 e' he'
  omega

theorem sweepInv_pop (h : SweepInv s events) {d : Int} (hphase : s.phase = .waitUntil d)
    (e : HeapEntry) : SweepInv (s.pop e).1 (events ++ [(s.pop e).2]) := by
  have hcalls := h.calls
  rw [hphase] at hcalls
  simp only [SweepPhase.pending, List.append_nil] at hcalls
  obtain ⟨hlive, hpop⟩ | ⟨hstale, hpop⟩ := pop_cases s e
  · rw [hpop]
    refine ⟨h.expire hlive, by simp, ?_⟩
    simpa [expireCalls, expired, SweepPhase.pending] using hcalls
  · rw [hpop]
    refine ⟨h.discard hstale, by simp, ?_⟩
    simpa [expireCalls, expired, SweepPhase.pending] using hcalls

/-- A step without an event. -/
theorem SweepInv.quiet (h : SweepInv s events) (hem : s'.em = s.em)
    (hwait : ∀ d, s'.phase = .waitUntil d → ∃ e ∈ s.em.heap, e.when ≤ d)
    (hpending : s'.phase.pending = s.phase.pending) : SweepInv s' (events ++ [none]) := by
  refine ⟨?_, by rwa [hem], ?_⟩
  · rw [hem]
    exact TableInv.quiet h.toTableInv (by simp)
  · rw [hpending]
    simpa [expireCalls, expired] using h.calls

theorem sweepInv_step (h : SweepInv s events) {a : SweepAction} {o : Option TtlEvent}
    (hs : sweepMachine.step s a = some (s', o)) : SweepInv s' (events ++ [o]) := by
  have hcalls := h.calls
  cases a with
  | tick now =>
    obtain ⟨-, hs⟩ := Option.ite_none_right_eq_some.mp hs
    cases hs
    exact h.quiet rfl h.waiting rfl
  | schedule key t =>
    cases hs
    refine ⟨h.schedule key t, fun d hd => ?_, by simpa [expireCalls, expired] using hcalls⟩
    obtain ⟨e, he, hle⟩ := h.waiting d hd
    exact ⟨e, List.mem_cons_of_mem _ he, hle⟩
  | cancel key =>
    cases hs
    exact ⟨h.cancel key, h.waiting, by simpa [expireCalls, expired] using hcalls⟩
  | stop =>
    cases hs
    exact h.quiet rfl h.waiting rfl
  | check top =>
    simp only [sweepMachine] at hs
    split at hs
    · rename_i hphase
      split at hs
      · cases hs
        exact h.quiet rfl nofun (by rw [hphase]; rfl)
      · obtain ⟨htop, hs⟩ := Option.ite_none_right_eq_some.mp hs
        cases top with
        | none =>
          cases hs
          exact h.quiet rfl nofun (by rw [hphase]; rfl)
        | some e =>
          cases hs
          refine h.quiet rfl ?_ (by rw [hphase]; rfl)
          rintro d ⟨⟩
          exact ⟨e, htop.1, Int.le_refl _⟩
    all_goals cases hs
  | wake =>
    simp only [sweepMachine] at hs
    split at hs
    · rename_i hphase
      cases hs
      exact h.quiet rfl nofun (by rw [hphase]; rfl)
    · rename_i hphase
      cases hs
      exact h.quiet rfl nofun (by rw [hphase]; rfl)
    all_goals cases hs
  | timeout top =>
    simp only [sweepMachine] at hs
    split at hs
    · rename_i deadline hphase
      obtain ⟨-, hs⟩ := Option.ite_none_right_eq_some.mp hs
      cases top with
      | none =>
        cases hs
        exact h.quiet rfl nofun (by rw [hphase]; rfl)
      | some e =>
        have hpop := sweepInv_pop h hphase e
        rw [Option.some.inj hs] at hpop
        exact hpop
    all_goals cases hs
  | onExpire =>
    simp only [sweepMachine] at hs
    split at hs
    · rename_i key hphase
      rw [hphase] at hcalls
      cases hs
      refine ⟨TableInv.quiet h.toTableInv (by simp), nofun, ?_⟩
      simpa [expireCalls, expired, SweepPhase.pending] using hcalls
    all_goals cases hs

/-- The pop that a timeout makes. -/
theorem timeout_pop {e : HeapEntry} {o : Option TtlEvent}
    (hs : sweepMachine.step s (.timeout (some e)) = some (s', o)) :
    ∃ d, s.phase = .waitUntil d ∧ d ≤ s.now ∧ s.em.IsTop e ∧ s.pop e = (s', o) := by
  simp only [sweepMachine] at hs
  split at hs
  · rename_i d hphase
    obtain ⟨⟨hdue, htop⟩, hs⟩ := Option.ite_none_right_eq_some.mp hs
    exact ⟨d, hphase, hdue, htop, Option.some.inj hs⟩
  all_goals cases hs

end Steps

theorem sweepInv_start (now : Int) : SweepInv (.start now) [] where
  queued _ _ h := by cases h
  live _ := rfl
  count _ := Nat.le_refl _
  waiting _ h := by cases h
  calls := rfl

/-- **The expiry manager over any run.** In every order of `schedule`, `cancel`, the steps of the
sweeper and of the clock:

* every live deadline has its entry in the heap;
* an entry that is popped next is due; it expires its key exactly if it is the live deadline, and
  then the last event on the key was the `schedule` of this deadline;
* the callbacks are made for the expirations, in their order, and the last one may be outstanding;
* a deadline of a key expires at most as often as it was scheduled. -/
theorem expiry_manager_runs (now : Int) (acts : List SweepAction) {s : SweepState}
    {events : List (Option TtlEvent)}
    (hrun : sweepMachine.run (.start now) acts = some (s, events)) :
    (∀ k d, s.em.expiryOf k = some d → ⟨d, k⟩ ∈ s.em.heap) ∧
    (∀ e s' o, sweepMachine.step s (.timeout (some e)) = some (s', o) → e.when ≤ s.now ∧
      (o = some (.expired e) ↔ s.em.expiryOf e.key = some e.when) ∧
      (o = some (.expired e) → (eventsOn e.key events).getLast? = some (.scheduled e))) ∧
    expireCalls events ++ s.phase.pending = (expired events).map HeapEntry.key ∧
    ∀ e, (expired events).count e ≤ (scheduled events).count e := by
  have h : SweepInv s events :=
    Machine.run_history (I := fun s _ events => SweepInv s events)
      (fun _ _ _ _ _ _ _ hI _ hs => sweepInv_step hI hs) (Machine.along_true _ acts) hrun
      (sweepInv_start now)
  refine ⟨h.queued, fun e s' o hs => ?_, h.calls, fun e => ?_⟩
  · obtain ⟨d, hphase, hd, htop, hpop⟩ := timeout_pop hs
    refine ⟨h.due hphase hd htop, ?_⟩
    obtain ⟨hlive, heq⟩ | ⟨hstale, heq⟩ := pop_cases s e
    · obtain ⟨-, rfl⟩ := Prod.mk.inj (heq.symm.trans hpop)
      refine ⟨⟨fun _ => hlive, fun _ => rfl⟩, fun _ => ?_⟩
      exact getLast?_of_lastDeadline ((h.live e.key).symm.trans hlive)
    · obtain ⟨-, rfl⟩ := Prod.mk.inj (heq.symm.trans hpop)
      exact ⟨⟨nofun, fun hl => absurd hl hstale⟩, nofun⟩
  · have := h.count e
    omega

/-- The sweeper waits for a deadline that is cancelled meanwhile, and an earlier one of another key
comes on top. -/
def topChanges : List SweepAction :=
  [.schedule (ascii "k") 5, .check (some ⟨5, ascii "k"⟩), .cancel (ascii "k"),
    .schedule (ascii "j") 3, .tick 6, .timeout (some ⟨3, ascii "j"⟩), .schedule (ascii "j") 9,
    .onExpire, .check (some ⟨5, ascii "k"⟩), .timeout (some ⟨5, ascii "k"⟩)]

theorem expiry_manager_runs_topChanges :
    ∃ s events, sweepMachine.run (.start 0) topChanges = some (s, events) ∧
      expireCalls events = [ascii "j"] ∧ s.em.expiryOf (ascii "j") = some 9 ∧
      ⟨9, ascii "j"⟩ ∈ s.em.heap := by
  obtain ⟨hqueued, -, -, -⟩ := expiry_manager_runs 0 topChanges rfl
  exact ⟨_, _, rfl, by decide +kernel, by decide +kernel, hqueued _ _ (by decide +kernel)⟩

end TinyKV
