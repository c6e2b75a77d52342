import TinyKV.Recovery

/-!
# Many clients: the order of the log and the order of execution

Each connection of a primary executes a line, records it and propagates it. The three steps take
three different mutexes, so the append-only file and the stream to a replica may have the lines of
several clients in another order than the one in which they executed.

* `LogRun`: a primary with the lines that are executed and not yet recorded, or not yet propagated,
  in the order in which they executed; `logMachine` takes the steps of the clients in any order.
* `LogStepSafe`: no line overtakes an earlier one on the same key with which it does not commute.
* `applyAll_owed_pick`: a line that commutes with the lines it overtakes may overtake them.
* `LogInv`: the log and the stream are true to the data, up to the lines that are still owed to
  them; `logInv_step`.
* `log_order`: the live map, the replayed log and the replica agree after any run of safe steps.
-/

namespace TinyKV

open Cpp Recency Text SnapshotManager

/-! ## Lines in flight -/

/-- Lines in flight, each with its client, in the order in which they executed. -/
abbrev Flight : Type := List (Nat × Line)

/-- Take the line of a client out. -/
def pick (c : Nat) : Flight → Option (Line × Flight)
  | [] => none
  | p :: ps => if p.1 = c then some (p.2, ps) else (pick c ps).map fun q => (q.1, p :: q.2)

/-- The lines that executed before the line of the client. -/
def ahead (c : Nat) (ps : Flight) : Flight := ps.takeWhile fun p => p.1 ≠ c

/-- The effects of the lines. -/
def owed (ps : Flight) : List (Bytes × KeyOp) := ps.flatMap fun p => lineEffects p.2.1

theorem pick_eq_some {c : Nat} {ps rest : Flight} {line : Line}
    (h : pick c ps = some (line, rest)) :
    ∃ post, ps = ahead c ps ++ (c, line) :: post ∧ rest = ahead c ps ++ post := by
  induction ps generalizing rest with
  | nil => cases h
  | cons p ps ih =>
    rw [pick] at h
    split at h
    · rename_i hc
      cases h
      refine ⟨ps, ?_, ?_⟩ <;> simp [ahead, ← hc]
    · rename_i hc
      obtain ⟨⟨l, r⟩, hq, he⟩ := Option.map_eq_some_iff.mp h
      cases he
      obtain ⟨post, hps, hr⟩ := ih hq
      have ha : ahead c (p :: ps) = p :: ahead c ps := by simp [ahead, hc]
      rw [ha]
      exact ⟨post, by rw [List.cons_append, ← hps], by rw [hr, List.cons_append]⟩

/-- Two lines give the same in both orders: they are on different keys, or commute on one. -/
def LinesCommute (l l' : Bytes) : Prop :=
  ∀ u ∈ lineEffects l, ∀ v ∈ lineEffects l', u.1 = v.1 → u.2.commutes v.2 = true

instance (l l' : Bytes) : Decidable (LinesCommute l l') :=
  inferInstanceAs (Decidable (∀ u ∈ lineEffects l, ∀ v ∈ lineEffects l', _))

/-- A line may overtake the lines with which it commutes. -/
theorem applyAll_owed_pick {c : Nat} {ps rest : Flight} {line : Line}
    (h : pick c ps = some (line, rest))
    (hc : ∀ p ∈ ahead c ps, LinesCommute p.2.1 line.1) (m : KvMap) :
    applyAll m (lineEffects line.1 ++ owed rest) = applyAll m (owed ps) := by
  obtain ⟨post, hps, hrest⟩ := pick_eq_some h
  have hsplit : owed ps = owed (ahead c ps) ++ lineEffects line.1 ++ owed post := by
    conv_lhs => rw [hps]
    simp [owed]
  have hmove : applyAll m (owed (ahead c ps) ++ lineEffects line.1) =
      applyAll m (lineEffects line.1 ++ owed (ahead c ps)) := by
    rcases lineEffects_cases line.1 with he | ⟨k, op, he⟩
    · simp [he]
    · rw [he]
      refine Keyed.run_move_front (fun u hu hk x => ?_) m
      obtain ⟨p, hp, hup⟩ := List.mem_flatMap.mp hu
      exact KeyOp.app_comm (hc p hp u hup (k, op) (by simp [he]) hk) x
  calc applyAll m (lineEffects line.1 ++ owed rest)
      = applyAll m ((lineEffects line.1 ++ owed (ahead c ps)) ++ owed post) := by
        rw [hrest, owed, List.flatMap_append, List.append_assoc]
        rfl
    _ = applyAll (applyAll m (owed (ahead c ps) ++ lineEffects line.1)) (owed post) := by
        rw [hmove]
        exact Keyed.run_append _ _ _ _
    _ = applyAll m (owed ps) := by
        rw [hsplit]
        exact (Keyed.run_append _ _ _ _).symm

/-! ## The machine -/

/-- A primary and the lines in flight. -/
structure LogRun where
  server : Server
  unrecorded : Flight
  unpropagated : Flight

inductive LogAction where
  /-- The next line of a client is executed. -/
  | exec (client : Nat) (now : Now) (line : Line)
  | record (client : Nat)
  | propagate (client : Nat)

/-- The machine of the clients of a primary. A client sends its next line when it has the reply to
the last one, which is written after the propagation. Lines that change the connection, the role or
the files by themselves are not taken. -/
def logMachine : Machine LogRun LogAction (Option Bytes) where
  step r
    | .exec c now line =>
      if (pick c r.unpropagated).isSome then none
      else if line.1.isEmpty then some (r, none)
      else match parse line.1 with
        | .error e => some (r, some (Reply.error e.what))
        | .ok cmd =>
          if cmd.type = .SYNC ∨ cmd.type = .SAVE ∨ cmd.type = .REPLICAOF then none
          else
            let out := execute serverWiring r.server.db now cmd
            let s := { r.server with db := out.db }
            if logged cmd out.reply then
              some (⟨s, r.unrecorded ++ [(c, line)], r.unpropagated ++ [(c, line)]⟩, some out.reply)
            else some ({ r with server := s }, some out.reply)
    | .record c =>
      (pick c r.unrecorded).map fun q =>
        ({ r with server := r.server.recordWrite q.1.1, unrecorded := q.2 }, none)
    | .propagate c =>
      -- A connection propagates a line after it has recorded it.
      if (pick c r.unrecorded).isSome then none
      else (pick c r.unpropagated).map fun q =>
        ({ r with server := r.server.propagate q.1.1, unpropagated := q.2 }, none)

/-- No line overtakes an earlier one on the same key with which it does not commute. -/
def LogStepSafe (r : LogRun) : LogAction → Prop
  | .exec _ _ _ => True
  | .record c => ∀ q ∈ pick c r.unrecorded,
      ∀ p ∈ ahead c r.unrecorded, LinesCommute p.2.1 q.1.1
  | .propagate c => ∀ q ∈ pick c r.unpropagated,
      ∀ p ∈ ahead c r.unpropagated, LinesCommute p.2.1 q.1.1

instance (r : LogRun) : ∀ a, Decidable (LogStepSafe r a)
  | .exec _ _ _ => isTrue trivial
  | .record c => inferInstanceAs (Decidable (∀ q ∈ pick c r.unrecorded, _))
  | .propagate c => inferInstanceAs (Decidable (∀ q ∈ pick c r.unpropagated, _))

/-! ## The invariant -/

structure LogInv (fd : Nat) (r : LogRun) : Prop where
  unbounded : r.server.db.store.capacity = 0
  appendOnly : r.server.appendOnly = true
  complete : r.server.disk.Complete
  attached : r.server.replicaFds.count fd = 1
  log : applyAll (fun _ => none) (r.server.disk.log true ++ owed r.unrecorded) =
    r.server.db.store.lookup
  stream : applyAll (fun _ => none)
      ((r.server.sent fd).flatMap lineEffects ++ owed r.unpropagated) = r.server.db.store.lookup

theorem owed_concat (ps : Flight) (c : Nat) (line : Line) :
    owed (ps ++ [(c, line)]) = owed ps ++ lineEffects line.1 := by
  simp [owed]

/-- One more update at the end of a log. -/
theorem applyAll_append_right {m L : KvMap} {us vs : List (Bytes × KeyOp)}
    (h : applyAll m us = L) : applyAll m (us ++ vs) = applyAll L vs := by
  rw [applyAll, Keyed.run_append]
  exact congrArg (fun x => Keyed.run KeyOp.app x vs) h

theorem logInv_exec {fd : Nat} {r : LogRun} {c : Nat} {now : Now} {line : Line} {cmd : Command}
    (h : LogInv fd r) (hp : parse line.1 = .ok cmd) :
    LogInv fd ⟨{ r.server with db := (execute serverWiring r.server.db now cmd).db },
      r.unrecorded ++ [(c, line)], r.unpropagated ++ [(c, line)]⟩ := by
  have hl : (execute serverWiring r.server.db now cmd).db.store.lookup =
      applyAll r.server.db.store.lookup (lineEffects line.1) := by
    rw [execute_lookup h.unbounded, lineEffects, hp]
    rfl
  refine ⟨by rw [execute_capacity, h.unbounded], h.appendOnly, h.complete, h.attached, ?_, ?_⟩
  · rw [owed_concat, ← List.append_assoc, hl]
    exact applyAll_append_right h.log
  · rw [owed_concat, ← List.append_assoc, hl]
    exact applyAll_append_right h.stream

theorem logInv_unlogged {fd : Nat} {r : LogRun} {now : Now} {cmd : Command} (h : LogInv fd r)
    (hlog : logged cmd (execute serverWiring r.server.db now cmd).reply = false) :
    LogInv fd { r with server :=
      { r.server with db := (execute serverWiring r.server.db now cmd).db } } := by
  have hl : (execute serverWiring r.server.db now cmd).db.store.lookup =
      r.server.db.store.lookup := by
    rw [execute_lookup h.unbounded, apply_of_not_logged hlog]
  exact ⟨by rw [execute_capacity, h.unbounded], h.appendOnly, h.complete, h.attached,
    h.log.trans hl.symm, h.stream.trans hl.symm⟩

/-- A log that takes the next line of a client, when the line commutes with what it overtakes. -/
theorem applyAll_pick {c : Nat} {ps rest : Flight} {line : Line} {L : KvMap}
    {us : List (Bytes × KeyOp)} (h : applyAll (fun _ => none) (us ++ owed ps) = L)
    (hpick : pick c ps = some (line, rest))
    (hc : ∀ p ∈ ahead c ps, LinesCommute p.2.1 line.1) :
    applyAll (fun _ => none) (us ++ lineEffects line.1 ++ owed rest) = L := by
  rw [List.append_assoc, applyAll_append_right rfl, applyAll_owed_pick hpick hc, ← h]
  exact (Keyed.run_append _ _ _ _).symm

theorem logInv_record {fd c : Nat} {r : LogRun} {line : Line} {rest : Flight} (h : LogInv fd r)
    (hpick : pick c r.unrecorded = some (line, rest))
    (hc : ∀ p ∈ ahead c r.unrecorded, LinesCommute p.2.1 line.1) :
    LogInv fd { r with server := r.server.recordWrite line.1, unrecorded := rest } := by
  have hrec : (r.server.recordWrite line.1).disk = AofWriter.append r.server.disk line.1 := by
    show PersistenceManager.recordWrite r.server.appendOnly r.server.disk line.1 = _
    rw [h.appendOnly]
    rfl
  refine ⟨h.unbounded, h.appendOnly, ?_, h.attached, ?_, h.stream⟩
  · rw [hrec]
    exact complete_append h.complete line
  · rw [hrec, log_append h.complete]
    exact applyAll_pick h.log hpick hc

theorem logInv_propagate {fd c : Nat} {r : LogRun} {line : Line} {rest : Flight} (h : LogInv fd r)
    (hpick : pick c r.unpropagated = some (line, rest))
    (hc : ∀ p ∈ ahead c r.unpropagated, LinesCommute p.2.1 line.1) :
    LogInv fd { r with server := r.server.propagate line.1, unpropagated := rest } := by
  refine ⟨h.unbounded, h.appendOnly, h.complete, h.attached, h.log, ?_⟩
  have hsent : (r.server.propagate line.1).sent fd = r.server.sent fd ++ [line.1] := by
    rw [Server.propagate_sent, h.attached]
    rfl
  rw [hsent, List.flatMap_append, List.flatMap_singleton]
  exact applyAll_pick h.stream hpick hc

/-- A safe step keeps the log and the stream true to the data. -/
theorem logInv_step {fd : Nat} {r t : LogRun} {a : LogAction} {o : Option Bytes} (h : LogInv fd r)
    (hsafe : LogStepSafe r a) (hs : logMachine.step r a = some (t, o)) : LogInv fd t := by
  cases a with
  | exec c now line =>
    simp only [logMachine] at hs
    split at hs
    · cases hs
    split at hs
    · cases hs; exact h
    split at hs
    · cases hs; exact h
    rename_i cmd hp
    split at hs
    · cases hs
    split at hs
    · cases hs
      exact logInv_exec h hp
    · rename_i hlog
      cases hs
      exact logInv_unlogged h (by simpa using hlog)
  | record c =>
    obtain ⟨⟨line, rest⟩, hpick, he⟩ := Option.map_eq_some_iff.mp hs
    cases he
    exact logInv_record h hpick (hsafe _ hpick)
  | propagate c =>
    simp only [logMachine] at hs
    split at hs
    · cases hs
    obtain ⟨⟨line, rest⟩, hpick, he⟩ := Option.map_eq_some_iff.mp hs
    cases he
    exact logInv_propagate h hpick (hsafe _ hpick)

/-! ## Whole runs -/

/-- A fresh primary to which replicas are attached. -/
def freshPrimary (clock : Nat → Now) (fds : List Nat) : Server :=
  { Server.start true 0 clock .empty with replicaFds := fds }

/-- A fresh server that has become a replica. -/
def freshReplica (clock : Nat → Now) : Server :=
  { Server.start true 0 clock .empty with role := .REPLICA }

theorem logInv_freshPrimary (clock : Nat → Now) {fds : List Nat} {fd : Nat}
    (h : fds.count fd = 1) : LogInv fd ⟨freshPrimary clock fds, [], []⟩ :=
  ⟨rfl, rfl, ⟨[], fun _ h => (by cases h), rfl⟩, h, rfl, rfl⟩

/-- **Log order.** In every run of safe steps, when all lines are finished, the replay of the
append-only file and the replica on `fd` have the live map. -/
theorem log_order (clock₀ clock₁ clock₂ clock₃ : Nat → Now) (fds : List Nat) (fd : Nat)
    (hfd : fds.count fd = 1) (acts : List LogAction) (r : LogRun) (outs : List (Option Bytes))
    (hsafe : logMachine.Along LogStepSafe ⟨freshPrimary clock₀ fds, [], []⟩ acts)
    (hrun : logMachine.run ⟨freshPrimary clock₀ fds, [], []⟩ acts = some (r, outs))
    (hrecorded : r.unrecorded = []) (hpropagated : r.unpropagated = []) :
    (AofLoader.replay serverWiring clock₁ r.server.disk (Db.empty 0)).store.lookup =
        r.server.db.store.lookup ∧
      ((freshReplica clock₂).applyLines clock₃ (r.server.sent fd)).db.store.lookup =
        r.server.db.store.lookup := by
  have hr : LogInv fd r :=
    Machine.run_invariant (fun _ _ _ _ h hc hs => logInv_step h hc hs) hsafe hrun
      (logInv_freshPrimary clock₀ hfd)
  have hlog := hr.log
  have hstream := hr.stream
  rw [hrecorded] at hlog
  rw [hpropagated] at hstream
  constructor
  · rw [AofLoader.replay, replayLines_lookup rfl, ← hlog]
    simp only [owed, List.flatMap_nil, List.append_nil]
    rfl
  · rw [Server.applyLines_lookup rfl, ← hstream]
    simp only [owed, List.flatMap_nil, List.append_nil]
    rfl

/-- Two clients, two lines: they execute in one order and are recorded in the other one. -/
def overtaking (l₀ l₁ : Line) : List LogAction :=
  [.exec 0 .epoch l₀, .exec 1 .epoch l₁, .record 1, .record 0,
    .propagate 0, .propagate 1]

/-- Two counters may overtake each other. -/
theorem log_order_counters :
    ∃ r outs, logMachine.run ⟨freshPrimary (fun _ => .epoch) [7], [], []⟩
        (overtaking (.ofText "INCR k") (.ofText "DECR k")) = some (r, outs) ∧
      r.server.db.store.lookup (ascii "k") = some (ascii "0") ∧
      (AofLoader.replay serverWiring (fun _ => .epoch) r.server.disk
        (Db.empty 0)).store.lookup = r.server.db.store.lookup := by
  refine ⟨_, _, rfl, by decide +kernel, ?_⟩
  exact (log_order (fun _ => .epoch) (fun _ => .epoch) (fun _ => .epoch)
    (fun _ => .epoch) [7] 7 (by decide)
    (overtaking (.ofText "INCR k") (.ofText "DECR k")) _ _ (by decide +kernel)
    rfl rfl rfl).1

/-- Two assignments of one key may not: the log keeps the value that was overwritten. -/
theorem log_order_overtaken :
    ¬ ∀ (clock₀ clock₁ clock₂ clock₃ : Nat → Now) (fds : List Nat) (fd : Nat),
      fds.count fd = 1 → ∀ (acts : List LogAction) (r : LogRun) (outs : List (Option Bytes)),
      logMachine.run ⟨freshPrimary clock₀ fds, [], []⟩ acts = some (r, outs) →
      r.unrecorded = [] → r.unpropagated = [] →
      (AofLoader.replay serverWiring clock₁ r.server.disk (Db.empty 0)).store.lookup =
        r.server.db.store.lookup ∧
      ((freshReplica clock₂).applyLines clock₃ (r.server.sent fd)).db.store.lookup =
        r.server.db.store.lookup := by
  intro h
  have hrun : (logMachine.run ⟨freshPrimary (fun _ => .epoch) [7], [], []⟩
      (overtaking (.ofText "SET k 1") (.ofText "SET k 2"))).map (fun x =>
        (x.1.unrecorded.isEmpty, x.1.unpropagated.isEmpty,
          applyAll (fun _ => none) (x.1.server.disk.log true) (ascii "k"),
          x.1.server.db.store.lookup (ascii "k"))) =
      some (true, true, some (ascii "1"), some (ascii "2")) := by decide +kernel
  obtain ⟨⟨r, outs⟩, hr, hfacts⟩ := Option.map_eq_some_iff.mp hrun
  simp only [Prod.mk.injEq, List.isEmpty_iff] at hfacts
  obtain ⟨hrec, hprop, hlog, hlive⟩ := hfacts
  let clock : Nat → Now := fun _ => .epoch
  have hlost := congrFun (h clock clock clock clock [7] 7 (by decide) _ r outs hr hrec hprop).1
    (ascii "k")
  rw [AofLoader.replay, replayLines_lookup rfl, hlive] at hlost
  have hone : some (ascii "1") = some (ascii "2") := hlog.symm.trans hlost
  revert hone
  decide

end TinyKV
