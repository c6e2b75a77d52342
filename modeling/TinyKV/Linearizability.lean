import TinyKV.SweepRace
import TinyKV.Lib.Linearizability

/-!
# Commands without deadlines are linearizable

A command makes up to three locked calls, and the calls of other clients come in between. As long as
no command sets a deadline, only the call on the store counts: the TTL table stays empty and the
sweeper has nothing to do. So with any number of clients, on a store of any capacity, the commands
are as if each were executed at one moment between its line and its reply.

* `Command.setsDeadline`: `SET` with a valid `EX`, or `EXPIRE` with valid seconds.
* `storeSpec`: a command on a store without deadlines.
* `atomic_executeSteps`: one of the calls of a command does all that the command does.
* `commands_linearizable`: the history of any run has a linearization, which ends in the store of
  the run.

With deadlines this fails: `not_atomic_delAroundSetEx`.
-/

namespace TinyKV

open Cpp

def Command.setsDeadline (cmd : Command) : Bool :=
  match cmd.type, cmd.args with
  | .SET, [_, _, opt, secs] =>
    equalsIgnoreCase opt (ascii "EX") && (parsePositiveSeconds secs).isSome
  | .EXPIRE, [_, secs] => (parsePositiveSeconds secs).isSome
  | _, _ => false

/-- A command on a store without deadlines. -/
def storeSpec (w : Wiring) (op : Now × Command) (store : Store) : Store × Bytes :=
  let out := execute w ⟨store, .empty⟩ op.1 op.2
  (out.db.store, out.reply)

/-- There are no deadlines. -/
def Db.Timeless (db : Db) : Prop := db.expiry = .empty

/-! ## One command -/

theorem cancel_empty (key : Bytes) : ExpiryManager.empty.cancel key = .empty := by
  unfold ExpiryManager.cancel ExpiryManager.empty
  congr 1

theorem Db.Timeless.cancel {db : Db} (h : db.Timeless) (key : Bytes) :
    Db.Timeless { db with expiry := db.expiry.cancel key } := by
  unfold Db.Timeless at h ⊢
  rw [h]
  exact cancel_empty key

theorem Db.Timeless.eq {db : Db} (h : db.Timeless) : db = ⟨db.store, .empty⟩ := by
  obtain ⟨store, expiry⟩ := db
  obtain rfl : expiry = .empty := h
  rfl

abbrev CommandProg.Atomic (p : CommandProg) (f : Store → Store × Bytes) : Prop :=
  Prog.Atomic Db.Timeless Db.store Prod.fst f p

abbrev CommandProg.Settled (p : CommandProg) (reply : Bytes) : Prop :=
  Prog.Settled Db.Timeless Db.store Prod.fst reply p

section

variable {f : Store → Store × Bytes} {key : Bytes} {reply : Bytes}

theorem settled_answer (reply : Bytes) : (answer reply).Settled reply := ⟨trivial, rfl⟩

theorem settled_cancel (key reply : Bytes) :
    (Locked.cancel key (answer reply)).Settled reply :=
  .step fun _ hdb => ⟨hdb.cancel key, rfl, settled_answer reply⟩

/-- A command that is settled with its first call. -/
theorem atomic_first {act : Db → Db} {next : Db → CommandProg}
    (h : ∀ db, db.Timeless → (act db).Timeless ∧ (act db).store = (f db.store).1 ∧
      (next db).Settled (f db.store).2) : CommandProg.Atomic (.step act next) f :=
  fun db hdb => ⟨(h db hdb).1, .inr (h db hdb).2⟩

end

/-- A command without a call. -/
theorem atomic_of_done {w : Wiring} {now : Now} {cmd : Command}
    (h : ∃ r, executeSteps w now cmd = .done r) :
    (executeSteps w now cmd).Atomic (storeSpec w (now, cmd)) := by
  obtain ⟨r, h⟩ := h
  rw [h]
  intro db _
  have hrun := run_executeSteps w ⟨db.store, .empty⟩ now cmd
  rw [h] at hrun
  obtain ⟨hdb, hreply⟩ := Prod.mk.inj hrun
  obtain rfl : r = _ := hreply
  have hstore : (execute w ⟨db.store, .empty⟩ now cmd).db.store = db.store := by rw [← hdb]
  exact Prod.ext hstore rfl

/-- One call of a command on the store does all that the command does. -/
theorem atomic_executeSteps (w : Wiring) (now : Now) {cmd : Command}
    (h : cmd.setsDeadline = false) :
    (executeSteps w now cmd).Atomic (storeSpec w (now, cmd)) := by
  obtain ⟨type, name, args⟩ := cmd
  cases type with
  | SET =>
    rcases args with _ | ⟨key, _ | ⟨value, _ | ⟨opt, _ | ⟨secs, _ | _⟩⟩⟩⟩
    · exact atomic_of_done ⟨_, rfl⟩
    · exact atomic_of_done ⟨_, rfl⟩
    · exact atomic_first fun db hdb => ⟨hdb, rfl, settled_cancel key _⟩
    · exact atomic_of_done ⟨_, rfl⟩
    · simp only [Command.setsDeadline, Bool.and_eq_false_iff, Option.isSome_eq_false_iff,
        Option.isNone_iff_eq_none] at h
      by_cases hopt : equalsIgnoreCase opt (ascii "EX") = true
      · have hsecs : parsePositiveSeconds secs = none := by
          rcases h with h | h
          · rw [hopt] at h
            cases h
          · exact h
        exact atomic_of_done ⟨_, by simp only [executeSteps, hopt, hsecs, if_true]; rfl⟩
      · exact atomic_of_done ⟨_, if_neg hopt⟩
    · exact atomic_of_done ⟨_, rfl⟩
  | GET =>
    rcases args with _ | ⟨key, _ | _⟩
    · exact atomic_of_done ⟨_, rfl⟩
    · refine atomic_first fun db hdb => ⟨hdb, ?_, ?_⟩
      · simp only [storeSpec, execute]
        cases db.store.get key with
        | mk value store => cases value <;> rfl
      · simp only [storeSpec, execute]
        cases db.store.get key with
        | mk value store => cases value <;> exact settled_answer _
    · exact atomic_of_done ⟨_, rfl⟩
  | DEL =>
    rcases args with _ | ⟨key, _ | _⟩
    · exact atomic_of_done ⟨_, rfl⟩
    · exact atomic_first fun db hdb => ⟨hdb, rfl, settled_cancel key _⟩
    · exact atomic_of_done ⟨_, rfl⟩
  | INCR | DECR =>
    rcases args with _ | ⟨key, _ | _⟩
    · exact atomic_of_done ⟨_, rfl⟩
    · refine atomic_first fun db hdb => ?_
      simp only [storeSpec, execute, incrementReply]
      cases db.store.incrementBy key _ with
      | none => exact ⟨hdb, rfl, settled_answer _⟩
      | some x => exact ⟨hdb, rfl, settled_answer _⟩
    · exact atomic_of_done ⟨_, rfl⟩
  | TTL =>
    rcases args with _ | ⟨key, _ | _⟩
    · exact atomic_of_done ⟨_, rfl⟩
    · refine atomic_first fun db hdb => ⟨hdb, ?_, ?_⟩
      · simp only [storeSpec, execute]
        cases db.store.exists key <;> rfl
      · simp only [storeSpec, execute]
        cases db.store.exists key with
        | false => exact settled_answer _
        | true =>
          refine .step fun db' hdb' => ⟨hdb', rfl, ?_⟩
          rw [hdb'.eq]
          exact settled_answer _
    · exact atomic_of_done ⟨_, rfl⟩
  | EXPIRE =>
    rcases args with _ | ⟨key, _ | ⟨secs, _ | _⟩⟩
    · exact atomic_of_done ⟨_, rfl⟩
    · exact atomic_of_done ⟨_, rfl⟩
    · simp only [Command.setsDeadline, Option.isSome_eq_false_iff, Option.isNone_iff_eq_none] at h
      refine atomic_first fun db hdb => ⟨hdb, ?_, ?_⟩
      · simp only [storeSpec, execute, h]
        cases db.store.exists key <;> rfl
      · simp only [storeSpec, execute, h]
        cases db.store.exists key <;> exact settled_answer _
    · exact atomic_of_done ⟨_, rfl⟩
  | PERSIST =>
    rcases args with _ | ⟨key, _ | _⟩
    · exact atomic_of_done ⟨_, rfl⟩
    · refine atomic_first fun db hdb => ⟨hdb, ?_, ?_⟩
      · simp only [storeSpec, execute]
        cases db.store.exists key <;> rfl
      · simp only [storeSpec, execute]
        cases db.store.exists key with
        | false => exact settled_answer _
        | true =>
          refine .step fun db' hdb' => ⟨hdb', rfl, ?_⟩
          rw [hdb'.eq]
          exact settled_cancel key _
    · exact atomic_of_done ⟨_, rfl⟩
  | SAVE | REPLICAOF =>
    refine atomic_of_done ?_
    simp only [executeSteps]
    repeat' split
    all_goals exact ⟨_, rfl⟩
  | PING => rcases args with _ | _ <;> exact atomic_of_done ⟨_, rfl⟩
  | SYNC | ROUTE | NODES | UNKNOWN => exact atomic_of_done ⟨_, rfl⟩

/-! ## Whole runs -/

/-- What is seen of the clients in a run. -/
def raceHistory (acts : List RaceAction) (outs : List (Option (Nat × Bytes))) :
    List (HistoryEvent Nat (Now × Command) Bytes) :=
  (acts.zip outs).filterMap fun
    | (.issue c now cmd, _) => some (.call c (now, cmd))
    | (.reply _, some (c, reply)) => some (.ret c reply)
    | _ => none

theorem raceHistory_concat {acts : List RaceAction} {outs : List (Option (Nat × Bytes))}
    (h : outs.length = acts.length) (a : RaceAction) (o : Option (Nat × Bytes)) :
    raceHistory (acts ++ [a]) (outs ++ [o]) = raceHistory acts outs ++ raceHistory [a] [o] := by
  rw [raceHistory, List.zip_append h.symm, List.filterMap_append]
  rfl

/-- The commands set no deadline. -/
def RaceAction.Timeless : RaceAction → Prop
  | .issue _ _ cmd => cmd.setsDeadline = false
  | _ => True

/-- The clients with the calls that their commands have left. -/
def Race.progs (s : Race) (c : Nat) : Option CommandProg := (s.clients c).map Running.rest

/-- What a run keeps. -/
def Race.Tracked (w : Wiring) (store : Store) (s : Race) (acts : List RaceAction)
    (outs : List (Option (Nat × Bytes))) : Prop :=
  s.expiring = none ∧
    ∃ ops, Tracks Db.Timeless Db.store Prod.fst (storeSpec w) store s.db s.progs
      (raceHistory acts outs) ops

theorem progs_update (s : Race) (db : Db) (c : Nat) (r : Option Running) :
    ({ s with db := db, clients := Function.update s.clients c r } : Race).progs =
      Function.update s.progs c (r.map Running.rest) := by
  funext d
  unfold Race.progs
  by_cases hd : d = c
  · subst hd
    simp only [Function.update_self]
  · simp only [Function.update_of_ne hd]

theorem tracked_step {w : Wiring} {store : Store} {s s' : Race} {acts : List RaceAction}
    {outs : List (Option (Nat × Bytes))} {a : RaceAction} {o : Option (Nat × Bytes)}
    (hlen : outs.length = acts.length) (h : s.Tracked w store acts outs) (ha : a.Timeless)
    (hs : (raceMachine w).step s a = some (s', o)) :
    s'.Tracked w store (acts ++ [a]) (outs ++ [o]) := by
  obtain ⟨hexp, ops, ht⟩ := h
  have hstep := race_step hs
  unfold Race.Tracked
  rw [raceHistory_concat hlen]
  cases a with
  | issue c now cmd =>
    obtain ⟨hc, rfl, rfl⟩ := hstep
    refine ⟨hexp, ops, ?_⟩
    rw [progs_update]
    exact ht.call (by rw [Race.progs, hc]; rfl) (atomic_executeSteps w now ha)
  | call c =>
    obtain ⟨cmd, n, act, next, hc, rfl, rfl⟩ := hstep
    have hprog : s.progs c = some (.step act next) := by
      rw [Race.progs, hc]
      rfl
    obtain ⟨ops', ht'⟩ := ht.step hprog
    refine ⟨hexp, ops', ?_⟩
    rw [progs_update]
    simpa [raceHistory] using ht'
  | reply c =>
    obtain ⟨cmd, n, reply, call, hc, rfl, rfl⟩ := hstep
    obtain ⟨ops', ht'⟩ := ht.ret (c := c) (r := (reply, call)) (by rw [Race.progs, hc]; rfl)
    refine ⟨hexp, ops', ?_⟩
    rw [progs_update]
    exact ht'
  | pop now e =>
    -- The heap is empty.
    obtain ⟨-, ⟨hmem, -⟩, -⟩ := hstep
    rw [show s.db.expiry = .empty from ht.inv] at hmem
    cases hmem
  | expire =>
    obtain ⟨key, hkey, -⟩ := hstep
    rw [hexp] at hkey
    cases hkey

/-- **Linearizability.** With any number of clients whose commands set no deadline, on a store of
any capacity, every history has a linearization: the commands in a serial order that gives the
replies and the store of the run, and in which a command that was answered before another one was
issued comes first. -/
theorem commands_linearizable (w : Wiring) (store : Store) {acts : List RaceAction}
    (hacts : ∀ a ∈ acts, a.Timeless) {s : Race} {outs : List (Option (Nat × Bytes))}
    (hrun : (raceMachine w).run ⟨⟨store, .empty⟩, fun _ => none, none⟩ acts = some (s, outs)) :
    ∃ ops, Linearization (storeSpec w) store (raceHistory acts outs) ops s.db.store ∧
      RealTime (raceHistory acts outs) ops := by
  have htimeless : Db.Timeless ⟨store, .empty⟩ := rfl
  have htracked : s.Tracked w store acts outs := by
    refine Machine.run_history (C := fun _ a => a.Timeless) (I := Race.Tracked w store)
      (fun _ _ _ _ _ _ hbefore h ha hs => tracked_step (Machine.length_of_run hbefore) h ha hs)
      (Machine.along_of_forall hacts _) hrun ?_
    exact ⟨rfl, [], tracks_start htimeless⟩
  obtain ⟨-, ops, ht⟩ := htracked
  exact ⟨ops, ht.lin, ht.lin.realTime⟩

/-- Two clients on a store that holds one key: the `DEL` of `a` comes between the issue of the `SET`
of `b`, which evicts `a`, and its call. -/
def overlappingActions : List RaceAction :=
  let cmd (text : String) : Command := (parse (ascii text)).toOption.getD ⟨.PING, [], []⟩
  [.issue 0 .epoch (cmd "SET a 1"), .call 0, .call 0, .reply 0,
    .issue 0 .epoch (cmd "SET b 2"), .issue 1 .epoch (cmd "DEL a"), .call 1, .call 0, .call 1,
    .call 0, .reply 0, .reply 1]

theorem commands_linearizable_overlapping :
    ∃ s outs, (raceMachine ⟨true, true⟩).run ⟨Db.empty 1, fun _ => none, none⟩ overlappingActions =
        some (s, outs) ∧
      ∃ ops, Linearization (storeSpec ⟨true, true⟩) (.empty 1)
          (raceHistory overlappingActions outs) ops s.db.store ∧
        RealTime (raceHistory overlappingActions outs) ops := by
  refine ⟨_, _, rfl, commands_linearizable _ _ ?_ rfl⟩
  simp only [overlappingActions, List.forall_mem_cons]
  exact ⟨rfl, trivial, trivial, trivial, rfl, rfl, trivial, trivial, trivial, trivial, trivial,
    trivial, by simp⟩

end TinyKV
