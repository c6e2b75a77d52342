import TinyKV.Recovery
import TinyKV.Reference

/-!
# Recovery after expirations

The sweeper deletes a key from the store and writes nothing to the append-only file. So the replay
of the file runs the same commands on a store that still has the expired keys. For most commands
this does not matter, but `INCR` and `DECR` start again from 0 on the live store and go on from the
old value in the replay.

* `expiryMachine`: a serial server and its sweeper.
* `CountsAfresh`: a counter command on a key that is gone finds nothing, or a 0, in the replay.
* `Covered`: the replay has every live pair; `covered_step`.
* `recovery_after_expiry`: recovery after any run of such steps.
-/

namespace TinyKV

open Cpp Recency Text SnapshotManager
open KVStore (counter)

/-! ## The machine -/

/-- A step of a server with expirations. -/
inductive ExpiryAction where
  | line (fd : Nat) (now : Now) (line : Line)
  /-- The sweeper pops a heap entry. -/
  | sweep (now : Now) (e : HeapEntry)

/-- A serial server with its sweeper, on lines other than `SAVE` and `REPLICAOF`. -/
def expiryMachine : Machine Server ExpiryAction (Option Server.Response) where
  step s
    | .line fd now line =>
      if isSaveOrReplicaOf line.1 then none
      else some ((s.handleLine fd now line.1).1, some (s.handleLine fd now line.1).2)
    | .sweep now e => (s.db.sweep now e).map fun db => ({ s with db := db }, none)

/-- A counter command on a key that the store does not have finds no value, or one that reads as 0,
in what the files say. -/
def CountsAfresh (s : Server) : ExpiryAction → Prop
  | .line _ _ line => ∀ u ∈ lineEffects line.1, u.2.isBump = true →
      s.db.store.lookup u.1 = none → counter (s.disk.recovered true u.1) = some 0
  | .sweep _ _ => True

instance (s : Server) : ∀ a, Decidable (CountsAfresh s a)
  | .line _ _ line => inferInstanceAs (Decidable (∀ u ∈ lineEffects line.1, _))
  | .sweep _ _ => isTrue trivial

/-! ## The invariant -/

/-- The files bring back every live pair. -/
structure Covered (s : Server) : Prop where
  unbounded : s.db.store.capacity = 0
  appendOnly : s.appendOnly = true
  complete : s.disk.Complete
  covered : ∀ x v, s.db.store.lookup x = some v → s.disk.recovered true x = some v

/-- An operation on a live value and on the value in the replay. -/
theorem app_covered {op : KeyOp} {live log : Option Bytes} (h : ∀ v, live = some v → log = some v)
    (hbump : op.isBump = true → live = none → counter log = some 0) (v : Bytes)
    (hv : op.app live = some v) : op.app log = some v := by
  cases hlive : live with
  | some x =>
    rw [h x hlive, ← hlive]
    exact hv
  | none =>
    rw [hlive] at hv
    cases op with
    | assign w => exact hv
    | bump d =>
      rw [← hv]
      simp only [KeyOp.app, hbump rfl hlive]
      rfl

/-- A command on the live store, and its record in the file. -/
theorem covered_execute {s t : Server} (h : Covered s) {line : Line} {cmd : Command}
    (hp : parse line.1 = .ok cmd) {now : Now}
    (hfresh : ∀ u ∈ lineEffects line.1, u.2.isBump = true → s.db.store.lookup u.1 = none →
      counter (s.disk.recovered true u.1) = some 0)
    (hdb : t.db = (execute serverWiring s.db now cmd).db) (happ : t.appendOnly = s.appendOnly)
    (hdisk : t.disk = if logged cmd (execute serverWiring s.db now cmd).reply
      then PersistenceManager.recordWrite s.appendOnly s.disk line.1 else s.disk) :
    Covered t := by
  have hlive : t.db.store.lookup = cmd.apply s.db.store.lookup := by
    rw [hdb, execute_lookup h.unbounded]
  have hcap : t.db.store.capacity = 0 := by rw [hdb, execute_capacity, h.unbounded]
  by_cases hlog : logged cmd (execute serverWiring s.db now cmd).reply = true
  · rw [if_pos hlog, h.appendOnly] at hdisk
    change t.disk = AofWriter.append s.disk line.1 at hdisk
    refine ⟨hcap, happ.trans h.appendOnly, ?_, fun x v hx => ?_⟩
    · rw [hdisk]
      exact complete_append h.complete line
    · rw [hdisk, recovered_recordWrite h.complete]
      rw [hlive, Command.apply] at hx
      have heff := lineEffects_of_parse hp
      rw [heff] at hfresh ⊢
      cases he : cmd.effect with
      | none =>
        rw [he] at hx
        exact h.covered x v hx
      | some u =>
        obtain ⟨key, op⟩ := u
        rw [he] at hx hfresh
        change Function.update s.db.store.lookup key (op.app (s.db.store.lookup key)) x =
          some v at hx
        show Function.update (s.disk.recovered true) key (op.app (s.disk.recovered true key)) x =
          some v
        by_cases hk : x = key
        · subst hk
          rw [Function.update_self] at hx ⊢
          exact app_covered (h.covered x) (hfresh _ (List.mem_singleton.mpr rfl)) v hx
        · rw [Function.update_of_ne hk] at hx ⊢
          exact h.covered x v hx
  · rw [if_neg hlog] at hdisk
    have hsame : cmd.apply s.db.store.lookup = s.db.store.lookup :=
      apply_of_not_logged (Bool.not_eq_true _ ▸ hlog)
    refine ⟨hcap, happ.trans h.appendOnly, hdisk ▸ h.complete, fun x v hx => ?_⟩
    rw [hdisk]
    rw [hlive, hsame] at hx
    exact h.covered x v hx

theorem covered_handleLine {s : Server} (h : Covered s) {line : Line}
    (hsave : isSaveOrReplicaOf line.1 = false) (fd : Nat) (now : Now)
    (hfresh : CountsAfresh s (.line fd now line)) : Covered (s.handleLine fd now line.1).1 := by
  obtain ⟨-, hs | hs⟩ | ⟨cmd, hp, -, hs⟩ := s.handleLine_inv fd now line.1
  · rw [hs]
    exact h
  · rw [hs]
    exact ⟨h.unbounded, h.appendOnly, h.complete, h.covered⟩
  · have hcall : (execute serverWiring s.db now cmd).call = none := by
      simp only [isSaveOrReplicaOf, hp, Bool.or_eq_false_iff, decide_eq_false_iff_not] at hsave
      exact execute_call_eq_none hsave.1 hsave.2
    have hdb : (s.handleLine fd now line.1).1.db = (execute serverWiring s.db now cmd).db := by
      rw [hs]
      simp
    refine covered_execute h hp hfresh hdb (by rw [hs]; simp) ?_
    rw [hs]
    dsimp only
    rw [Server.recordAndPropagateIfWrite_disk, s.executeCommand_of_no_call hcall]

theorem covered_sweep {s : Server} (h : Covered s) {now : Now} {e : HeapEntry} {db : Db}
    (hs : s.db.sweep now e = some db) : Covered { s with db := db } := by
  obtain ⟨-, -, -, hstore⟩ := sweep_spec hs
  have hcap : db.store.capacity = s.db.store.capacity := by
    rw [hstore]
    split <;> simp
  refine ⟨hcap.trans h.unbounded, h.appendOnly, h.complete, fun x v hx => h.covered x v ?_⟩
  change db.store.lookup x = some v at hx
  rw [hstore] at hx
  split at hx
  · rw [Store.lookup_del] at hx
    by_cases hk : x = e.key
    · subst hk
      simp at hx
    · simpa [hk] using hx
  · exact hx

theorem covered_step {s t : Server} {a : ExpiryAction} {o : Option Server.Response} (h : Covered s)
    (hfresh : CountsAfresh s a) (hs : expiryMachine.step s a = some (t, o)) : Covered t := by
  cases a with
  | line fd now line =>
    simp only [expiryMachine] at hs
    split at hs
    · cases hs
    · rename_i hsave
      cases hs
      exact covered_handleLine h (Bool.not_eq_true _ ▸ hsave) fd now hfresh
  | sweep now e =>
    obtain ⟨db, hdb, he⟩ := Option.map_eq_some_iff.mp hs
    cases he
    exact covered_sweep h hdb

/-! ## Whole runs -/

/-- **Recovery after expirations.** A server starts on files with complete lines, and handles lines
while its sweeper runs. If every counter command on a key that is gone counts afresh in the replay
too, recovery brings back every live pair. -/
theorem recovery_after_expiry (clock₀ clock : Nat → Now) {disk : Disk} (hdisk : disk.Complete)
    (acts : List ExpiryAction) {s : Server} {outs : List (Option Server.Response)}
    (hfresh : expiryMachine.Along CountsAfresh (Server.start true 0 clock₀ disk) acts)
    (hrun : expiryMachine.run (Server.start true 0 clock₀ disk) acts = some (s, outs))
    {x v : Bytes} (hx : s.db.store.lookup x = some v) :
    (PersistenceManager.recover true serverWiring clock s.disk (Db.empty 0)).store.lookup x =
      some v := by
  have hstart := recoverable_start clock₀ hdisk
  have hs : Covered s :=
    Machine.run_invariant (fun s a t o h hc hs => covered_step h hc hs) hfresh hrun
      ⟨hstart.unbounded, hstart.appendOnly, hstart.complete, fun x v hx => hstart.recovered ▸ hx⟩
  rw [recover_lookup]
  exact hs.covered x v hx

/-- A key expires, and is used again. -/
def expireThen (line : Line) : List ExpiryAction :=
  [.line 0 .epoch (.ofText "SET k 5 EX 1"), .sweep .tenSeconds ⟨10 ^ 9, ascii "k"⟩,
    .line 0 .epoch line]

theorem recovery_after_expiry_setAgain :
    ∃ s outs, expiryMachine.run (Server.start true 0 (fun _ => .epoch) .empty)
        (expireThen (.ofText "SET k 1")) = some (s, outs) ∧
      s.db.store.lookup (ascii "k") = some (ascii "1") ∧
      (PersistenceManager.recover true serverWiring (fun _ => .epoch) s.disk
        (Db.empty 0)).store.lookup (ascii "k") = some (ascii "1") := by
  refine ⟨_, _, rfl, by decide +kernel, ?_⟩
  exact recovery_after_expiry (fun _ => .epoch) _ (complete_reset .empty)
    (expireThen (.ofText "SET k 1")) (by decide +kernel) rfl (by decide +kernel)

/-- The live counter starts again from 0, the replayed one goes on from 5. -/
theorem not_recovery_after_expiry_incrAgain :
    ¬ ∀ (clock₀ clock : Nat → Now) (acts : List ExpiryAction) (s : Server)
      (outs : List (Option Server.Response)) (x v : Bytes),
      expiryMachine.run (Server.start true 0 clock₀ .empty) acts = some (s, outs) →
      s.db.store.lookup x = some v →
      (PersistenceManager.recover true serverWiring clock s.disk (Db.empty 0)).store.lookup x =
        some v := by
  intro h
  have hback := h (fun _ => .epoch) (fun _ => .epoch) (expireThen (.ofText "INCR k")) _ _
    (ascii "k") (ascii "1") rfl (by decide +kernel)
  revert hback
  decide +kernel

end TinyKV
