import TinyKV.Crash
import TinyKV.Server

/-!
# Recovery of a serial server

A server with an unbounded store handles lines one after the other, saves snapshots and restarts.
Whatever was done, a recovery from its files gives its map.

* `handleLine_cases`: what one line does to the data and the files.
* `Disk.Complete`: the append-only file consists of complete lines, so an appended line is read
  back as a line (`recovered_recordWrite`).
* `Recoverable`: the invariant; `recoverable_step` keeps it.
* `serial_recovery`: recovery after any run.
-/

namespace TinyKV

open Cpp Recency Text SnapshotManager

/-! ## One line -/

/-- A command that calls `save` is `SAVE`: it changes no data and is not logged. -/
theorem execute_call_save {w : Wiring} {db : Db} {now : Now} {cmd : Command}
    (h : (execute w db now cmd).call = some .save) :
    (execute w db now cmd).db = db ∧ isWriteCommand cmd.type = false := by
  obtain ⟨type, name, args⟩ := cmd
  cases hwr : isWriteCommand type with
  | true => rw [execute_call_of_write hwr] at h; cases h
  | false =>
    refine ⟨?_, rfl⟩
    cases type with
    | SAVE =>
      simp only [execute]
      repeat' split
      all_goals rfl
    | PING | GET | TTL | REPLICAOF =>
      simp only [execute] at h
      repeat' split at h
      all_goals cases h
    | SYNC | ROUTE | NODES | UNKNOWN => cases h
    | SET | DEL | INCR | DECR | EXPIRE | PERSIST => cases hwr

/-- What a line does to the data and the files: nothing, or `save`, or a command and its record. -/
theorem handleLine_cases (s : Server) (fd : Nat) (now : Now) (line : Bytes) :
    (s.handleLine fd now line).1.appendOnly = s.appendOnly ∧
    (((s.handleLine fd now line).1.db = s.db ∧ (s.handleLine fd now line).1.disk = s.disk) ∨
     ((s.handleLine fd now line).1.db = s.db ∧
      (s.handleLine fd now line).1.disk = PersistenceManager.save s.disk s.db.store) ∨
     ∃ cmd, parse line = .ok cmd ∧
      (s.handleLine fd now line).1.db = (execute serverWiring s.db now cmd).db ∧
      (s.handleLine fd now line).1.disk =
        if logged cmd (execute serverWiring s.db now cmd).reply
        then PersistenceManager.recordWrite s.appendOnly s.disk line else s.disk) := by
  rcases s.handleLine_inv fd now line with ⟨-, hs | hs⟩ | ⟨cmd, hp, -, hs⟩
  · rw [hs]
    exact ⟨rfl, .inl ⟨rfl, rfl⟩⟩
  · rw [hs]
    exact ⟨rfl, .inl ⟨rfl, rfl⟩⟩
  rw [hs]
  simp only [Server.recordAndPropagateIfWrite_db, Server.executeCommand_db,
    Server.recordAndPropagateIfWrite_appendOnly, Server.executeCommand_appendOnly,
    Server.recordAndPropagateIfWrite_disk, Server.executeCommand_disk]
  refine ⟨trivial, .inr ?_⟩
  by_cases hcall : (execute serverWiring s.db now cmd).call = some .save
  · obtain ⟨hdb, hwr⟩ := execute_call_save hcall
    refine .inl ⟨hdb, ?_⟩
    simp [hcall, hdb, logged, hwr]
  · refine .inr ⟨cmd, hp, rfl, ?_⟩
    rw [if_neg hcall]

/-- The line succeeds as a write on a primary. -/
def Server.records (s : Server) (now : Now) (line : Bytes) : Bool :=
  match parse line with
  | .error _ => false
  | .ok cmd => logged cmd (execute serverWiring s.db now cmd).reply

/-- What every server keeps: its capacity, and that its keys and values are words. -/
structure Server.WordStore (capacity : Nat) (s : Server) : Prop where
  capacity : s.db.store.capacity = capacity
  words : WordEntries s.db.store.entries

theorem wordStore_start (appendOnly : Bool) (c : Nat) (clock : Nat → Now) (disk : Disk) :
    (Server.start appendOnly c clock disk).WordStore c := by
  have hdb : (Server.start appendOnly c clock disk).db = _ :=
    recover_eq appendOnly serverWiring clock disk (Db.empty c)
  refine ⟨?_, ?_⟩
  · rw [hdb, replayLines_capacity]
    rfl
  · rw [hdb]
    exact replayLines_words (wordEntries_empty c) _ _ _

theorem Server.WordStore.execute {s : Server} {c : Nat} (h : s.WordStore c) {line : Bytes}
    {cmd : Command} (hp : parse line = .ok cmd) (now : Now) {t : Server}
    (ht : t.db = (execute serverWiring s.db now cmd).db) : t.WordStore c := by
  refine ⟨?_, ?_⟩
  · rw [ht, execute_capacity, h.capacity]
  · rw [ht, execute_entries]
    exact onEntries_words (fun a ha => args_isWord hp ha) _ h.words

theorem Server.WordStore.handleLine {s : Server} {c : Nat} (h : s.WordStore c) (fd : Nat)
    (now : Now) (line : Bytes) : (s.handleLine fd now line).1.WordStore c := by
  obtain ⟨-, ⟨hdb, -⟩ | ⟨hdb, -⟩ | ⟨cmd, hp, hdb, -⟩⟩ := handleLine_cases s fd now line
  · exact ⟨by rw [hdb, h.capacity], by rw [hdb]; exact h.words⟩
  · exact ⟨by rw [hdb, h.capacity], by rw [hdb]; exact h.words⟩
  · exact h.execute hp now hdb

/-! ## Appending to the file -/

/-- The append-only file consists of complete lines. -/
def Disk.Complete (disk : Disk) : Prop :=
  ∃ ls : List Bytes, (∀ l ∈ ls, newline ∉ l) ∧ disk.aof = unlines newline ls

theorem complete_reset (disk : Disk) : (AofWriter.reset disk).Complete :=
  ⟨[], fun _ h => (by cases h), rfl⟩

theorem complete_append {disk : Disk} (h : disk.Complete) (line : Line) :
    (AofWriter.append disk line.1).Complete := by
  obtain ⟨ls, hls, he⟩ := h
  refine ⟨ls ++ [line.1], fun l hl => ?_, ?_⟩
  · rcases List.mem_append.mp hl with hl | hl
    · exact hls l hl
    · rw [List.mem_singleton.mp hl]; exact line.2
  · simp [AofWriter.append, he]

/-- A recorded line is the last line of the file. -/
theorem getlines_append {disk : Disk} (h : disk.Complete) (line : Line) :
    getlines newline (AofWriter.append disk line.1).aof =
      getlines newline disk.aof ++ [line.1] := by
  obtain ⟨ls, hls, he⟩ := h
  show getlines newline (disk.aof ++ line.1 ++ [newline]) = _
  rw [he, getlines_unlines hls, List.append_assoc, getlines_unlines_append hls,
    getlines_append_line line.2]
  rfl

theorem log_append {disk : Disk} (h : disk.Complete) (line : Line) :
    (AofWriter.append disk line.1).log true = disk.log true ++ lineEffects line.1 := by
  simp only [Disk.log, if_true, getlines_append h, List.flatMap_append, List.flatMap_singleton]

/-- A recorded line is replayed last. -/
theorem recovered_recordWrite {disk : Disk} (h : disk.Complete) (line : Line) :
    (AofWriter.append disk line.1).recovered true =
      applyAll (disk.recovered true) (lineEffects line.1) := by
  rw [recovered_eq, recovered_eq, log_append h]
  exact Keyed.run_append _ _ _ _

/-! ## The invariant -/

/-- What happens to a serial server. -/
inductive ServerAction where
  /-- A line of the client on connection `fd`. -/
  | line (fd : Nat) (now : Now) (line : Line)
  /-- The automatic snapshot. -/
  | save
  /-- A clean stop and a new start on the same files. -/
  | restart (clock : Nat → Now)

/-- The server as a machine. -/
def serverMachine : Machine Server ServerAction (Option Server.Response) where
  step s
    | .line fd now line => some ((s.handleLine fd now line.1).1, some (s.handleLine fd now line.1).2)
    | .save => some (s.save, none)
    | .restart clock =>
      some (Server.start s.appendOnly s.db.store.capacity clock s.disk, none)

/-- The files bring back the data. -/
structure Recoverable (s : Server) : Prop where
  unbounded : s.db.store.capacity = 0
  appendOnly : s.appendOnly = true
  words : WordEntries s.db.store.entries
  complete : s.disk.Complete
  recovered : s.disk.recovered true = s.db.store.lookup

theorem Recoverable.wordStore {s : Server} (h : Recoverable s) : s.WordStore 0 := ⟨h.unbounded, h.words⟩

theorem recoverable_start (clock : Nat → Now) {disk : Disk} (h : disk.Complete) :
    Recoverable (Server.start true 0 clock disk) where
  unbounded := (wordStore_start true 0 clock disk).capacity
  appendOnly := rfl
  words := (wordStore_start true 0 clock disk).words
  complete := h
  recovered := (recover_lookup true serverWiring clock disk).symm

theorem Recoverable.save {s : Server} (h : Recoverable s) (hfit : FitEntries s.db.store.entries) :
    (PersistenceManager.save s.disk s.db.store).recovered true = s.db.store.lookup :=
  (recovered_save_iff h.words true s.disk).mpr hfit

/-- A line of the client keeps the files true to the data. -/
theorem recoverable_handleLine {s : Server} (h : Recoverable s)
    (hfit : FitEntries s.db.store.entries) (fd : Nat) (now : Now) (line : Line) :
    Recoverable (s.handleLine fd now line.1).1 := by
  obtain ⟨happ, hcases⟩ := handleLine_cases s fd now line.1
  generalize (s.handleLine fd now line.1).1 = t at happ hcases ⊢
  obtain ⟨hdb, hdisk⟩ | ⟨hdb, hdisk⟩ | ⟨cmd, hp, hdb, hdisk⟩ := hcases
  · exact ⟨by rw [hdb, h.unbounded], by rw [happ, h.appendOnly], by rw [hdb]; exact h.words,
      by rw [hdisk]; exact h.complete, by rw [hdisk, hdb, h.recovered]⟩
  · refine ⟨by rw [hdb, h.unbounded], by rw [happ, h.appendOnly], by rw [hdb]; exact h.words,
      ?_, by rw [hdisk, hdb, h.save hfit]⟩
    rw [hdisk]
    exact complete_reset _
  · have hrec : PersistenceManager.recordWrite s.appendOnly s.disk line.1 =
        AofWriter.append s.disk line.1 := by rw [h.appendOnly]; rfl
    have hstore := h.wordStore.execute hp now hdb
    refine ⟨hstore.capacity, by rw [happ, h.appendOnly], hstore.words, ?_, ?_⟩
    · rw [hdisk, hrec]
      split
      · exact complete_append h.complete line
      · exact h.complete
    · rw [hdisk, hdb, hrec, execute_lookup h.unbounded]
      split
      · rw [recovered_recordWrite h.complete, h.recovered, lineEffects, hp]
        rfl
      · rename_i hlog
        rw [h.recovered, apply_of_not_logged (Bool.not_eq_true _ ▸ hlog)]

/-- The keys and values of a server are words after any run. -/
theorem wordStore_of_run {appendOnly : Bool} {c : Nat} {clock : Nat → Now} {disk : Disk}
    {acts : List ServerAction} {s : Server} {outs : List (Option Server.Response)}
    (hrun : serverMachine.run (Server.start appendOnly c clock disk) acts = some (s, outs)) :
    s.WordStore c := by
  refine Machine.run_invariant (C := fun _ _ => True) (I := Server.WordStore c)
    (fun s a t o h _ hs => ?_) (Machine.along_true _ _) hrun
    (wordStore_start appendOnly c clock disk)
  cases a with
  | line fd now line =>
    cases hs
    exact h.handleLine fd now line.1
  | save =>
    cases hs
    exact ⟨h.capacity, h.words⟩
  | restart clock =>
    cases hs
    rw [h.capacity]
    exact wordStore_start _ _ _ _

/-- A server that has handled one line. -/
def afterLine (text : String) : Server := (freshServer.handleLine 0 .epoch (Line.ofText text).1).1

/-- Every action keeps the files true to the data, if the pairs fit in lines. -/
theorem recoverable_step {s t : Server} {a : ServerAction} {o : Option Server.Response}
    (h : Recoverable s) (hfit : FitEntries s.db.store.entries)
    (hs : serverMachine.step s a = some (t, o)) : Recoverable t := by
  cases a with
  | line fd now line =>
    cases hs
    exact recoverable_handleLine h hfit fd now line
  | save =>
    cases hs
    exact ⟨h.unbounded, h.appendOnly, h.words, complete_reset _, h.save hfit⟩
  | restart clock =>
    cases hs
    rw [h.appendOnly, h.unbounded]
    exact recoverable_start clock h.complete

/-- The line is `REPLICAOF`. -/
def isReplicaOf (line : Bytes) : Bool :=
  match parse line with
  | .error _ => false
  | .ok cmd => cmd.type = .REPLICAOF

/-- The line is `SAVE` or `REPLICAOF`. -/
def isSaveOrReplicaOf (line : Bytes) : Bool :=
  match parse line with
  | .error _ => false
  | .ok cmd => cmd.type = .SAVE || cmd.type = .REPLICAOF

/-- What a serial run on a primary is: no line is `REPLICAOF`, every stored pair fits in a line. -/
def SerialPrimary (s : Server) (a : ServerAction) : Prop :=
  FitEntries s.db.store.entries ∧
    match a with
    | .line _ _ line => isReplicaOf line.1 = false
    | _ => True

instance (s : Server) : ∀ a, Decidable (SerialPrimary s a)
  | .line _ _ line => inferInstanceAs (Decidable (_ ∧ isReplicaOf line.1 = false))
  | .save | .restart _ => inferInstanceAs (Decidable (_ ∧ True))

/-- **Serial recovery.** After any lines, snapshots and restarts, recovery on a fresh store gives
the live map. -/
theorem serial_recovery (clock₀ clock : Nat → Now) (acts : List ServerAction) (s : Server)
    (outs : List (Option Server.Response))
    (hacts : serverMachine.Along SerialPrimary (Server.start true 0 clock₀ .empty) acts)
    (hrun : serverMachine.run (Server.start true 0 clock₀ .empty) acts = some (s, outs)) :
    (PersistenceManager.recover true serverWiring clock s.disk (Db.empty 0)).store.lookup =
      s.db.store.lookup := by
  have hs : Recoverable s :=
    Machine.run_invariant (fun s a t o h hc hs => recoverable_step h hc.1 hs) hacts hrun
      (recoverable_start clock₀ ⟨[], fun _ h => (by cases h), rfl⟩)
  rw [recover_lookup, hs.recovered]

/-- A counter, a snapshot, a restart and the counter again. -/
def countSaveRestart : List ServerAction :=
  [.line 0 .epoch (.ofText "INCR k"), .save, .restart fun _ => .epoch,
    .line 0 .epoch (.ofText " incr  k")]

theorem serial_recovery_countSaveRestart :
    ∃ s outs, serverMachine.run (Server.start true 0 (fun _ => .epoch) .empty)
        countSaveRestart = some (s, outs) ∧
      s.db.store.lookup (ascii "k") = some (ascii "2") ∧
      (PersistenceManager.recover true serverWiring (fun _ => .epoch) s.disk
        (Db.empty 0)).store.lookup = s.db.store.lookup := by
  refine ⟨_, _, rfl, by decide +kernel, ?_⟩
  exact serial_recovery (fun _ => .epoch) _ countSaveRestart _ _ (by decide +kernel) rfl

end TinyKV
