import TinyKV.Recovery
import TinyKV.Promotion

/-!
# Crashes between two flushes

`AofWriter` in `src/persistence/aof.cpp` appends through the buffer of an `std::ofstream`. The
buffer goes to the file when it is full, at any byte, and once a second when
`PersistenceManager::timerLoop` has it flushed. A process that is killed loses what is in the
buffer, and the next process appends to what is in the file.

* `bufferedMachine`: a serial primary with its buffer. Lines, automatic snapshots, flushes, bytes
  that leave the buffer, and crashes with a new start, in any order. A crash may be one inside
  `save()`: `left_of_effects` is about the effects of `save` that it leaves.
* `handleLine_disk`: what one line does to the files.
* `crash_keeps_flushed`: if every crash so far has cut the file at the end of a line, a crash now,
  outside of `save()`, gives a map that the server had since its last flush, save or start, with at
  most the effect of one torn line.
* `log_true_iff`: with crashes at any byte, the log gives the live map all along exactly if no line
  is glued to a torn one with another effect, and no snapshot has a pair that is too long.

A line is executed and logged in one step, and nothing is executed beside `save()`
(`ConcurrentSave.lean` and `LogOrder.lean` are about that); `Crash.lean` says what a crash inside
`save()` loses. The store is unbounded. `REPLICAOF` is left out, so that the server is a primary,
and so is the sweeper: what it deletes is not logged (`ExpiryRecovery.lean`).
-/

namespace TinyKV

open Cpp Recency Text SnapshotManager

/-! ## The server and its buffer -/

/-- A server with its stream: `server.disk.aof` is all that was appended. -/
structure BufferedServer where
  server : Server
  /-- How many of these bytes are in the file; the others are in the buffer. -/
  reached : Nat

namespace BufferedServer

/-- An unbounded server that finds no files. -/
def start (clock : Nat → Now) : BufferedServer := ⟨Server.start true 0 clock .empty, 0⟩

variable (s : BufferedServer)

/-- The files without the buffer. -/
def onDisk : Disk := { s.server.disk with aof := s.server.disk.aof.take s.reached }

/-- The server has done a step. `reset` leaves nothing in the buffer. -/
def goto (server : Server) : BufferedServer := ⟨server, min s.reached server.disk.aof.length⟩

/-- `AofWriter::flush` -/
def flush : BufferedServer := { s with reached := s.server.disk.aof.length }

/-- Some bytes leave the buffer. -/
def spill (n : Nat) : BufferedServer :=
  { s with reached := min (s.reached + n) s.server.disk.aof.length }

/-- The files that a killed process leaves. If it is in `save()`, some bytes of the new snapshot are
in its file, and the log is what it was. -/
def left : Option Nat → Disk
  | none => s.onDisk
  | some n =>
    { s.onDisk with
      snapshot := some ((unlines newline (dumpLines s.server.db.store.forEach)).take n) }

/-- The process is killed, and a new one starts on the files. -/
def crash (saved : Option Nat) (clock : Nat → Now) : BufferedServer :=
  ⟨Server.start s.server.appendOnly s.server.db.store.capacity clock (s.left saved),
    (s.left saved).aof.length⟩

end BufferedServer

inductive BufferedAction where
  /-- A line of the client on connection `fd`. -/
  | line (fd : Nat) (now : Now) (line : Line)
  /-- The automatic snapshot. -/
  | save
  | flush
  | spill (n : Nat)
  /-- Inside `save()`, with this many bytes of the snapshot written, or outside. -/
  | crash (saved : Option Nat) (clock : Nat → Now)

def bufferedMachine : Machine BufferedServer BufferedAction (Option Server.Response) where
  step s
    | .line fd now line =>
      if isReplicaOf line.1 then none
      else some (s.goto (s.server.handleLine fd now line.1).1,
        some (s.server.handleLine fd now line.1).2)
    | .save => some (s.goto s.server.save, none)
    | .flush => some (s.flush, none)
    | .spill n => some (s.spill n, none)
    | .crash saved clock => some (s.crash saved clock, none)

/-- A crash inside `save()` after some of its effects and before the last one. -/
theorem left_of_effects (s : BufferedServer) {j : Nat}
    (hj : j ≤ s.server.db.store.entries.length) :
    ∃ n, s.onDisk.after ((saveEffects s.server.db.store).take (j + 1)) = s.left (some n) := by
  refine ⟨(unlines newline (dumpLines (s.server.db.store.entries.take j))).length, ?_⟩
  have hdump : dumpLines s.server.db.store.forEach =
      dumpLines (s.server.db.store.entries.take j) ++
        dumpLines (s.server.db.store.entries.drop j) := by
    rw [dumpLines, dumpLines, dumpLines, ← List.map_append, List.take_append_drop]
    rfl
  rw [after_take_succ _ _ hj, BufferedServer.left, hdump, unlines_append, List.take_left]

/-! ## What a line does to the files -/

/-- The line is a `SAVE` that is executed. -/
def isSave (line : Bytes) : Bool :=
  match parse line with
  | .ok ⟨.SAVE, _, []⟩ => true
  | _ => false

theorem execute_call_save_iff {db : Db} {now : Now} {line : Bytes} {cmd : Command}
    (hp : parse line = .ok cmd) :
    (execute serverWiring db now cmd).call = some .save ↔ isSave line = true := by
  obtain ⟨type, name, args⟩ := cmd
  unfold isSave
  rw [hp]
  cases type with
  | SAVE =>
    cases args with
    | nil => exact iff_of_true rfl rfl
    | cons => exact iff_of_false (by rintro ⟨⟩) (by rintro ⟨⟩)
  | REPLICAOF =>
    refine iff_of_false (fun hcall => ?_) (by rintro ⟨⟩)
    simp only [execute] at hcall
    repeat' split at hcall
    all_goals cases hcall
  | SET | GET | DEL | PING | INCR | DECR | TTL | EXPIRE | PERSIST | SYNC | ROUTE | NODES
  | UNKNOWN =>
    refine iff_of_false (fun hcall => ?_) (by rintro ⟨⟩)
    rw [execute_call_eq_none (by rintro ⟨⟩) (by rintro ⟨⟩)] at hcall
    cases hcall

/-- A line of a client of a primary is not executed, or it is executed, recorded and propagated. -/
theorem handleLine_or_not {s : Server} (hrole : s.role = .PRIMARY) (fd : Nat) (now : Now)
    (line : Bytes) :
    ((s.handleLine fd now line).1.db = s.db ∧ (s.handleLine fd now line).1.disk = s.disk ∧
      isSave line = false ∧ s.records now line = false) ∨
    ∃ cmd, parse line = .ok cmd ∧ (s.handleLine fd now line).1 =
      (s.executeCommand now cmd).1.recordAndPropagateIfWrite cmd line
        (execute serverWiring s.db now cmd).reply := by
  rcases s.handleLine_inv fd now line with ⟨hnot, hs⟩ | ⟨cmd, hp, -, hs⟩
  · have hsave : isSave line = false := by
      unfold isSave
      split
      · rename_i hp
        rcases hnot _ hp with ht | ⟨ht, -⟩ <;> cases ht
      · rfl
    have hrecords : s.records now line = false := by
      unfold Server.records
      split
      · rfl
      · rename_i cmd hp
        rcases hnot cmd hp with ht | ⟨-, hreplica⟩
        · simp [logged, ht, isWriteCommand]
        · rw [hrole] at hreplica
          cases hreplica
    rcases hs with hs | hs <;> rw [hs] <;> exact .inl ⟨rfl, rfl, hsave, hrecords⟩
  · exact .inr ⟨cmd, hp, by rw [hs]⟩

theorem records_of_parse {s : Server} {now : Now} {line : Bytes} {cmd : Command}
    (hp : parse line = .ok cmd) :
    s.records now line = logged cmd (execute serverWiring s.db now cmd).reply := by
  rw [Server.records, hp]

/-- What a line of a client does to the files of a primary. -/
theorem handleLine_disk {s : Server} (hrole : s.role = .PRIMARY) (happ : s.appendOnly = true)
    (fd : Nat) (now : Now) (line : Bytes) :
    (s.handleLine fd now line).1.disk =
      if isSave line then PersistenceManager.save s.disk s.db.store
      else if s.records now line then AofWriter.append s.disk line else s.disk := by
  obtain ⟨-, hdisk, hsave, hrecords⟩ | ⟨cmd, hp, hs⟩ := handleLine_or_not hrole fd now line
  · rw [hdisk, hsave, hrecords]
    rfl
  · rw [hs, Server.recordAndPropagateIfWrite_disk, Server.executeCommand_appendOnly, happ,
      Server.executeCommand_disk, records_of_parse hp]
    by_cases hcall : (execute serverWiring s.db now cmd).call = some .save
    · obtain ⟨hdb, hwrite⟩ := execute_call_save hcall
      rw [if_pos ((execute_call_save_iff hp).mp hcall), if_pos hcall, hdb]
      simp [logged, hwrite]
    · have hsave : isSave line = false :=
        Bool.not_eq_true _ ▸ mt (execute_call_save_iff hp).mpr hcall
      rw [if_neg hcall, hsave]
      rfl

/-- What it does to the data: the effect of the line, if it is recorded. -/
theorem handleLine_lookup {s : Server} (hrole : s.role = .PRIMARY)
    (hc : s.db.store.capacity = 0) (fd : Nat) (now : Now) (line : Bytes) :
    (s.handleLine fd now line).1.db.store.lookup =
      if s.records now line then applyAll s.db.store.lookup (lineEffects line)
      else s.db.store.lookup := by
  obtain ⟨hdb, -, -, hrecords⟩ | ⟨cmd, hp, hs⟩ := handleLine_or_not hrole fd now line
  · rw [hdb, hrecords]
    rfl
  · rw [hs, Server.recordAndPropagateIfWrite_db, Server.executeCommand_db, execute_lookup hc,
      records_of_parse hp, lineEffects_of_parse hp]
    split
    · rfl
    · rename_i hlog
      exact apply_of_not_logged (Bool.not_eq_true _ ▸ hlog)

/-! ## A file that ends within a line -/

/-- The files up to the last line end. -/
def Disk.wholeLines (disk : Disk) : Disk := { disk with aof := finished newline disk.aof }

/-- What is after the last line end. -/
def Disk.torn (disk : Disk) : Bytes := unfinished newline disk.aof

theorem notMem_torn (disk : Disk) : newline ∉ disk.torn := notMem_unfinished _ _

theorem flatMap_getlines {part : Bytes} (h : newline ∉ part) :
    (getlines newline part).flatMap lineEffects = lineEffects part := by
  by_cases hne : part = []
  · subst hne
    rfl
  · rw [getlines_of_notMem h hne, List.flatMap_singleton]

/-- The log of a file that goes on after its last line end. -/
theorem recovered_torn_append (disk : Disk) (rest : Bytes) :
    ({ disk with aof := disk.aof ++ rest } : Disk).recovered true =
      applyAll (disk.wholeLines.recovered true)
        ((getlines newline (disk.torn ++ rest)).flatMap lineEffects) := by
  rw [recovered_eq, recovered_eq]
  show applyAll disk.snapshotMap ((getlines newline (disk.aof ++ rest)).flatMap lineEffects) =
    applyAll (applyAll disk.snapshotMap
      ((getlines newline (finished newline disk.aof)).flatMap lineEffects)) _
  rw [getlines_finished_append, List.flatMap_append]
  exact Keyed.run_append _ _ _ _

/-- A torn line is replayed like any other. -/
theorem recovered_torn (disk : Disk) :
    disk.recovered true = applyAll (disk.wholeLines.recovered true) (lineEffects disk.torn) := by
  have h := recovered_torn_append disk []
  rw [List.append_nil, List.append_nil, flatMap_getlines (notMem_torn disk)] at h
  exact h

/-- The next line is glued to a torn one. -/
theorem recovered_glued (disk : Disk) (line : Line) :
    (AofWriter.append disk line.1).recovered true =
      applyAll (disk.wholeLines.recovered true) (lineEffects (disk.torn ++ line.1)) := by
  have hline : newline ∉ disk.torn ++ line.1 := by
    rw [List.mem_append, not_or]
    exact ⟨notMem_torn disk, line.2⟩
  have h := recovered_torn_append disk (line.1 ++ [newline])
  rw [← List.append_assoc, ← List.append_assoc, getlines_append_line hline, getlines_nil,
    List.flatMap_singleton] at h
  exact h

/-- The glued line has the effects of the two. -/
def GlueSafe (disk : Disk) (line : Bytes) : Prop :=
  applyAll (disk.wholeLines.recovered true) (lineEffects (disk.torn ++ line)) =
    applyAll (disk.wholeLines.recovered true) (lineEffects disk.torn ++ lineEffects line)

theorem recovered_append_iff (disk : Disk) (line : Line) :
    (AofWriter.append disk line.1).recovered true =
        applyAll (disk.recovered true) (lineEffects line.1) ↔ GlueSafe disk line.1 := by
  have happend : applyAll (disk.wholeLines.recovered true)
        (lineEffects disk.torn ++ lineEffects line.1) =
      applyAll (disk.recovered true) (lineEffects line.1) := by
    rw [recovered_torn disk]
    exact Keyed.run_append _ _ _ _
  rw [GlueSafe, recovered_glued, happend]

theorem glueSafe_of_not_torn {disk : Disk} (h : disk.torn = []) (line : Bytes) :
    GlueSafe disk line := by
  rw [GlueSafe, h]
  rfl

/-! ## The log and the data -/

/-- What the files say, with the buffer, is what the store has. -/
structure Faithful (s : Server) : Prop where
  unbounded : s.db.store.capacity = 0
  appendOnly : s.appendOnly = true
  role : s.role = .PRIMARY
  words : WordEntries s.db.store.entries
  recovered : s.disk.recovered true = s.db.store.lookup

theorem faithful_start (clock : Nat → Now) (disk : Disk) :
    Faithful (Server.start true 0 clock disk) where
  unbounded := (wordStore_start true 0 clock disk).capacity
  appendOnly := rfl
  role := rfl
  words := (wordStore_start true 0 clock disk).words
  recovered := (recover_lookup true serverWiring clock disk).symm

/-- A step that keeps the log true: it does not glue a line to a torn one with another effect, and a
snapshot that it takes has no pair that is too long for a line. -/
def LogSafe (s : BufferedServer) : BufferedAction → Prop
  | .line _ now line =>
    (isSave line.1 = true → FitEntries s.server.db.store.entries) ∧
      (s.server.records now line.1 = true → GlueSafe s.server.disk line.1)
  | .save => FitEntries s.server.db.store.entries
  | .flush | .spill _ | .crash _ _ => True

theorem isReplicaOf_eq_false {line : Bytes} (h : isReplicaOf line = false) {cmd : Command}
    (hp : parse line = .ok cmd) : cmd.type ≠ .REPLICAOF := by
  rw [isReplicaOf, hp] at h
  exact of_decide_eq_false h

/-- A `REPLICAOF` does not go to the files. -/
theorem isReplicaOf_eq_true (s : Server) (now : Now) {line : Bytes} (h : isReplicaOf line = true) :
    isSave line = false ∧ s.records now line = false := by
  unfold isReplicaOf at h
  split at h
  · cases h
  · rename_i cmd hp
    obtain ⟨type, name, args⟩ := cmd
    obtain rfl : type = .REPLICAOF := of_decide_eq_true h
    refine ⟨by rw [isSave, hp], ?_⟩
    rw [records_of_parse hp]
    simp [logged, isWriteCommand]

/-- A `SAVE` is not recorded. -/
theorem records_of_isSave {s : Server} {now : Now} {line : Bytes} (h : isSave line = true) :
    s.records now line = false := by
  unfold isSave at h
  split at h
  · rename_i hp
    rw [records_of_parse hp]
    simp [logged, isWriteCommand]
  · cases h

/-- A line keeps a primary what it is. -/
theorem Faithful.frame_line {s : Server} (h : Faithful s) {line : Bytes}
    (hno : isReplicaOf line = false) (fd : Nat) (now : Now)
    (hrecovered : (s.handleLine fd now line).1.disk.recovered true =
      (s.handleLine fd now line).1.db.store.lookup) :
    Faithful (s.handleLine fd now line).1 := by
  have hstore : s.WordStore 0 := ⟨h.unbounded, h.words⟩
  have hstore' := hstore.handleLine fd now line
  exact ⟨hstore'.capacity, (handleLine_cases s fd now line).1.trans h.appendOnly,
    (handleLine_role (fun _ hp => isReplicaOf_eq_false hno hp) fd now).trans h.role,
    hstore'.words, hrecovered⟩

/-- When a line keeps the log true. -/
theorem Faithful.line_iff {s : Server} (h : Faithful s) (fd : Nat) (now : Now) (line : Line) :
    (s.handleLine fd now line.1).1.disk.recovered true =
        (s.handleLine fd now line.1).1.db.store.lookup ↔
      (isSave line.1 = true → FitEntries s.db.store.entries) ∧
        (s.records now line.1 = true → GlueSafe s.disk line.1) := by
  rw [handleLine_disk h.role h.appendOnly, handleLine_lookup h.role h.unbounded]
  cases hsave : isSave line.1 with
  | true =>
    rw [records_of_isSave hsave, if_pos rfl, if_neg Bool.false_ne_true,
      recovered_save_iff h.words]
    simp
  | false =>
    cases hrecords : s.records now line.1 with
    | true =>
      rw [if_neg Bool.false_ne_true, if_pos rfl, if_pos rfl, ← h.recovered, recovered_append_iff]
      simp
    | false => simp [h.recovered]

theorem faithful_step {s t : BufferedServer} {a : BufferedAction} {o : Option Server.Response}
    (h : Faithful s.server) (hsafe : LogSafe s a) (hs : bufferedMachine.step s a = some (t, o)) :
    Faithful t.server := by
  cases a with
  | line fd now line =>
    simp only [bufferedMachine] at hs
    split at hs
    · cases hs
    · rename_i hno
      cases hs
      exact h.frame_line (Bool.not_eq_true _ ▸ hno) fd now ((h.line_iff fd now line).mpr hsafe)
  | save =>
    cases hs
    exact ⟨h.unbounded, h.appendOnly, h.role, h.words,
      (recovered_save_iff h.words true _).mpr hsafe⟩
  | flush | spill n =>
    cases hs
    exact h
  | crash saved clock =>
    cases hs
    show Faithful (Server.start s.server.appendOnly s.server.db.store.capacity clock _)
    rw [h.appendOnly, h.unbounded]
    exact faithful_start clock _

/-- An unsafe step makes the log false. -/
theorem not_recovered_step {s t : BufferedServer} {a : BufferedAction}
    {o : Option Server.Response} (h : Faithful s.server) (hbad : ¬ LogSafe s a)
    (hs : bufferedMachine.step s a = some (t, o)) :
    t.server.disk.recovered true ≠ t.server.db.store.lookup := by
  cases a with
  | line fd now line =>
    simp only [bufferedMachine] at hs
    split at hs
    · cases hs
    · cases hs
      exact mt (h.line_iff fd now line).mp hbad
  | save =>
    cases hs
    exact mt (recovered_save_iff h.words true _).mp hbad
  | flush | spill | crash => exact absurd trivial hbad

/-- **When the log is true.** With crashes at any byte, the files together with the buffer give the
live map all along a run exactly if no line is glued to a torn one with another effect and every
snapshot has pairs that fit in lines. -/
theorem log_true_iff (clock : Nat → Now) (acts : List BufferedAction) :
    (∀ pre s outs, pre <+: acts →
        bufferedMachine.run (.start clock) pre = some (s, outs) →
        s.server.disk.recovered true = s.server.db.store.lookup) ↔
      bufferedMachine.Along LogSafe (.start clock) acts := by
  have hstart : Faithful (BufferedServer.start clock).server := faithful_start clock .empty
  refine Machine.forall_prefix_iff_along (I := fun s => Faithful s.server)
    (fun _ h => h.recovered) (fun _ _ _ _ h hsafe hs => faithful_step h hsafe hs)
    (fun _ _ _ _ h hbad hs => not_recovered_step h hbad hs) ?_ hstart acts
  intro s a hnone
  cases a with
  | line fd now line =>
    simp only [bufferedMachine] at hnone
    split at hnone
    · rename_i hrep
      obtain ⟨hsave, hrecords⟩ := isReplicaOf_eq_true s.server now hrep
      refine ⟨fun h => ?_, fun h => ?_⟩
      · rw [hsave] at h
        cases h
      · rw [hrecords] at h
        cases h
    · cases hnone
  | save | flush | spill | crash => cases hnone

/-! ## What a crash leaves -/

/-- After the action nothing is in the buffer. -/
def BufferedAction.forces : BufferedAction → Bool
  | .line _ _ request => isSave request.1
  | .spill _ => false
  | .save | .flush | .crash _ _ => true

/-- A step that leaves whole lines: a crash cuts the file at the end of a line, and a snapshot has
no pair that is too long. -/
def CutSafe (s : BufferedServer) : BufferedAction → Prop
  | .line _ _ line => isSave line.1 = true → FitEntries s.server.db.store.entries
  | .save => FitEntries s.server.db.store.entries
  | .crash _ _ => s.onDisk.torn = []
  | .flush | .spill _ => True

instance (s : BufferedServer) : ∀ a, Decidable (CutSafe s a)
  | .line _ _ line => inferInstanceAs (Decidable (isSave line.1 = true → FitEntries _))
  | .save => inferInstanceAs (Decidable (FitEntries _))
  | .crash _ _ => inferInstanceAs (Decidable (_ = []))
  | .flush | .spill _ => isTrue trivial

/-- A server all of whose crashes were at the end of a line. -/
structure Whole (s : BufferedServer) : Prop where
  faithful : Faithful s.server
  torn : s.server.disk.torn = []
  reached : s.reached ≤ s.server.disk.aof.length

theorem torn_append (disk : Disk) (line : Bytes) : (AofWriter.append disk line).torn = [] :=
  List.rtakeWhile_concat_neg _ _ _ (by simp)

theorem whole_start (clock : Nat → Now) : Whole (.start clock) :=
  ⟨faithful_start clock .empty, rfl, le_rfl⟩

theorem whole_step {s t : BufferedServer} {a : BufferedAction} {o : Option Server.Response}
    (h : Whole s) (hsafe : CutSafe s a) (hs : bufferedMachine.step s a = some (t, o)) :
    Whole t := by
  have hlog : LogSafe s a := by
    cases a with
    | line fd now line => exact ⟨hsafe, fun _ => glueSafe_of_not_torn h.torn line.1⟩
    | save => exact hsafe
    | flush | spill | crash => trivial
  have hfaithful := faithful_step h.faithful hlog hs
  cases a with
  | line fd now line =>
    simp only [bufferedMachine] at hs
    split at hs
    · cases hs
    · cases hs
      refine ⟨hfaithful, ?_, min_le_right _ _⟩
      show (s.server.handleLine fd now line.1).1.disk.torn = []
      rw [handleLine_disk h.faithful.role h.faithful.appendOnly]
      split
      · rfl
      split
      · exact torn_append _ _
      · exact h.torn
  | save =>
    cases hs
    exact ⟨hfaithful, rfl, min_le_right _ _⟩
  | flush =>
    cases hs
    exact ⟨hfaithful, h.torn, le_rfl⟩
  | spill n =>
    cases hs
    exact ⟨hfaithful, h.torn, min_le_right _ _⟩
  | crash saved clock =>
    cases hs
    refine ⟨hfaithful, ?_, le_rfl⟩
    show (s.left saved).torn = []
    cases saved with
    | none | some => exact hsafe

/-- The first `n` bytes that were appended are those that some earlier state had, after which
nothing forced the buffer out, and a part of the line that came next. -/
def CutAt (clock : Nat → Now) (s : BufferedServer) (acts : List BufferedAction) (n : Nat) : Prop :=
  ∃ pre post u os torn, acts = pre ++ post ∧
    bufferedMachine.run (.start clock) pre = some (u, os) ∧ (∀ a ∈ post, a.forces = false) ∧
    u.server.disk.snapshot = s.server.disk.snapshot ∧
    s.server.disk.aof.take n = u.server.disk.aof ++ torn ∧
    (torn = [] ∨ ∃ fd now line rest, post = .line fd now line :: rest ∧ torn <+: line.1)

section

variable {clock : Nat → Now} {s t : BufferedServer} {acts : List BufferedAction} {n : Nat}

/-- All that was appended. -/
theorem cutAt_last {os : List (Option Server.Response)}
    (hrun : bufferedMachine.run (.start clock) acts = some (s, os)) :
    CutAt clock s acts s.server.disk.aof.length := by
  refine ⟨acts, [], s, os, [], (List.append_nil _).symm, hrun, by simp, rfl, ?_, .inl rfl⟩
  rw [List.take_length, List.append_nil]

/-- A step that does not force the buffer out. -/
theorem CutAt.extend {a : BufferedAction} (h : CutAt clock s acts n) (ha : a.forces = false)
    (hsnapshot : t.server.disk.snapshot = s.server.disk.snapshot)
    (haof : t.server.disk.aof.take n = s.server.disk.aof.take n) :
    CutAt clock t (acts ++ [a]) n := by
  obtain ⟨pre, post, u, os, torn, rfl, hrun, hpost, hsnap, htake, htorn⟩ := h
  refine ⟨pre, post ++ [a], u, os, torn, List.append_assoc _ _ _, hrun, ?_,
    hsnap.trans hsnapshot.symm, haof.trans htake, ?_⟩
  · intro b hb
    obtain hb | hb := List.mem_append.mp hb
    · exact hpost b hb
    · rw [List.mem_singleton.mp hb, ha]
  · refine htorn.imp_right ?_
    rintro ⟨fd, now, line, rest, rfl, hpart⟩
    exact ⟨fd, now, line, rest ++ [a], rfl, hpart⟩

/-- A line is recorded: a cut within it leaves a part of it. -/
theorem cutAt_line {os : List (Option Server.Response)} {fd : Nat} {now : Now} {line : Line}
    (hrun : bufferedMachine.run (.start clock) acts = some (s, os)) (hsave : isSave line.1 = false)
    (hdisk : t.server.disk = AofWriter.append s.server.disk line.1)
    (hlow : s.server.disk.aof.length ≤ n) (hhigh : n < t.server.disk.aof.length) :
    CutAt clock t (acts ++ [.line fd now line]) n := by
  rw [hdisk] at hhigh
  have hlen : n - s.server.disk.aof.length ≤ line.1.length := by
    simp only [AofWriter.append, List.length_append, List.length_singleton] at hhigh
    omega
  refine ⟨acts, [.line fd now line], s, os, line.1.take (n - s.server.disk.aof.length), rfl, hrun,
    by simpa [BufferedAction.forces] using hsave, by rw [hdisk]; rfl, ?_,
    .inr ⟨fd, now, line, [], rfl, List.take_prefix _ _⟩⟩
  rw [hdisk]
  show (s.server.disk.aof ++ line.1 ++ [newline]).take n = _
  rw [List.append_assoc, List.take_append, List.take_of_length_le hlow,
    List.take_append_of_le_length hlen]

/-- Every cut of the bytes that may still be in the buffer is one within the lines since the last
time that it was forced out. -/
theorem cutAt_step {a : BufferedAction} {os : List (Option Server.Response)}
    {o : Option Server.Response} (h : Whole s)
    (hrun : bufferedMachine.run (.start clock) acts = some (s, os))
    (hcut : ∀ n, s.reached ≤ n → n ≤ s.server.disk.aof.length → CutAt clock s acts n)
    (hs : bufferedMachine.step s a = some (t, o)) :
    ∀ n, t.reached ≤ n → n ≤ t.server.disk.aof.length → CutAt clock t (acts ++ [a]) n := by
  have hrun' : bufferedMachine.run (.start clock) (acts ++ [a]) = some (t, os ++ [o]) :=
    Machine.run_append.mpr ⟨s, os, [o], hrun, Machine.run_cons.mpr ⟨t, o, [], hs, rfl, rfl⟩, rfl⟩
  -- Nothing is in the buffer after the step.
  have hforced (heq : t.reached = t.server.disk.aof.length) : ∀ n, t.reached ≤ n →
      n ≤ t.server.disk.aof.length → CutAt clock t (acts ++ [a]) n := by
    intro n hlow hhigh
    obtain rfl : n = t.server.disk.aof.length := by omega
    exact cutAt_last hrun'
  cases a with
  | line fd now line =>
    simp only [bufferedMachine] at hs
    split at hs
    · cases hs
    have hdisk := handleLine_disk h.faithful.role h.faithful.appendOnly fd now line.1
    generalize (s.server.handleLine fd now line.1).1 = server at hs hdisk
    cases hs
    cases hsave : isSave line.1 with
    | true =>
      have haof : server.disk.aof = [] := by
        rw [hdisk, hsave]
        rfl
      refine hforced ?_
      show min s.reached server.disk.aof.length = server.disk.aof.length
      rw [haof]
      exact Nat.min_zero _
    | false =>
      rw [hsave, if_neg Bool.false_ne_true] at hdisk
      intro n hlow hhigh
      have hreached : min s.reached server.disk.aof.length ≤ n := hlow
      have hle := h.reached
      split at hdisk
      · have hlen : s.server.disk.aof.length ≤ server.disk.aof.length := by
          rw [hdisk]
          simp [AofWriter.append]
        -- The cut is before the new line, within it or after it.
        rcases Nat.lt_or_ge n s.server.disk.aof.length with hn | hn
        · have hsnapshot : server.disk.snapshot = s.server.disk.snapshot := by
            rw [hdisk]
            rfl
          refine (hcut n (by omega) hn.le).extend hsave hsnapshot ?_
          show server.disk.aof.take n = _
          rw [hdisk, AofWriter.append, List.append_assoc, List.take_append_of_le_length hn.le]
        rcases Nat.lt_or_ge n server.disk.aof.length with hlt | hge
        · exact cutAt_line hrun hsave hdisk hn hlt
        · obtain rfl : n = server.disk.aof.length := Nat.le_antisymm hhigh hge
          exact cutAt_last hrun'
      · have haof : server.disk.aof = s.server.disk.aof := congrArg Disk.aof hdisk
        have hlen : n ≤ s.server.disk.aof.length := by
          rw [← haof]
          exact hhigh
        rw [haof] at hreached
        exact (hcut n (by omega) hlen).extend hsave (congrArg Disk.snapshot hdisk)
          (congrArg (List.take n) haof)
  | save =>
    cases hs
    exact hforced (Nat.min_zero _)
  | flush =>
    cases hs
    exact hforced rfl
  | spill k =>
    cases hs
    intro n hlow hhigh
    have hreached : min (s.reached + k) s.server.disk.aof.length ≤ n := hlow
    have hle : s.reached ≤ n := by
      have := h.reached
      omega
    exact (hcut n hle hhigh).extend rfl rfl rfl
  | crash =>
    cases hs
    exact hforced rfl

end

/-- A line that is cut, at the end of whole lines. -/
theorem recovered_cut {disk : Disk} (h : disk.torn = []) {part : Bytes} (hpart : newline ∉ part) :
    ({ disk with aof := disk.aof ++ part } : Disk).recovered true =
      applyAll (disk.recovered true) (lineEffects part) := by
  rw [recovered_torn_append, recovered_torn disk, h, List.nil_append, flatMap_getlines hpart]
  rfl

theorem cutAt_run {clock : Nat → Now} {acts : List BufferedAction} {s : BufferedServer}
    {outs : List (Option Server.Response)}
    (hacts : bufferedMachine.Along CutSafe (.start clock) acts)
    (hrun : bufferedMachine.run (.start clock) acts = some (s, outs)) :
    CutAt clock s acts s.reached := by
  obtain ⟨hwhole, hcut⟩ : Whole s ∧
      ∀ n, s.reached ≤ n → n ≤ s.server.disk.aof.length → CutAt clock s acts n := by
    refine Machine.run_history (C := CutSafe)
      (I := fun s acts _ => Whole s ∧
        ∀ n, s.reached ≤ n → n ≤ s.server.disk.aof.length → CutAt clock s acts n)
      (fun s acts os a t o hbefore h hsafe hs => ?_) hacts hrun ⟨whole_start clock, ?_⟩
    · exact ⟨whole_step h.1 hsafe hs, cutAt_step h.1 hbefore h.2 hs⟩
    · intro n _ hhigh
      obtain rfl : n = 0 := Nat.le_zero.mp hhigh
      exact cutAt_last rfl
  exact hcut s.reached le_rfl hwhole.reached

/-- The map of an earlier state, with a part of the next line. -/
theorem CutAt.recovered {clock : Nat → Now} {acts : List BufferedAction} {s : BufferedServer}
    (h : CutAt clock s acts s.reached)
    (hacts : bufferedMachine.Along CutSafe (.start clock) acts) :
    ∃ pre post u os torn, acts = pre ++ post ∧
      bufferedMachine.run (.start clock) pre = some (u, os) ∧ (∀ a ∈ post, a.forces = false) ∧
      s.onDisk.recovered true = applyAll u.server.db.store.lookup (lineEffects torn) ∧
      (torn = [] ∨ ∃ fd now line rest, post = .line fd now line :: rest ∧ torn <+: line.1) := by
  obtain ⟨pre, post, u, os, torn, rfl, hpre, hpost, hsnapshot, htake, htorn⟩ := h
  have hu : Whole u := Machine.run_invariant (fun _ _ _ _ h hsafe hs => whole_step h hsafe hs)
    (Machine.along_append.mp hacts).1 hpre (whole_start clock)
  refine ⟨pre, post, u, os, torn, rfl, hpre, hpost, ?_, htorn⟩
  have hline : newline ∉ torn := by
    rcases htorn with rfl | ⟨_, _, line, _, _, hpart⟩
    · exact List.not_mem_nil
    · exact fun hmem => line.2 (hpart.subset hmem)
  have hdisk : s.onDisk = { u.server.disk with aof := u.server.disk.aof ++ torn } := by
    rw [BufferedServer.onDisk, htake, ← hsnapshot]
  rw [hdisk, recovered_cut hu.torn hline, hu.faithful.recovered]

/-- **What a crash loses.** If every crash of a run cut the file at the end of a line, then what a
crash outside of `save()` leaves is the map of an earlier state, since which the buffer was not
forced out and the process was not started, with the effect of a part of the next line, if one was
torn. -/
theorem crash_keeps_flushed (clock : Nat → Now) {acts : List BufferedAction} {s : BufferedServer}
    {outs : List (Option Server.Response)}
    (hacts : bufferedMachine.Along CutSafe (.start clock) acts)
    (hrun : bufferedMachine.run (.start clock) acts = some (s, outs)) :
    ∃ pre post u os torn, acts = pre ++ post ∧
      bufferedMachine.run (.start clock) pre = some (u, os) ∧ (∀ a ∈ post, a.forces = false) ∧
      s.onDisk.recovered true = applyAll u.server.db.store.lookup (lineEffects torn) ∧
      (torn = [] ∨ ∃ fd now line rest, post = .line fd now line :: rest ∧ torn <+: line.1) :=
  (cutAt_run hacts hrun).recovered hacts

/-- A line that was flushed, a crash, and a line of which only a part leaves the buffer. -/
def tornValue : List BufferedAction :=
  [.line 0 .epoch (.ofText "SET a 1"), .flush, .crash none fun _ => .epoch,
    .line 0 .epoch (.ofText "SET b 25"), .spill 7]

theorem crash_keeps_flushed_tornValue :
    ∃ s outs, bufferedMachine.run (.start fun _ => .epoch) tornValue = some (s, outs) ∧
      s.onDisk.torn = ascii "SET b 2" ∧
      ∃ pre post u os torn, tornValue = pre ++ post ∧
        bufferedMachine.run (.start fun _ => .epoch) pre = some (u, os) ∧
        (∀ a ∈ post, a.forces = false) ∧
        s.onDisk.recovered true = applyAll u.server.db.store.lookup (lineEffects torn) ∧
        (torn = [] ∨ ∃ fd now line rest, post = .line fd now line :: rest ∧ torn <+: line.1) := by
  obtain ⟨s, outs, hrun, htorn⟩ : ∃ s outs,
      bufferedMachine.run (.start fun _ => .epoch) tornValue = some (s, outs) ∧
        s.onDisk.torn = ascii "SET b 2" :=
    ⟨_, _, rfl, by decide +kernel⟩
  exact ⟨s, outs, hrun, htorn, crash_keeps_flushed _ (by decide +kernel) hrun⟩

end TinyKV
