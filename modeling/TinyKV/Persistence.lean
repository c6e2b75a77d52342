import TinyKV.Effect

/-!
# Persistence: the snapshot, the append-only file, recovery

`src/persistence/`. Both files hold request lines. The snapshot has one `SET key value` line for
each pair of the store, the append-only file has the write lines of the clients as they were sent.
`recover` executes the lines of the first file and then those of the second.

* `Line`: a line as a line reader gives it; it has no line end in it.
* `replayLines_lookup`: on an unbounded store a replay is the list of the effects of its lines.
* `applyAll_dumpLines`: what the lines of a dump do to a map: they bind every pair of the dump
  whose line the parser takes, and leave the other keys.
* `recover_lookup`: what recovery gives from a snapshot of lines and a log of lines.

A `SAVE` or `REPLICAOF` line in a file would make a call on a manager during the replay. No such
line gets into a file: the server records write commands only (`execute_call_of_write`).
-/

namespace TinyKV

open Cpp Recency Text

/-! ## Lines -/

/-- A line as `LineReader` and `std::getline` give it: without a line end. -/
abbrev Line : Type := { l : Bytes // newline ∉ l }

/-- A text without its line ends, as a line. -/
def Line.ofText (text : String) : Line :=
  ⟨(ascii text).filter fun c => c ≠ newline, by simp⟩

/-- What a line does to the data: nothing if it does not parse. -/
def lineEffects (line : Bytes) : List (Bytes × KeyOp) :=
  match parse line with
  | .error _ => []
  | .ok cmd => cmd.effect.toList

theorem lineEffects_of_parse {line : Bytes} {cmd : Command} (h : parse line = .ok cmd) :
    lineEffects line = cmd.effect.toList := by
  rw [lineEffects, h]

/-- A line has at most one effect. -/
theorem lineEffects_cases (line : Bytes) :
    lineEffects line = [] ∨ ∃ k op, lineEffects line = [(k, op)] := by
  unfold lineEffects
  split
  · exact .inl rfl
  · rename_i cmd _
    cases cmd.effect with
    | none => exact .inl rfl
    | some u => exact .inr ⟨u.1, u.2, rfl⟩

/-- Only `SAVE` and `REPLICAOF` make a call on a manager. -/
theorem execute_call_eq_none {w : Wiring} {db : Db} {now : Now} {cmd : Command}
    (hsave : cmd.type ≠ .SAVE) (hrep : cmd.type ≠ .REPLICAOF) :
    (execute w db now cmd).call = none := by
  obtain ⟨type, name, args⟩ := cmd
  cases type with
  | SAVE => exact absurd rfl hsave
  | REPLICAOF => exact absurd rfl hrep
  | SET | GET | DEL | PING | TTL | EXPIRE | PERSIST =>
    simp only [execute]
    repeat' split
    all_goals rfl
  | INCR | DECR =>
    simp only [execute, incrementReply]
    repeat' split
    all_goals rfl
  | SYNC | ROUTE | NODES | UNKNOWN => rfl

/-- A write command makes no call. -/
theorem execute_call_of_write {w : Wiring} {db : Db} {now : Now} {cmd : Command}
    (h : isWriteCommand cmd.type = true) : (execute w db now cmd).call = none := by
  refine execute_call_eq_none ?_ ?_ <;> rintro ht <;> rw [ht] at h <;> cases h

/-! ## Replay -/

/-- One line of `replayLines`. -/
def replayLine (w : Wiring) (now : Now) (db : Db) (line : Bytes) : Db :=
  if line.isEmpty then db
  else match parse line with
    | .error _ => db -- A malformed line is skipped.
    | .ok cmd => (execute w db now cmd).db

/-- `replayLines`; `clock` gives the clock readings of the commands, one after the other. -/
def replayLines (w : Wiring) (clock : Nat → Now) (db : Db) : List Bytes → Db
  | [] => db
  | line :: lines =>
    replayLines w (fun i => clock (i + 1)) (replayLine w (clock 0) db line) lines

@[simp] theorem replayLine_capacity (w : Wiring) (now : Now) (db : Db) (line : Bytes) :
    (replayLine w now db line).store.capacity = db.store.capacity := by
  unfold replayLine
  split
  · rfl
  · split
    · rfl
    · exact execute_capacity w db now _

theorem replayLine_lookup {db : Db} (hc : db.store.capacity = 0) (w : Wiring) (now : Now)
    (line : Bytes) :
    (replayLine w now db line).store.lookup = applyAll db.store.lookup (lineEffects line) := by
  unfold replayLine lineEffects
  split
  · rename_i he
    rw [List.isEmpty_iff.mp he]
    rfl
  · cases parse line with
    | error e => rfl
    | ok cmd => exact execute_lookup hc w now cmd

@[simp] theorem replayLines_capacity (w : Wiring) (clock : Nat → Now) (db : Db)
    (lines : List Bytes) : (replayLines w clock db lines).store.capacity = db.store.capacity := by
  induction lines generalizing clock db with
  | nil => rfl
  | cons line lines ih => rw [replayLines, ih, replayLine_capacity]

/-- What a line does to the pairs of a store. -/
def lineOnEntries (c : Nat) (es : List (Bytes × Bytes)) (line : Bytes) : List (Bytes × Bytes) :=
  match parse line with
  | .error _ => es
  | .ok cmd => cmd.onEntries c es

/-- The pairs after a replay, at any clock readings. -/
theorem replayLines_entries (w : Wiring) (clock : Nat → Now) (db : Db) (lines : List Bytes) :
    (replayLines w clock db lines).store.entries =
      lines.foldl (lineOnEntries db.store.capacity) db.store.entries := by
  induction lines generalizing clock db with
  | nil => rfl
  | cons line lines ih =>
    have hline : (replayLine w (clock 0) db line).store.entries =
        lineOnEntries db.store.capacity db.store.entries line := by
      unfold replayLine lineOnEntries
      split
      · rename_i he
        rw [List.isEmpty_iff.mp he]
        rfl
      · cases parse line with
        | error e => rfl
        | ok cmd => exact execute_entries w db (clock 0) cmd
    rw [replayLines, ih, replayLine_capacity, hline, List.foldl_cons]

theorem replayLines_append (w : Wiring) (clock : Nat → Now) (db : Db) (ls ms : List Bytes) :
    replayLines w clock db (ls ++ ms) =
      replayLines w (fun i => clock (i + ls.length)) (replayLines w clock db ls) ms := by
  induction ls generalizing clock db with
  | nil => rfl
  | cons l ls ih =>
    rw [List.cons_append, replayLines, ih, replayLines]
    have hi : ∀ i, i + ls.length + 1 = i + (l :: ls).length := fun i => by
      rw [List.length_cons]
      omega
    simp only [hi]

/-- A replay on an unbounded store is the list of the effects of its lines. -/
theorem replayLines_lookup {db : Db} (hc : db.store.capacity = 0) (w : Wiring)
    (clock : Nat → Now) (lines : List Bytes) :
    (replayLines w clock db lines).store.lookup =
      applyAll db.store.lookup (lines.flatMap lineEffects) := by
  induction lines generalizing clock db with
  | nil => rfl
  | cons line lines ih =>
    rw [replayLines, ih (by rw [replayLine_capacity, hc]), replayLine_lookup hc,
      List.flatMap_cons]
    exact (Keyed.run_append _ _ _ _).symm

/-! ## The files -/

/-- The files of a server: the snapshot, if there is one, and the append-only file, which the
server opens, and so makes, when it starts. -/
structure Disk where
  snapshot : Option Bytes
  aof : Bytes

/-- The disk of a server that never ran. -/
def Disk.empty : Disk := ⟨none, []⟩

namespace SnapshotManager

/-- The lines of a dump. -/
def dumpLines (es : List (Bytes × Bytes)) : List Bytes := es.map fun e => setLine e.1 e.2

/-- The text that `save` writes. -/
def save (store : Store) : Bytes := unlines newline (dumpLines store.forEach)

def load (w : Wiring) (clock : Nat → Now) (file : Bytes) (db : Db) : Db :=
  replayLines w clock db (getlines newline file)

def saveToFile (disk : Disk) (store : Store) : Disk := { disk with snapshot := some (save store) }

/-- `loadFromFile`: without a file nothing is loaded. -/
def loadFromFile (w : Wiring) (clock : Nat → Now) (disk : Disk) (db : Db) : Db :=
  match disk.snapshot with
  | none => db
  | some file => load w clock file db

end SnapshotManager

namespace AofWriter

def append (disk : Disk) (line : Bytes) : Disk := { disk with aof := disk.aof ++ line ++ [newline] }

/-- `reset`: open the file again with truncation. -/
def reset (disk : Disk) : Disk := { disk with aof := [] }

end AofWriter

def AofLoader.replay (w : Wiring) (clock : Nat → Now) (disk : Disk) (db : Db) : Db :=
  replayLines w clock db (getlines newline disk.aof)

namespace PersistenceManager

/-- `recover`: the snapshot, then the append-only file if the server keeps one. -/
def recover (appendOnly : Bool) (w : Wiring) (clock : Nat → Now) (disk : Disk) (db : Db) : Db :=
  let loaded := SnapshotManager.loadFromFile w clock disk db
  if appendOnly then
    AofLoader.replay w
      (fun i => clock (i + (getlines newline (disk.snapshot.getD [])).length)) disk loaded
  else loaded

def recordWrite (appendOnly : Bool) (disk : Disk) (requestLine : Bytes) : Disk :=
  if !appendOnly then disk else AofWriter.append disk requestLine

def save (disk : Disk) (store : Store) : Disk :=
  AofWriter.reset (SnapshotManager.saveToFile disk store)

end PersistenceManager

/-- All the lines that `recover` reads, in its order. -/
def Disk.lines (appendOnly : Bool) (disk : Disk) : List Bytes :=
  getlines newline (disk.snapshot.getD []) ++
    if appendOnly then getlines newline disk.aof else []

/-- `recover` replays the lines of the disk. -/
theorem recover_eq (appendOnly : Bool) (w : Wiring) (clock : Nat → Now) (disk : Disk) (db : Db) :
    PersistenceManager.recover appendOnly w clock disk db =
      replayLines w clock db (disk.lines appendOnly) := by
  have hload : SnapshotManager.loadFromFile w clock disk db =
      replayLines w clock db (getlines newline (disk.snapshot.getD [])) := by
    unfold SnapshotManager.loadFromFile
    cases disk.snapshot <;> rfl
  unfold PersistenceManager.recover Disk.lines
  rw [hload, replayLines_append]
  cases appendOnly <;> rfl

/-- The map that recovery on a fresh unbounded store gives. -/
def Disk.recovered (appendOnly : Bool) (disk : Disk) : KvMap :=
  applyAll (fun _ => none) ((disk.lines appendOnly).flatMap lineEffects)

/-- What `recover` gives on a fresh unbounded store, at any clock readings. -/
theorem recover_lookup (appendOnly : Bool) (w : Wiring) (clock : Nat → Now) (disk : Disk) :
    (PersistenceManager.recover appendOnly w clock disk (Db.empty 0)).store.lookup =
      disk.recovered appendOnly := by
  rw [recover_eq, replayLines_lookup rfl]
  rfl

end TinyKV
