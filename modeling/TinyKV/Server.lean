import TinyKV.Snapshot
import TinyKV.Lib.Machine

/-!
# The server: one process with its store, its files and its replicas

`src/server_main.cpp`, with the parts of `src/replication/` that it uses. `Server` is the state of
one process. `handleLine` is one turn of the loop of `handleConnection`. Its parts, which take
different mutexes in the source, are functions of their own, so that the interleavings of several
connections can be stated with the same functions:

* `Server.executeCommand`: execute, with the call that the command makes on a manager.
* `Server.recordWrite`, `Server.propagate`: the two halves of `recordAndPropagateIfWrite`.
* `Server.register`, `Server.send`: the steps of `handleSyncConnection` around the dump.

A replica connection is the list of the lines that were written to it. `Server.apply` is the apply
callback, which a replica runs on each line that it receives.
-/

namespace TinyKV

open Cpp Recency Text SnapshotManager

inductive ServerRole where
  | PRIMARY | REPLICA
  deriving DecidableEq, Repr

structure Server where
  db : Db
  disk : Disk
  appendOnly : Bool
  role : ServerRole
  /-- `ReplicaRegistry::replicaFds_` -/
  replicaFds : List Nat
  /-- The lines written to each replica connection so far. -/
  sent : Nat → List Bytes

/-- The server sets both managers on its executor. -/
def serverWiring : Wiring := ⟨true, true⟩

/-- `main` up to the accept loop: an empty store, then recovery. -/
def Server.start (appendOnly : Bool) (capacity : Nat) (clock : Nat → Now) (disk : Disk) : Server where
  db := PersistenceManager.recover appendOnly serverWiring clock disk (Db.empty capacity)
  disk := disk
  appendOnly := appendOnly
  role := .PRIMARY
  replicaFds := []
  sent := fun _ => []

/-- An unbounded server that finds no files. -/
def freshServer : Server := Server.start true 0 (fun _ => .epoch) .empty

namespace Server

/-! ## Writes -/

def recordWrite (s : Server) (line : Bytes) : Server :=
  { s with disk := PersistenceManager.recordWrite s.appendOnly s.disk line }

/-- `ReplicaRegistry::propagate`: the line goes to every registered connection. -/
def propagate (s : Server) (line : Bytes) : Server :=
  { s with
    sent := s.replicaFds.foldl (fun sent fd => Function.update sent fd (sent fd ++ [line])) s.sent }

def recordAndPropagateIfWrite (s : Server) (cmd : Command) (line response : Bytes) : Server :=
  if logged cmd response then (s.recordWrite line).propagate line else s

def save (s : Server) : Server := { s with disk := PersistenceManager.save s.disk s.db.store }

/-- The state that the call of a command leaves when it returns. A replica link that `replicaOf`
starts runs on its own. On a replica, both calls of the replication manager stop its link first, and
return only if the thread of the link ends: `stopsLink` is when that matters, and `roleMachine` and
`serviceMachine` have the steps. -/
def makeCall (s : Server) : Option Call → Server
  | none => s
  | some .save => s.save
  | some (.replicaOf _ _) => { s with role := .REPLICA }
  | some .replicaOfNoOne => { s with role := .PRIMARY }

/-! ## Replica connections -/

/-- `ReplicaRegistry::add` -/
def register (s : Server) (fd : Nat) : Server := { s with replicaFds := s.replicaFds ++ [fd] }

/-- Put lines on a connection. -/
def send (s : Server) (fd : Nat) (lines : List Bytes) : Server :=
  { s with sent := Function.update s.sent fd (s.sent fd ++ lines) }

/-- `handleSyncConnection` up to its read loop: register, dump, send the dump. -/
def handleSyncConnection (s : Server) (fd : Nat) : Server :=
  let s := s.register fd
  s.send fd (dumpLines s.db.store.forEach)

/-! ## Lines -/

/-- What one line of a client leads to. -/
inductive Response where
  /-- Nothing is written: the line was empty. -/
  | skip
  | reply (line : Bytes)
  /-- The connection is a replica stream from here on. -/
  | stream
  deriving DecidableEq

/-- `execute` on the server, with the call that the command makes. -/
def executeCommand (s : Server) (now : Now) (cmd : Command) : Server × Bytes :=
  let out := execute serverWiring s.db now cmd
  (makeCall { s with db := out.db } out.call, out.reply)

/-- One turn of the loop of `handleConnection`. -/
def handleLine (s : Server) (fd : Nat) (now : Now) (line : Bytes) : Server × Response :=
  if line.isEmpty then (s, .skip)
  else match parse line with
    | .error e => (s, .reply (Reply.error e.what))
    | .ok cmd =>
      if cmd.type = .SYNC then (s.handleSyncConnection fd, .stream)
      else if isWriteCommand cmd.type && s.role = .REPLICA then (s, .reply Reply.readOnlyError)
      else
        let r := s.executeCommand now cmd
        (r.1.recordAndPropagateIfWrite cmd line r.2, .reply r.2)

/-- The apply callback of a replica. -/
def apply (s : Server) (now : Now) (line : Bytes) : Server :=
  match parse line with
  | .error _ => s -- A malformed line is skipped.
  | .ok cmd =>
    let r := s.executeCommand now cmd
    r.1.recordAndPropagateIfWrite cmd line r.2

/-- The apply callback on the lines of a connection, one after the other. -/
def applyLines (clock : Nat → Now) (s : Server) : List Bytes → Server
  | [] => s
  | line :: lines => applyLines (fun i => clock (i + 1)) (s.apply (clock 0) line) lines

/-- The line calls the replication manager of a replica, which stops the link that it has and joins
the thread of the link. -/
def stopsLink (s : Server) (now : Now) (line : Bytes) : Bool :=
  match parse line with
  | .error _ => false
  | .ok cmd =>
    match (execute serverWiring s.db now cmd).call with
    | some (.replicaOf _ _) | some .replicaOfNoOne => s.role = .REPLICA
    | some .save | none => false

/-! ## Frames -/

variable (s : Server)

@[simp] theorem makeCall_db (c : Option Call) : (s.makeCall c).db = s.db := by
  rcases c with _ | ⟨⟩ | ⟨⟩ | ⟨⟩ <;> rfl

@[simp] theorem makeCall_appendOnly (c : Option Call) :
    (s.makeCall c).appendOnly = s.appendOnly := by
  rcases c with _ | ⟨⟩ | ⟨⟩ | ⟨⟩ <;> rfl

theorem makeCall_disk (c : Option Call) :
    (s.makeCall c).disk =
      if c = some .save then PersistenceManager.save s.disk s.db.store else s.disk := by
  rcases c with _ | ⟨⟩ | ⟨⟩ | ⟨⟩ <;> simp [makeCall, save]

theorem makeCall_replicas (call : Option Call) :
    (s.makeCall call).replicaFds = s.replicaFds ∧ (s.makeCall call).sent = s.sent := by
  rcases call with _ | ⟨⟩ | ⟨⟩ | ⟨⟩ <;> exact ⟨rfl, rfl⟩

@[simp] theorem recordAndPropagateIfWrite_db (cmd : Command) (line response : Bytes) :
    (s.recordAndPropagateIfWrite cmd line response).db = s.db := by
  unfold recordAndPropagateIfWrite
  split <;> rfl

@[simp] theorem recordAndPropagateIfWrite_appendOnly (cmd : Command) (line response : Bytes) :
    (s.recordAndPropagateIfWrite cmd line response).appendOnly = s.appendOnly := by
  unfold recordAndPropagateIfWrite
  split <;> rfl

@[simp] theorem recordAndPropagateIfWrite_role (cmd : Command) (line response : Bytes) :
    (s.recordAndPropagateIfWrite cmd line response).role = s.role := by
  unfold recordAndPropagateIfWrite
  split <;> rfl

theorem recordAndPropagateIfWrite_disk (cmd : Command) (line response : Bytes) :
    (s.recordAndPropagateIfWrite cmd line response).disk =
      if logged cmd response then PersistenceManager.recordWrite s.appendOnly s.disk line
      else s.disk := by
  unfold recordAndPropagateIfWrite
  split <;> rfl

@[simp] theorem executeCommand_db (now : Now) (cmd : Command) :
    (s.executeCommand now cmd).1.db = (execute serverWiring s.db now cmd).db :=
  makeCall_db _ _

@[simp] theorem executeCommand_appendOnly (now : Now) (cmd : Command) :
    (s.executeCommand now cmd).1.appendOnly = s.appendOnly :=
  makeCall_appendOnly _ _

theorem executeCommand_disk (now : Now) (cmd : Command) :
    (s.executeCommand now cmd).1.disk =
      if (execute serverWiring s.db now cmd).call = some .save
      then PersistenceManager.save s.disk (execute serverWiring s.db now cmd).db.store
      else s.disk :=
  makeCall_disk _ _

theorem executeCommand_of_no_call {now : Now} {cmd : Command}
    (h : (execute serverWiring s.db now cmd).call = none) :
    (s.executeCommand now cmd).1 = { s with db := (execute serverWiring s.db now cmd).db } := by
  show makeCall _ (execute serverWiring s.db now cmd).call = _
  rw [h]
  rfl

/-- The handshake writes the dump to the connection. -/
theorem handleSyncConnection_sent (fd : Nat) :
    (s.handleSyncConnection fd).sent fd = s.sent fd ++ dumpLines s.db.store.entries :=
  Function.update_self _ _ _

theorem handleSyncConnection_count {fd : Nat} (h : fd ∉ s.replicaFds) :
    (s.handleSyncConnection fd).replicaFds.count fd = 1 := by
  show (s.replicaFds ++ [fd]).count fd = 1
  rw [List.count_append, List.count_eq_zero.mpr h, List.count_singleton_self]

/-- A line that parses. -/
theorem handleLine_of_parse {line : Bytes} {cmd : Command} (hp : parse line = .ok cmd) (fd : Nat)
    (now : Now) :
    s.handleLine fd now line =
      if cmd.type = .SYNC then (s.handleSyncConnection fd, .stream)
      else if isWriteCommand cmd.type && s.role = .REPLICA then (s, .reply Reply.readOnlyError)
      else
        ((s.executeCommand now cmd).1.recordAndPropagateIfWrite cmd line
            (execute serverWiring s.db now cmd).reply,
          .reply (execute serverWiring s.db now cmd).reply) := by
  have hne : ¬ line.isEmpty = true := fun he => by
    rw [List.isEmpty_iff.mp he] at hp
    cases hp
  rw [handleLine, if_neg hne, hp]
  rfl

/-- What a line comes to. It is not executed: it does not parse, or it is `SYNC`, or a write on a
replica. Or its command is executed, recorded and propagated. -/
theorem handleLine_inv (fd : Nat) (now : Now) (line : Bytes) :
    ((∀ cmd, parse line = .ok cmd →
        cmd.type = .SYNC ∨ isWriteCommand cmd.type = true ∧ s.role = .REPLICA) ∧
      ((s.handleLine fd now line).1 = s ∨
        (s.handleLine fd now line).1 = s.handleSyncConnection fd)) ∨
    ∃ cmd, parse line = .ok cmd ∧ cmd.type ≠ .SYNC ∧
      s.handleLine fd now line =
        ((s.executeCommand now cmd).1.recordAndPropagateIfWrite cmd line
          (execute serverWiring s.db now cmd).reply,
          .reply (execute serverWiring s.db now cmd).reply) := by
  cases hp : parse line with
  | error e =>
    refine .inl ⟨fun cmd h => (by cases h), .inl ?_⟩
    rw [handleLine, hp]
    split <;> rfl
  | ok cmd =>
    rw [s.handleLine_of_parse hp]
    split
    · rename_i hsync
      exact .inl ⟨fun cmd' h => (by cases h; exact .inl hsync), .inr rfl⟩
    split
    · rename_i hro
      rw [Bool.and_eq_true, decide_eq_true_eq] at hro
      exact .inl ⟨fun cmd' h => (by cases h; exact .inr hro), .inl rfl⟩
    · rename_i hsync _
      exact .inr ⟨cmd, rfl, hsync, rfl⟩

/-- A registered connection gets a propagated line once for each time it is registered. -/
theorem propagate_sent (line : Bytes) (fd : Nat) :
    (s.propagate line).sent fd = s.sent fd ++ List.replicate (s.replicaFds.count fd) line := by
  show s.replicaFds.foldl _ s.sent fd = _
  generalize s.sent = sent
  induction s.replicaFds generalizing sent with
  | nil => simp
  | cons x fds ih =>
    rw [List.foldl_cons, ih, List.count_cons]
    by_cases hx : x = fd
    · subst hx
      simp [List.replicate_succ]
    · simp [hx, Function.update_of_ne (Ne.symm hx)]

/-! ## Replicas -/

theorem apply_store (now : Now) (line : Bytes) :
    (s.apply now line).db.store.capacity = s.db.store.capacity ∧
    (s.db.store.capacity = 0 →
      (s.apply now line).db.store.lookup = applyAll s.db.store.lookup (lineEffects line)) := by
  unfold apply lineEffects
  cases parse line with
  | error e => exact ⟨rfl, fun _ => rfl⟩
  | ok cmd =>
    simp only [recordAndPropagateIfWrite_db, executeCommand_db]
    exact ⟨execute_capacity _ _ _ _, fun hc => execute_lookup hc _ _ _⟩

/-- The map of an unbounded replica after it has applied lines. -/
theorem applyLines_lookup {s : Server} (hc : s.db.store.capacity = 0) (clock : Nat → Now)
    (lines : List Bytes) :
    (applyLines clock s lines).db.store.lookup =
      applyAll s.db.store.lookup (lines.flatMap lineEffects) := by
  induction lines generalizing clock s with
  | nil => rfl
  | cons line lines ih =>
    obtain ⟨hcap, hl⟩ := s.apply_store (clock 0) line
    rw [applyLines, ih (hcap.trans hc), hl hc, List.flatMap_cons]
    exact (Keyed.run_append _ _ _ _).symm

end Server

end TinyKV
