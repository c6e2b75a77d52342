import TinyKV.Server

/-!
# Descriptors and the threads of connections

`TcpServer::run` in `src/net/tcp_server.cpp` starts a thread for each connection it accepts. The
thread runs `handleConnection` of `src/server_main.cpp` and then closes the descriptor, and the
kernel may give the same number to the next file that is opened. `ReplicaRegistry` in
`src/replication/replica_registry.cpp` is a list of such numbers, and `propagate` writes to each of
them, in whatever thread a write was executed.

* `tcpMachine`: the accept loop, any number of connection threads and link threads, a step at a
  time. `add`, `remove` and the loop of `propagate` exclude each other by the mutex of the registry;
  a write to a descriptor goes to the file that has this number at that time.
* `Table`: the abstract model, with what each thread uses its descriptor for. `Table.Step`: the
  steps of such a table.
* `tcp_step_table`: every step of the process is one of the table.

A command is executed in one step here, and a `writeRaw` is one step too (`Atomicity.lean` and
`Stream.lean` take these apart).
-/

namespace TinyKV

open Cpp SnapshotManager

/-! ## The process -/

/-- What an open descriptor stands for. -/
inductive File where
  /-- The connection that was accepted as number `k`. -/
  | connection (k : Nat)
  /-- The listening socket, a file on disk, the socket of a link. -/
  | other
  deriving DecidableEq

/-- What is written to a descriptor. -/
inductive Payload where
  | reply (response : Bytes)
  | dump (lines : List Bytes)
  /-- By `propagate`. -/
  | line (line : Bytes)
  deriving DecidableEq

/-- Where a thread is in `recordAndPropagateIfWrite`. -/
inductive Propagation where
  | recording
  /-- It waits for the mutex of the registry. -/
  | waiting
  /-- In the loop of `propagate`. -/
  | writing

/-- Where the thread of a connection is. -/
inductive HandlerPhase where
  /-- The connection is counted, and has no thread yet. -/
  | unborn
  /-- `readLine` -/
  | reading
  | propagating (line response : Bytes) (stage : Propagation)
  | replying (response : Bytes)
  /-- `registry().add` -/
  | registering
  | dumping
  | sendingDump (dump : List Bytes)
  /-- The read loop of `handleSyncConnection`. -/
  | watching
  /-- `registry().remove` -/
  | removing
  /-- `::close(clientFd)` -/
  | closing
  /-- `--activeConnections_` -/
  | leaving
  /-- The thread is not counted any more, and runs to its end. -/
  | ending

/-- Where the accept loop is. -/
inductive Acceptor where
  /-- `while (running_)` -/
  | accepting
  /-- `std::thread(..).detach()`, for connection `k`. -/
  | starting (k : Nat)
  /-- It waits for the threads, up to its deadline. -/
  | waiting
  | returned
  deriving DecidableEq

/-- The threads that call `propagate`. -/
inductive Caller where
  | handler (k : Nat)
  | link (i : Nat)
  deriving DecidableEq

/-- A call of `propagate` that holds the mutex, with the descriptors that its loop has left. -/
structure Loop where
  caller : Caller
  line : Bytes
  rest : List Nat

/-- A process. `server.replicaFds` are descriptors; what is written goes by connection. -/
structure Process where
  server : Server
  files : Nat → Option File
  /-- How many connections have been accepted. -/
  accepted : Nat
  /-- The connections whose threads have not ended, with their descriptors. -/
  handlers : Nat → Option (Nat × HandlerPhase)
  /-- The threads of links that are in `recordAndPropagateIfWrite`, with the line. -/
  links : Nat → Option (Bytes × Propagation)
  /-- `ReplicaRegistry::mutex_` -/
  mutex : Option Loop
  /-- `running_` -/
  running : Bool
  /-- `activeConnections_` -/
  active : Nat
  acceptor : Acceptor
  /-- What was written to each connection. -/
  written : Nat → List Payload
  /-- What was written to a descriptor that is not one of a connection. -/
  strays : List (Nat × Payload)

/-- A server that has recovered from its files, with any descriptors open. -/
def Process.start (appendOnly : Bool) (capacity : Nat) (clock : Nat → Now) (disk : Disk)
    (files : Nat → Option File) : Process where
  server := Server.start appendOnly capacity clock disk
  files := files
  accepted := 0
  handlers := fun _ => none
  links := fun _ => none
  mutex := none
  running := true
  active := 0
  acceptor := .accepting
  written := fun _ => []
  strays := []

/-- What the registry and the threads do that can be seen from outside. -/
inductive RegistryEvent where
  | added (k : Nat)
  | removed (k : Nat)
  /-- A call of `propagate` takes the mutex. -/
  | propagated (line : Bytes)
  /-- The thread of connection `k` writes to its descriptor. -/
  | wrote (k : Nat) (payload : Payload)
  deriving DecidableEq

/-- A step of the thread of a connection, with what its peer does. -/
inductive HandlerEvent where
  | step
  /-- `none`: the connection is lost. -/
  | received (now : Now) (line : Option Bytes)
  | wrote (ok : Bool)

namespace Server

/-- `ReplicaRegistry::remove` -/
def unregister (s : Server) (fd : Nat) : Server :=
  { s with replicaFds := s.replicaFds.filter (· ≠ fd) }

end Server

namespace Process

variable (s : Process)

/-- The connection behind a descriptor. -/
def owner (fd : Nat) : Option Nat :=
  match s.files fd with
  | some (.connection k) => some k
  | _ => none

/-- A write goes to the file that has the number now. -/
def write (fd : Nat) (payload : Payload) : Process :=
  match s.owner fd with
  | some k => { s with written := Function.update s.written k (s.written k ++ [payload]) }
  | none => { s with strays := s.strays ++ [(fd, payload)] }

/-- The next step of `recordAndPropagateIfWrite`, after which the thread is at a stage or done. -/
def propagateStep (caller : Caller) (line : Bytes) :
    Propagation → Option (Process × Option Propagation × Option RegistryEvent)
  | .recording => some ({ s with server := s.server.recordWrite line }, some .waiting, none)
  | .waiting =>
    match s.mutex with
    | none =>
      some ({ s with mutex := some ⟨caller, line, s.server.replicaFds⟩ }, some .writing,
        some (.propagated line))
    | some _ => none
  | .writing =>
    match s.mutex with
    | some ⟨holder, line, rest⟩ =>
      if holder = caller then
        match rest with
        | fd :: rest =>
          some ({ s.write fd (.line line) with mutex := some ⟨holder, line, rest⟩ },
            some .writing, none)
        | [] => some ({ s with mutex := none }, none, none)
      else none
    | none => none

/-- The next step of the thread of connection `k`, which ends without a next phase. -/
def handlerStep (k fd : Nat) :
    HandlerPhase → HandlerEvent → Option (Process × Option HandlerPhase × Option RegistryEvent)
  | .reading, .received _ none => some (s, some .closing, none)
  | .reading, .received now (some line) =>
    if line.isEmpty then some (s, some .reading, none)
    else match parse line with
      | .error e => some (s, some (.replying (Reply.error e.what)), none)
      | .ok cmd =>
        if cmd.type = .SYNC then some (s, some .registering, none)
        else if isWriteCommand cmd.type && s.server.role = .REPLICA then
          some (s, some (.replying Reply.readOnlyError), none)
        else
          let r := s.server.executeCommand now cmd
          some ({ s with server := r.1 },
            some (if logged cmd r.2 then .propagating line r.2 .recording else .replying r.2), none)
  | .propagating line response stage, .step =>
    (s.propagateStep (.handler k) line stage).map fun (t, next, event) =>
      (t, some (match next with
        | some stage => .propagating line response stage
        | none => .replying response), event)
  | .replying response, .wrote ok =>
    some (s.write fd (.reply response), some (if ok then .reading else .closing),
      some (.wrote k (.reply response)))
  | .registering, .step =>
    match s.mutex with
    | none => some ({ s with server := s.server.register fd }, some .dumping, some (.added k))
    | some _ => none
  | .dumping, .step =>
    some (s, some (.sendingDump (dumpLines s.server.db.store.forEach)), none)
  | .sendingDump dump, .wrote ok =>
    some (s.write fd (.dump dump), some (if ok then .watching else .removing),
      some (.wrote k (.dump dump)))
  | .watching, .received _ none => some (s, some .removing, none)
  | .watching, .received _ (some _) => some (s, some .watching, none)
  | .removing, .step =>
    match s.mutex with
    | none => some ({ s with server := s.server.unregister fd }, some .closing, some (.removed k))
    | some _ => none
  | .closing, .step =>
    some ({ s with files := Function.update s.files fd none }, some .leaving, none)
  | .leaving, .step => some ({ s with active := s.active - 1 }, some .ending, none)
  | .ending, .step => some (s, none, none)
  | _, _ => none

end Process

inductive ProcessAction where
  /-- `accept` returns a connection, which is counted. The kernel picks a number that is free. -/
  | accept (fd : Nat)
  /-- The accept loop starts the thread. -/
  | spawn
  /-- `TcpServer::stop` -/
  | stop
  /-- `accept` fails, and the loop finds `running_` false. -/
  | leave
  /-- `run` looks at the counter, before or after its deadline. -/
  | poll (late : Bool)
  | handler (k : Nat) (e : HandlerEvent)
  /-- The thread of a link executes a line in its apply callback. -/
  | apply (i : Nat) (now : Now) (line : Bytes)
  /-- The thread of a link goes on in `recordAndPropagateIfWrite`. -/
  | link (i : Nat)
  /-- Another part of the process opens a file, or closes one. -/
  | openFile (fd : Nat)
  | closeFile (fd : Nat)

/-- The process, with what its threads do. -/
def tcpMachine : Machine Process ProcessAction (Option RegistryEvent) where
  step s
    | .accept fd =>
      if s.acceptor = .accepting ∧ s.files fd = none then
        some ({ s with
          files := Function.update s.files fd (some (.connection s.accepted))
          accepted := s.accepted + 1
          handlers := Function.update s.handlers s.accepted (some (fd, .unborn))
          active := s.active + 1
          acceptor := .starting s.accepted }, none)
      else none
    | .spawn =>
      match s.acceptor with
      | .starting k =>
        match s.handlers k with
        | some (fd, .unborn) =>
          some ({ s with
            handlers := Function.update s.handlers k (some (fd, .reading))
            acceptor := .accepting }, none)
        | _ => none
      | .accepting | .waiting | .returned => none
    | .stop => some ({ s with running := false }, none)
    | .leave =>
      if s.acceptor = .accepting ∧ s.running = false then
        some ({ s with acceptor := .waiting }, none)
      else none
    | .poll late =>
      if s.acceptor = .waiting then
        some ({ s with acceptor := if s.active = 0 ∨ late then .returned else .waiting }, none)
      else none
    | .handler k e =>
      match s.handlers k with
      | some (fd, phase) =>
        (s.handlerStep k fd phase e).map fun (t, next, event) =>
          ({ t with handlers := Function.update s.handlers k (next.map fun p => (fd, p)) }, event)
      | none => none
    | .apply i now line =>
      match s.links i, parse line with
      | none, .ok cmd =>
        let r := s.server.executeCommand now cmd
        some ({ s with
          server := r.1
          links := Function.update s.links i
            (if logged cmd r.2 then some (line, .recording) else none) }, none)
      | _, _ => none
    | .link i =>
      match s.links i with
      | some (line, stage) =>
        (s.propagateStep (.link i) line stage).map fun (t, next, event) =>
          ({ t with links := Function.update s.links i (next.map fun p => (line, p)) }, event)
      | none => none
    | .openFile fd =>
      if s.files fd = none then
        some ({ s with files := Function.update s.files fd (some .other) }, none)
      else none
    | .closeFile fd =>
      if s.files fd = some .other then
        some ({ s with files := Function.update s.files fd none }, none)
      else none

/-! ## The table of descriptors

What the descriptors are used for, without the commands: the abstract model of the process. -/

/-- What the descriptor of a connection is to its thread. -/
inductive Status where
  | client
  /-- Between `add` and `remove`. -/
  | replica
  | closed
  deriving DecidableEq

/-- While the connection is counted. -/
def HandlerPhase.status : HandlerPhase → Option Status
  | .unborn | .reading | .propagating _ _ _ | .replying _ | .registering | .closing => some .client
  | .dumping | .sendingDump _ | .watching | .removing => some .replica
  | .leaving => some .closed
  | .ending => none

structure Table where
  files : Nat → Option File
  accepted : Nat
  /-- The connections that are counted, with their descriptors. -/
  threads : Nat → Option (Nat × Status)
  replicaFds : List Nat
  /-- The line of a `propagate` and the descriptors that it has left. -/
  loop : Option (Bytes × List Nat)
  active : Nat
  written : Nat → List Payload
  strays : List (Nat × Payload)

namespace Table

variable (t : Table)

def owner (fd : Nat) : Option Nat :=
  match t.files fd with
  | some (.connection k) => some k
  | _ => none

def write (fd : Nat) (payload : Payload) : Table :=
  match t.owner fd with
  | some k => { t with written := Function.update t.written k (t.written k ++ [payload]) }
  | none => { t with strays := t.strays ++ [(fd, payload)] }

/-- What the step of a process does to its descriptors. -/
inductive Step : Option RegistryEvent → Table → Prop
  | stay : Step none t
  | accept {fd : Nat} (hfree : t.files fd = none) :
      Step none { t with
        files := Function.update t.files fd (some (.connection t.accepted))
        accepted := t.accepted + 1
        threads := Function.update t.threads t.accepted (some (fd, .client))
        active := t.active + 1 }
  /-- A thread writes to its own connection. -/
  | own {k fd : Nat} {status : Status} {payload : Payload} (hk : t.threads k = some (fd, status))
      (hopen : status ≠ .closed) (hown : ∀ line, payload ≠ .line line) :
      Step (some (.wrote k payload)) (t.write fd payload)
  | lock {line : Bytes} (hfree : t.loop = none) :
      Step (some (.propagated line)) { t with loop := some (line, t.replicaFds) }
  | deliver {line : Bytes} {fd : Nat} {rest : List Nat} (hloop : t.loop = some (line, fd :: rest)) :
      Step none { t.write fd (.line line) with loop := some (line, rest) }
  | unlock {line : Bytes} (hloop : t.loop = some (line, [])) : Step none { t with loop := none }
  | add {k fd : Nat} (hfree : t.loop = none) (hk : t.threads k = some (fd, .client)) :
      Step (some (.added k)) { t with
        replicaFds := t.replicaFds ++ [fd]
        threads := Function.update t.threads k (some (fd, .replica)) }
  | remove {k fd : Nat} (hfree : t.loop = none) (hk : t.threads k = some (fd, .replica)) :
      Step (some (.removed k)) { t with
        replicaFds := t.replicaFds.filter (· ≠ fd)
        threads := Function.update t.threads k (some (fd, .client)) }
  | close {k fd : Nat} (hk : t.threads k = some (fd, .client)) :
      Step none { t with
        files := Function.update t.files fd none
        threads := Function.update t.threads k (some (fd, .closed)) }
  | leave {k fd : Nat} (hk : t.threads k = some (fd, .closed)) :
      Step none { t with
        active := t.active - 1
        threads := Function.update t.threads k none }
  | openFile {fd : Nat} (hfree : t.files fd = none) :
      Step none { t with files := Function.update t.files fd (some .other) }
  | closeFile {fd : Nat} (hfile : t.files fd = some .other) :
      Step none { t with files := Function.update t.files fd none }

end Table

/-- What is counted of a connection. -/
def countedAs (h : Nat × HandlerPhase) : Option (Nat × Status) :=
  h.2.status.map fun status => (h.1, status)

namespace Process

variable (s : Process)

def table : Table where
  files := s.files
  accepted := s.accepted
  threads := fun k => (s.handlers k).bind countedAs
  replicaFds := s.server.replicaFds
  loop := s.mutex.map fun l => (l.line, l.rest)
  active := s.active
  written := s.written
  strays := s.strays

theorem table_write (fd : Nat) (payload : Payload) :
    (s.write fd payload).table = s.table.write fd payload := by
  have howner : s.table.owner fd = s.owner fd := rfl
  unfold write Table.write
  rw [howner]
  cases s.owner fd <;> rfl

/-- A thread moves on. -/
theorem table_handlers (k : Nat) (h : Option (Nat × HandlerPhase)) :
    ({ s with handlers := Function.update s.handlers k h } : Process).table =
      { s.table with
        threads := Function.update s.table.threads k (h.bind countedAs) } := by
  have hthreads : (fun j => (Function.update s.handlers k h j).bind countedAs) =
      Function.update s.table.threads k (h.bind countedAs) := by
    funext j
    by_cases hj : j = k
    · subst hj
      simp only [Function.update_self]
    · simp only [Function.update_of_ne hj, table]
  exact congrArg (fun f => ({ s.table with threads := f } : Table)) hthreads

variable {s}

/-- A thread moves on and uses its descriptor as before. -/
theorem table_same {t : Process} {k fd : Nat} {phase next : HandlerPhase}
    (ht : t.handlers = s.handlers) (hk : s.handlers k = some (fd, phase))
    (hstatus : next.status = phase.status) :
    ({ t with handlers := Function.update s.handlers k (some (fd, next)) } : Process).table =
      t.table := by
  rw [← ht, table_handlers]
  have hthread : t.table.threads k = countedAs (fd, next) := by
    rw [countedAs, hstatus]
    show (t.handlers k).bind _ = _
    rw [ht, hk]
    rfl
  have hsame : Function.update t.table.threads k (countedAs (fd, next)) = t.table.threads := by
    rw [← hthread, Function.update_eq_self]
  exact congrArg (fun f => ({ t.table with threads := f } : Table)) hsame

theorem table_executeCommand (now : Now) (cmd : Command) :
    ({ s with server := (s.server.executeCommand now cmd).1 } : Process).table = s.table := by
  have hfds : (s.server.executeCommand now cmd).1.replicaFds = s.server.replicaFds :=
    (Server.makeCall_replicas _ _).1
  exact congrArg (fun fds => ({ s.table with replicaFds := fds } : Table)) hfds

theorem write_handlers (fd : Nat) (payload : Payload) :
    (s.write fd payload).handlers = s.handlers := by
  unfold write
  cases s.owner fd <;> rfl

/-- What a step of `recordAndPropagateIfWrite` does to the descriptors. -/
theorem propagateStep_table {caller : Caller} {line : Bytes} {stage : Propagation} {t : Process}
    {next : Option Propagation} {event : Option RegistryEvent}
    (h : s.propagateStep caller line stage = some (t, next, event)) :
    t.handlers = s.handlers ∧ s.table.Step event t.table := by
  cases stage with
  | recording =>
    cases h
    exact ⟨rfl, .stay⟩
  | waiting =>
    simp only [propagateStep] at h
    split at h
    · rename_i hfree
      cases h
      exact ⟨rfl, .lock (by rw [table, hfree]; rfl)⟩
    · cases h
  | writing =>
    simp only [propagateStep] at h
    split at h
    · rename_i holder line' rest hmutex
      split at h
      · cases rest with
        | cons fd rest =>
          cases h
          refine ⟨write_handlers _ _, ?_⟩
          have hloop : s.table.loop = some (line', fd :: rest) := by
            rw [table, hmutex]
            rfl
          have hstep := Table.Step.deliver hloop
          rw [← table_write] at hstep
          exact hstep
        | nil =>
          cases h
          have hloop : s.table.loop = some (line', []) := by
            rw [table, hmutex]
            rfl
          exact ⟨rfl, .unlock hloop⟩
      · cases h
    · cases h

/-- What a step of the thread of a connection does to the descriptors. -/
theorem handlerStep_table {k fd : Nat} {phase : HandlerPhase} {e : HandlerEvent} {t : Process}
    {next : Option HandlerPhase} {event : Option RegistryEvent}
    (hk : s.handlers k = some (fd, phase))
    (h : s.handlerStep k fd phase e = some (t, next, event)) :
    s.table.Step event ({ t with
      handlers := Function.update s.handlers k (next.map fun p => (fd, p)) } : Process).table := by
  have hthread : s.table.threads k = countedAs (fd, phase) := by
    show (s.handlers k).bind _ = _
    rw [hk]
    rfl
  have hloop : s.mutex = none → s.table.loop = none := by
    intro hfree
    rw [table, hfree]
    rfl
  -- The thread goes on without a look at its descriptor.
  have hstay (next : HandlerPhase) (hstatus : next.status = phase.status) : s.table.Step none
      ({ s with handlers := Function.update s.handlers k (some (fd, next)) } : Process).table := by
    rw [table_same rfl hk hstatus]
    exact .stay
  -- It writes to its descriptor.
  have hwrite (payload : Payload) (next : HandlerPhase) (hstatus : next.status = phase.status)
      {status : Status} (hcounted : countedAs (fd, phase) = some (fd, status))
      (hopen : status ≠ .closed) (hown : ∀ line, payload ≠ .line line) :
      s.table.Step (some (.wrote k payload)) ({ s.write fd payload with
        handlers := Function.update s.handlers k (some (fd, next)) } : Process).table := by
    rw [table_same (write_handlers fd payload) hk hstatus, table_write]
    exact .own (hthread.trans hcounted) hopen hown
  cases phase with
  | unborn =>
    cases e with
    | step | received | wrote => cases h
  | reading =>
    match e, h with
    | .received now none, h =>
      cases h
      exact hstay _ rfl
    | .received now (some line), h =>
      simp only [handlerStep] at h
      split at h
      · cases h
        exact hstay _ rfl
      split at h
      · cases h
        exact hstay _ rfl
      split at h
      · cases h
        exact hstay _ rfl
      split at h
      · cases h
        exact hstay _ rfl
      · rename_i cmd _ _ _
        cases h
        show s.table.Step none (Process.table _)
        rw [Option.map_some, table_same (t := { s with
          server := (s.server.executeCommand now cmd).1 }) rfl hk, table_executeCommand]
        · exact .stay
        · split <;> rfl
    | .step, h => cases h
    | .wrote _, h => cases h
  | propagating line response stage =>
    cases e with
    | step =>
      simp only [handlerStep] at h
      obtain ⟨⟨t', next', event'⟩, hp, heq⟩ := Option.map_eq_some_iff.mp h
      obtain ⟨hhandlers, hstep⟩ := propagateStep_table hp
      cases heq
      rw [Option.map_some, table_same hhandlers hk]
      · exact hstep
      · split <;> rfl
    | received | wrote => cases h
  | replying response =>
    cases e with
    | wrote ok =>
      cases h
      refine hwrite _ _ ?_ rfl (by rintro ⟨⟩) (by rintro _ ⟨⟩)
      cases ok <;> rfl
    | step | received => cases h
  | registering =>
    cases e with
    | step =>
      simp only [handlerStep] at h
      split at h
      · rename_i hfree
        cases h
        rw [table_handlers { s with server := s.server.register fd }]
        exact .add (hloop hfree) hthread
      · cases h
    | received | wrote => cases h
  | dumping =>
    cases e with
    | step =>
      cases h
      exact hstay _ rfl
    | received | wrote => cases h
  | sendingDump dump =>
    cases e with
    | wrote ok =>
      cases h
      refine hwrite _ _ ?_ rfl (by rintro ⟨⟩) (by rintro _ ⟨⟩)
      cases ok <;> rfl
    | step | received => cases h
  | watching =>
    match e, h with
    | .received _ none, h =>
      cases h
      exact hstay _ rfl
    | .received _ (some _), h =>
      cases h
      exact hstay _ rfl
    | .step, h => cases h
    | .wrote _, h => cases h
  | removing =>
    cases e with
    | step =>
      simp only [handlerStep] at h
      split at h
      · rename_i hfree
        cases h
        rw [table_handlers { s with server := s.server.unregister fd }]
        exact .remove (hloop hfree) hthread
      · cases h
    | received | wrote => cases h
  | closing =>
    cases e with
    | step =>
      cases h
      rw [table_handlers { s with files := Function.update s.files fd none }]
      exact .close hthread
    | received | wrote => cases h
  | leaving =>
    cases e with
    | step =>
      cases h
      rw [table_handlers { s with active := s.active - 1 }]
      exact .leave hthread
    | received | wrote => cases h
  | ending =>
    cases e with
    | step =>
      cases h
      have hsame : Function.update s.table.threads k none = s.table.threads := by
        rw [← show s.table.threads k = none from hthread, Function.update_eq_self]
      rw [table_handlers]
      exact cast (congrArg (s.table.Step none)
        (congrArg (fun f => ({ s.table with threads := f } : Table)) hsame).symm) .stay
    | received | wrote => cases h

end Process

/-- **The table is followed.** What a step of the process does to its descriptors. -/
theorem tcp_step_table {s s' : Process} {a : ProcessAction} {event : Option RegistryEvent}
    (hs : tcpMachine.step s a = some (s', event)) : s.table.Step event s'.table := by
  cases a with
  | accept fd =>
    simp only [tcpMachine] at hs
    split at hs
    · rename_i hfree
      cases hs
      have hstep := Table.Step.accept (t := s.table) hfree.2
      rw [show (s.table.accepted) = s.accepted from rfl] at hstep
      refine cast (congrArg _ ?_) hstep
      exact (Process.table_handlers { s with
        files := Function.update s.files fd (some (.connection s.accepted))
        accepted := s.accepted + 1
        active := s.active + 1
        acceptor := .starting s.accepted } s.accepted (some (fd, .unborn))).symm
    · cases hs
  | spawn =>
    simp only [tcpMachine] at hs
    split at hs
    · rename_i k _
      split at hs
      · rename_i fd hk
        cases hs
        have hstatus : HandlerPhase.reading.status = HandlerPhase.unborn.status := rfl
        rw [Process.table_same (t := { s with acceptor := .accepting }) rfl hk hstatus]
        exact .stay
      · cases hs
    · cases hs
    · cases hs
    · cases hs
  | stop =>
    cases hs
    exact .stay
  | leave =>
    simp only [tcpMachine] at hs
    split at hs
    · cases hs
      exact .stay
    · cases hs
  | poll late =>
    simp only [tcpMachine] at hs
    split at hs
    · cases hs
      exact .stay
    · cases hs
  | handler k e =>
    simp only [tcpMachine] at hs
    split at hs
    · rename_i fd phase hk
      obtain ⟨⟨t, next, event'⟩, hstep, heq⟩ := Option.map_eq_some_iff.mp hs
      cases heq
      exact Process.handlerStep_table hk hstep
    · cases hs
  | apply i now line =>
    simp only [tcpMachine] at hs
    split at hs
    · rename_i cmd _ _
      cases hs
      show s.table.Step none
        ({ s with server := (s.server.executeCommand now cmd).1 } : Process).table
      rw [Process.table_executeCommand]
      exact .stay
    · cases hs
  | link i =>
    simp only [tcpMachine] at hs
    split at hs
    · obtain ⟨⟨t, next, event'⟩, hstep, heq⟩ := Option.map_eq_some_iff.mp hs
      cases heq
      exact (Process.propagateStep_table hstep).2
    · cases hs
  | openFile fd =>
    simp only [tcpMachine] at hs
    split at hs
    · rename_i hfree
      cases hs
      exact .openFile hfree
    · cases hs
  | closeFile fd =>
    simp only [tcpMachine] at hs
    split at hs
    · rename_i hfile
      cases hs
      exact .closeFile hfile
    · cases hs

end TinyKV
