import TinyKV.Framing
import TinyKV.Promotion
import TinyKV.Replies

/-!
# The connections of a server

`handleConnection` in `src/server_main.cpp` reads a line, answers it and reads the next one. Every
connection has a thread, so the calls of their commands interleave, with each other and with the
sweeper, the automatic save and the threads of replica links.

* `serviceMachine`: a server that started from any files, with any number of connections, each with
  any bytes cut in any way. A `REPLICAOF` goes through the manager of `Promotion.lean`: it waits for
  the mutex, stops the old link and joins its thread. A client may stop reading, so that writes to
  it block, or go; a write after that may go through, fail or end the process, as nothing keeps
  `SIGPIPE` off. The output is a reply, with the line that it answers.
* `Answers`: a reply is one line with the byte of its kind, and it is short enough for a reader
  exactly if the command word is not too long to be quoted.
* `ConnOk`: the lines that were read are those that were answered, and the one under way.
  `serviceOk_step`: every step of every party keeps this, and keeps the values words.
* `reply_fits_iff`: which replies a `LineReader` takes however they are cut. `OneReply.lean` is
  about the lines that get one.
-/

namespace TinyKV

open Cpp Text SnapshotManager

/-! ## The machine -/

/-- The other side of a connection. -/
inductive Peer where
  | reads
  /-- It is there, and takes nothing. -/
  | stuck
  | gone
  deriving DecidableEq

/-- What a socket call of a thread comes to. -/
inductive SocketResult where
  | ok
  | failed
  /-- `SIGPIPE` -/
  | killed
  deriving DecidableEq

/-- What a `send` may come to; none of them, if it blocks. -/
def Peer.allows : Peer → SocketResult → Bool
  | .reads, .ok => true
  | .reads, .failed => false
  | .reads, .killed => false
  | .stuck, _ => false
  | .gone, _ => true

/-- Where the thread of a connection is in `handleConnection`. -/
inductive ConnPhase where
  /-- `reader.readLine` -/
  | reading
  /-- The calls of `executor.execute`. -/
  | executing (line : Bytes) (cmd : Command) (rest : CommandProg)
  /-- `execute` has called the replication manager. -/
  | calling (line response : Bytes)
  | recording (line response : Bytes)
  | propagating (line response : Bytes)
  /-- `writeLine` -/
  | writing (line response : Bytes)
  /-- A `SYNC` line: the connection is registered, the dump is next. -/
  | syncing (line : Bytes)
  /-- The read loop of `handleSyncConnection`. -/
  | stream (line : Bytes)
  /-- The thread has left the loop since its client has gone, maybe before the reply to a line. -/
  | dropped (line : Option Bytes)
  /-- `readLine` has returned false at the end of the bytes, or for a line that is too long. -/
  | ended

/-- The line that was read and has no reply. -/
def ConnPhase.pending : ConnPhase → Option Bytes
  | .reading | .ended => none
  | .executing line _ _ | .calling line _ | .recording line _ | .propagating line _
  | .writing line _ | .syncing line | .stream line => some line
  | .dropped line => line

/-- The thread is on its way to a reply. -/
def ConnPhase.answering : ConnPhase → Bool
  | .executing _ _ _ | .calling _ _ | .recording _ _ | .propagating _ _ | .writing _ _ => true
  | .reading | .syncing _ | .stream _ | .dropped _ | .ended => false

structure Conn where
  /-- All that the client sends, as `recv` cuts it. -/
  sent : List Bytes
  /-- The `LineReader`: its buffer, and the chunks that are not received yet. -/
  buffer : Bytes
  chunks : List Bytes
  phase : ConnPhase
  peer : Peer

/-- What the loop does with a line, up to `execute` or the dump. -/
def Server.takeLine (s : Server) (fd : Nat) (now : Now) (line : Bytes) : Server × ConnPhase :=
  if line.isEmpty then (s, .reading)
  else match parse line with
    | .error e => (s, .writing line (Reply.error e.what))
    | .ok cmd =>
      if cmd.type = .SYNC then (s.register fd, .syncing line)
      else if isWriteCommand cmd.type && s.role = .REPLICA then
        (s, .writing line Reply.readOnlyError)
      else (s, .executing line cmd (executeSteps serverWiring now cmd))

/-- The call of the manager that a command makes. -/
def Call.roleCall : Call → Option RoleCall
  | .save => none
  | .replicaOf host port => some (.replicaOf host port)
  | .replicaOfNoOne => some .replicaOfNoOne

/-- The server with its replication manager and the links, its connections, by number, and the key
that the sweeper is about to delete. -/
structure Service extends RoleState where
  conns : Nat → Option Conn
  expiring : Option Bytes
  /-- A signal has ended the process. -/
  dead : Bool

namespace Service

def start (server : Server) : Service := ⟨.start server, fun _ => none, none, false⟩

variable (s : Service)

def setConn (fd : Nat) (conn : Conn) : Service :=
  { s with conns := Function.update s.conns fd (some conn) }

/-- Some registered replica is at the other side like this. -/
def replicaIs (peer : Peer) : Bool :=
  s.server.replicaFds.any fun fd => (s.conns fd).any fun conn => conn.peer = peer

/-- A write to all registered replicas, after which the service is `next`. A write to one that has
gone may fail, which is not looked at. -/
def writeReplicas (r : SocketResult) (next : Service) : Option Service :=
  if s.replicaIs .stuck then none
  else match r with
    | .ok | .failed => some next
    | .killed => if s.replicaIs .gone then some { s with dead := true } else none

/-- A write to the client of a connection; the thread leaves the loop if it fails. -/
def writeClient (fd : Nat) (conn : Conn) (r : SocketResult) (next failed : Service) :
    Option Service :=
  if conn.peer.allows r then
    match r with
    | .ok => some next
    | .failed => some (failed.setConn fd { conn with phase := .dropped conn.phase.pending })
    | .killed => some { s with dead := true }
  else none

/-- `registry().remove(fd)` -/
def unregister (fd : Nat) : Service :=
  { s with server := { s.server with replicaFds := s.server.replicaFds.filter (· ≠ fd) } }

/-- A call of `readLine`, and what the loop does with the line. -/
def readTurn (fd : Nat) (conn : Conn) (now : Now) : Service :=
  match readLine conn.buffer conn.chunks with
  | .line line buffer chunks =>
    let taken := s.server.takeLine fd now line
    { s with server := taken.1 }.setConn fd
      { conn with buffer := buffer, chunks := chunks, phase := taken.2 }
  | .tooLong buffer chunks =>
    s.setConn fd { conn with buffer := buffer, chunks := chunks, phase := .ended }
  | .wait buffer => s.setConn fd { conn with buffer := buffer, chunks := [], phase := .ended }

/-- The next step of the thread of a connection. -/
def turn (fd : Nat) (conn : Conn) (now : Now) (r : SocketResult) : Option Service :=
  match conn.phase with
  | .reading =>
    match r with
    | .ok => some (s.readTurn fd conn now)
    | .failed =>
      if conn.peer = .gone then some (s.setConn fd { conn with phase := .dropped none }) else none
    | .killed => none
  | .executing line cmd (.step act next) =>
    some ({ s with server := { s.server with db := act s.server.db } }.setConn fd
      { conn with phase := .executing line cmd (next s.server.db) })
  | .executing line cmd (.done (response, call)) =>
    match call.bind Call.roleCall with
    | some roleCall =>
      some ({ s with toRoleState := s.goto fd roleCall .entered }.setConn fd
        { conn with phase := .calling line response })
    | none =>
      some ({ s with server := s.server.makeCall call }.setConn fd { conn with
        phase := if logged cmd response then .recording line response
          else .writing line response })
  | .calling line response =>
    match s.callers fd with
    | some (call, stage) =>
      (s.callerStep fd call stage).map fun manager => { s with toRoleState := manager }
    | none => some (s.setConn fd { conn with phase := .writing line response })
  | .recording line response =>
    some ({ s with server := s.server.recordWrite line }.setConn fd
      { conn with phase := .propagating line response })
  | .propagating line response =>
    s.writeReplicas r ({ s with server := s.server.propagate line }.setConn fd
      { conn with phase := .writing line response })
  | .writing _ _ => s.writeClient fd conn r (s.setConn fd { conn with phase := .reading }) s
  | .syncing line =>
    s.writeClient fd conn r
      ({ s with server := s.server.send fd (dumpLines s.server.db.store.forEach) }.setConn fd
        { conn with phase := .stream line })
      (s.unregister fd)
  | .stream line =>
    if conn.peer = .gone then
      some ((s.unregister fd).setConn fd { conn with phase := .dropped (some line) })
    else none
  | .dropped _ | .ended => none

/-- The line that a step answers, with its reply. -/
def answered (conn : Conn) (r : SocketResult) : Option (Bytes × Bytes) :=
  match conn.phase with
  | .writing line response => if r = .ok then some (line, response) else none
  | _ => none

/-- The next step of the thread of a link. -/
def linkStep (i : Nat) (e : LinkEvent) (r : SocketResult) : Option Service :=
  match s.links i with
  | some ⟨host, port, running, some phase⟩ =>
    (runLoop running s.server phase e).bind fun x =>
      let next : Service := { s with
        server := x.1
        links := Function.update s.links i (some ⟨host, port, running, some x.2⟩) }
      match phase with
      | .propagating _ => s.writeReplicas r next
      | _ => some next
  | _ => none

end Service

inductive ServiceAction where
  /-- A client connects; it will send these chunks. -/
  | accept (fd : Nat) (chunks : List Bytes)
  /-- The next step of the thread of a connection. -/
  | turn (fd : Nat) (now : Now) (r : SocketResult)
  /-- The client stops reading, reads again or goes. -/
  | peer (fd : Nat) (peer : Peer)
  /-- A step of the thread of a link. -/
  | link (i : Nat) (e : LinkEvent) (r : SocketResult)
  /-- The sweeper pops the entry `e` and ends its deadline if it is live. -/
  | pop (now : Now) (e : HeapEntry)
  /-- `onExpire`: the sweeper deletes the key. -/
  | expire
  /-- The automatic save. -/
  | save

/-- A reply on a connection, and the line that it answers. -/
structure Answer where
  fd : Nat
  line : Bytes
  reply : Bytes

/-- A step of the process while it is alive. -/
def Service.step (s : Service) : ServiceAction → Option (Service × Option Answer)
  | .accept fd chunks =>
    match s.conns fd with
    | none => some (s.setConn fd ⟨chunks, [], chunks, .reading, .reads⟩, none)
    | some _ => none
  | .turn fd now r =>
    match s.conns fd with
    | none => none
    | some conn =>
      (s.turn fd conn now r).map fun s' =>
        (s', (Service.answered conn r).map fun a => ⟨fd, a.1, a.2⟩)
  | .peer fd peer =>
    match s.conns fd with
    | none => none
    | some conn =>
      if conn.peer = .gone then none
      else some (s.setConn fd { conn with peer := peer }, none)
  | .link i e r => (s.linkStep i e r).map fun s' => (s', none)
  | .pop now e =>
    if s.expiring = none ∧ s.server.db.expiry.IsTop e ∧ e.when ≤ now.ns then
      some ({ s with
        server := { s.server with db :=
          { s.server.db with expiry := (s.server.db.expiry.popTop e).1 } }
        expiring := (s.server.db.expiry.popTop e).2 }, none)
    else none
  | .expire =>
    match s.expiring with
    | none => none
    | some key =>
      some ({ s with
        server := { s.server with db :=
          { s.server.db with store := (s.server.db.store.del key).2 } }
        expiring := none }, none)
  | .save => some ({ s with server := s.server.save }, none)

def serviceMachine : Machine Service ServiceAction (Option Answer) where
  step s a := if s.dead then none else s.step a

/-- The lines of a connection that were answered, in order, with their replies. -/
def answers (fd : Nat) (outs : List (Option Answer)) : List (Bytes × Bytes) :=
  outs.filterMap fun o => o.bind fun a => if a.fd = fd then some (a.line, a.reply) else none

theorem answers_append (fd : Nat) (outs outs' : List (Option Answer)) :
    answers fd (outs ++ outs') = answers fd outs ++ answers fd outs' := List.filterMap_append

/-! ## What holds of a connection -/

/-- The reply may answer the line. -/
structure Answers (line reply : Bytes) : Prop where
  payload : IsPayload reply
  fits : ∀ cmd, parse line = .ok cmd → (reply.length ≤ kMaxLineLength ↔ cmd.Quotable)

def ConnPhase.Ok : ConnPhase → Prop
  | .executing line cmd rest => parse line = .ok cmd ∧ EndsWell cmd rest ∧ rest.Within 3
  | .calling line response | .recording line response | .propagating line response
  | .writing line response => Answers line response
  | .reading | .syncing _ | .stream _ | .dropped _ | .ended => True

/-- The reader of `conn` has returned `taken` so far. -/
def Conn.HasRead (conn : Conn) (taken : List Bytes) : Prop :=
  ∀ n, readLines (taken.length + n) [] conn.sent = taken ++ readLines n conn.buffer conn.chunks

/-- Of the lines that were read and are not empty, all are answered but the one that is pending. -/
structure ConnOk (answered : List (Bytes × Bytes)) (conn : Conn) : Prop where
  lines : ∃ taken, conn.HasRead taken ∧
    answered.map Prod.fst ++ conn.phase.pending.toList = taken.filter fun l => l ≠ []
  answers : ∀ x ∈ answered, Answers x.1 x.2
  phase : conn.phase.Ok
  ended : conn.phase = .ended → ∀ n, readLines n conn.buffer conn.chunks = []

/-- The calls of a line of a primary keep the values words. -/
def LinkPhase.Ok : LinkPhase → Prop
  | .executing _ cmd rest => EndsWell cmd rest
  | _ => True

/-- The threads of the links. -/
def LinksOk (s : RoleState) : Prop :=
  ∀ i link phase, s.links i = some link → link.thread = some phase → phase.Ok

structure ServiceOk (s : Service) (outs : List (Option Answer)) : Prop where
  values : s.server.db.WordValues
  links : LinksOk s.toRoleState
  conns : ∀ fd, match s.conns fd with
    | none => answers fd outs = []
    | some conn => ConnOk (TinyKV.answers fd outs) conn

/-! ## Values -/

theorem wordValues_replayLines {db : Db} (h : db.WordValues) (w : Wiring) (clock : Nat → Now)
    (lines : List Bytes) : (replayLines w clock db lines).WordValues := by
  induction lines generalizing clock db with
  | nil => exact h
  | cons line lines ih =>
    refine ih ?_ _
    unfold replayLine
    split
    · exact h
    · split
      · exact h
      · rename_i cmd hp
        exact wordValues_execute h hp w _

/-- Whatever is in the files. -/
theorem wordValues_start (appendOnly : Bool) (capacity : Nat) (clock : Nat → Now) (disk : Disk) :
    (Server.start appendOnly capacity clock disk).db.WordValues := by
  have hempty : (Db.empty capacity).WordValues := fun k v hk => by cases hk
  have hloaded : (SnapshotManager.loadFromFile serverWiring clock disk
      (Db.empty capacity)).WordValues := by
    unfold SnapshotManager.loadFromFile
    split
    · exact hempty
    · exact wordValues_replayLines hempty _ _ _
  show (PersistenceManager.recover appendOnly serverWiring clock disk _).WordValues
  unfold PersistenceManager.recover
  split
  · exact wordValues_replayLines hloaded _ _ _
  · exact hloaded

/-- A step of the thread of a link. -/
theorem runLoop_ok {running : Bool} {server server' : Server} {phase phase' : LinkPhase}
    {e : LinkEvent} (hdb : server.db.WordValues) (hphase : phase.Ok)
    (h : runLoop running server phase e = some (server', phase')) :
    server'.db.WordValues ∧ phase'.Ok := by
  unfold runLoop at h
  split at h
  · cases h
    refine ⟨hdb, ?_⟩
    split <;> trivial
  · cases h
    refine ⟨hdb, ?_⟩
    split <;> trivial
  · cases h
    refine ⟨hdb, ?_⟩
    split <;> trivial
  · cases h
    exact ⟨hdb, trivial⟩
  · split at h
    · cases h
      exact ⟨hdb, trivial⟩
    · rename_i cmd hp
      split at h
      · cases h
        exact ⟨hdb, endsWell_executeSteps hp _ _⟩
      · cases h
  · cases h
    exact hphase server.db hdb
  · cases h
    refine ⟨hdb, ?_⟩
    split <;> trivial
  · cases h
    exact ⟨hdb, trivial⟩
  · cases h
    exact ⟨hdb, trivial⟩
  · cases h

/-! ## The thread of a connection -/

/-- A reader that has no line gives none. -/
theorem readLines_of_stuck {buffer : Bytes} {chunks : List Bytes} (hcut : cutLine buffer = none)
    (h : chunks = [] ∨ kMaxLineLength < buffer.length) (n : Nat) :
    readLines n buffer chunks = [] := by
  cases n with
  | zero => rfl
  | succ n =>
    unfold readLines
    rcases h with rfl | hlong
    · by_cases hlong : kMaxLineLength < buffer.length <;> simp [readLine, hcut, hlong]
    · cases chunks <;> simp [readLine, hcut, hlong]

theorem readLines_of_not_line {buffer : Bytes} {chunks : List Bytes}
    (h : ∀ l b rest, readLine buffer chunks ≠ .line l b rest) (n : Nat) :
    readLines n buffer chunks = [] := by
  cases n with
  | zero => rfl
  | succ n =>
    unfold readLines
    split
    · rename_i l b rest he
      exact absurd he (h l b rest)
    · rfl
    · rfl

/-- A call of `readLine`. -/
theorem Conn.HasRead.line {conn conn' : Conn} {taken : List Bytes} {line : Bytes}
    (h : conn.HasRead taken) (hsent : conn'.sent = conn.sent)
    (hread : readLine conn.buffer conn.chunks = .line line conn'.buffer conn'.chunks) :
    conn'.HasRead (taken ++ [line]) := by
  intro n
  have hmore := h (n + 1)
  rw [readLines, hread] at hmore
  rw [List.length_append, List.length_singleton, Nat.add_right_comm, Nat.add_assoc, hsent, hmore,
    List.append_assoc]
  rfl

section

variable {conn : Conn} {answered : List (Bytes × Bytes)}

/-- What the loop does with a line: an empty line leads back to the reader, and any other one is
under way to its reply, or starts a replica stream. -/
theorem takeLine_spec (s : Server) (fd : Nat) (now : Now) (line : Bytes) :
    (s.takeLine fd now line).1.db = s.db ∧ (s.takeLine fd now line).2.Ok ∧
      (s.takeLine fd now line).2.pending.toList = [line].filter (fun l => l ≠ []) ∧
      (s.takeLine fd now line).2 ≠ .ended := by
  unfold Server.takeLine
  split
  · rename_i hnil
    rw [List.isEmpty_iff.mp hnil]
    exact ⟨rfl, trivial, rfl, by simp⟩
  · rename_i hnil
    have hne : [line].filter (fun l => l ≠ []) = [line] := by
      simpa using hnil
    rw [hne]
    split
    · rename_i e hp
      refine ⟨rfl, ⟨?_, fun cmd hcmd => ?_⟩, rfl, by simp⟩
      · exact isPayload_parseError hp
      · rw [hp] at hcmd
        cases hcmd
    · rename_i cmd hp
      split
      · exact ⟨rfl, trivial, rfl, by simp⟩
      · split
        · rename_i hro
          rw [Bool.and_eq_true] at hro
          refine ⟨rfl, ⟨isReply_readOnlyError.isPayload, fun cmd' hcmd => ?_⟩, rfl, by simp⟩
          rw [hp] at hcmd
          cases hcmd
          -- A write command is known.
          refine iff_of_true isReply_readOnlyError.short fun hu => ?_
          rw [hu] at hro
          cases hro.1
        · exact ⟨rfl, ⟨hp, endsWell_executeSteps hp _ _, within_executeSteps _ _ _⟩, rfl, by simp⟩

/-- A step that stays with a line. -/
theorem ConnOk.goto (h : ConnOk answered conn) (phase : ConnPhase) (hok : phase.Ok)
    (hpending : phase.pending = conn.phase.pending) (hended : phase ≠ .ended) :
    ConnOk answered { conn with phase := phase } where
  lines := by
    obtain ⟨taken, hread, hlines⟩ := h.lines
    exact ⟨taken, hread, by rw [hpending]; exact hlines⟩
  answers := h.answers
  phase := hok
  ended he := absurd he hended

/-- The reader returns a line. -/
theorem connOk_line (h : ConnOk answered conn) (hphase : conn.phase = .reading)
    {line buffer : Bytes} {chunks : List Bytes}
    (hread : readLine conn.buffer conn.chunks = .line line buffer chunks)
    (s : Server) (fd : Nat) (now : Now) :
    ConnOk answered
      { conn with buffer := buffer, chunks := chunks, phase := (s.takeLine fd now line).2 } := by
  obtain ⟨-, hok, hpending, hended⟩ := takeLine_spec s fd now line
  obtain ⟨taken, htaken, hlines⟩ := h.lines
  refine ⟨⟨taken ++ [line], htaken.line rfl hread, ?_⟩, h.answers, hok, fun he => absurd he hended⟩
  rw [hphase, show ConnPhase.reading.pending = none from rfl, Option.toList_none,
    List.append_nil] at hlines
  rw [hpending, hlines, List.filter_append]

/-- The reader returns false. -/
theorem connOk_end (h : ConnOk answered conn) (hphase : conn.phase = .reading)
    (hnone : ∀ l b rest, readLine conn.buffer conn.chunks ≠ .line l b rest) {buffer : Bytes}
    {chunks : List Bytes} (hcut : cutLine buffer = none)
    (hstuck : chunks = [] ∨ kMaxLineLength < buffer.length) :
    ConnOk answered { conn with buffer := buffer, chunks := chunks, phase := .ended } := by
  obtain ⟨taken, htaken, hlines⟩ := h.lines
  refine ⟨⟨taken, fun n => ?_, ?_⟩, h.answers, trivial, fun _ => readLines_of_stuck hcut hstuck⟩
  · rw [htaken n, readLines_of_not_line hnone, readLines_of_stuck hcut hstuck]
  · rw [hphase] at hlines
    exact hlines

/-- The reply to the line that is under way is written. -/
theorem connOk_reply (h : ConnOk answered conn) {line response : Bytes}
    (hphase : conn.phase = .writing line response) :
    ConnOk (answered ++ [(line, response)]) { conn with phase := .reading } := by
  have hok := h.phase
  rw [hphase] at hok
  obtain ⟨taken, htaken, hlines⟩ := h.lines
  refine ⟨⟨taken, htaken, ?_⟩, fun x hx => ?_, trivial, by simp⟩
  · rw [hphase] at hlines
    rw [← hlines, List.map_append]
    exact List.append_nil _
  · rcases List.mem_append.mp hx with hx | hx
    · exact h.answers x hx
    · cases List.mem_singleton.mp hx
      exact hok

/-- A call of `readLine`. -/
theorem readTurn_ok (h : ConnOk answered conn) (hphase : conn.phase = .reading) (s : Service)
    (fd : Nat) (now : Now) :
    ∃ server conn', s.readTurn fd conn now = { s with server := server }.setConn fd conn' ∧
      server.db = s.server.db ∧ ConnOk answered conn' := by
  have hspec := readLine_spec conn.buffer conn.chunks
  unfold Service.readTurn
  split
  · rename_i line buffer chunks hread
    refine ⟨_, _, rfl, (takeLine_spec s.server fd now line).1, ?_⟩
    exact connOk_line h hphase hread s.server fd now
  · rename_i buffer chunks hread
    rw [hread] at hspec
    obtain ⟨-, -, -, hcut, hlong⟩ := hspec
    exact ⟨s.server, _, rfl, rfl, connOk_end h hphase (by simp [hread]) hcut (.inr hlong)⟩
  · rename_i buffer hread
    rw [hread] at hspec
    obtain ⟨-, hcut⟩ := hspec
    exact ⟨s.server, _, rfl, rfl, connOk_end h hphase (by simp [hread]) hcut (.inl rfl)⟩

end

/-! ## The manager -/

/-- A step of a call of the manager leaves the data and the registry, and the threads of the links,
but for a new one. -/
theorem callerStep_frame {s s' : RoleState} {client : Nat} {call : RoleCall} {stage : CallerStage}
    (hs : s.callerStep client call stage = some s') :
    s'.server.db = s.server.db ∧ s'.server.replicaFds = s.server.replicaFds ∧
      (LinksOk s → LinksOk s') := by
  have hmodify : ∀ i (f : ReplicaLink → ReplicaLink), (∀ link, (f link).thread = link.thread) →
      LinksOk s → ∀ j link phase, (s.modifyLink i f).links j = some link →
        link.thread = some phase → phase.Ok := by
    intro i f hf h j link phase hlink hthread
    simp only [RoleState.modifyLink, Function.update_apply] at hlink
    split at hlink
    · obtain ⟨old, hold, rfl⟩ := Option.map_eq_some_iff.mp hlink
      exact h i old phase hold ((hf old).symm.trans hthread)
    · exact h j link phase hlink hthread
  cases stage with
  | entered =>
    obtain ⟨-, hs⟩ := Option.ite_none_right_eq_some.mp hs
    cases hs
    exact ⟨rfl, rfl, id⟩
  | locked =>
    simp only [RoleState.callerStep] at hs
    split at hs
    all_goals
      cases hs
      exact ⟨rfl, rfl, id⟩
  | stopping i =>
    cases hs
    exact ⟨rfl, rfl, hmodify i _ fun _ => rfl⟩
  | joining i =>
    obtain ⟨-, hs⟩ := Option.ite_none_left_eq_some.mp hs
    cases hs
    exact ⟨rfl, rfl, id⟩
  | joined | unlinked | returning =>
    cases hs
    exact ⟨rfl, rfl, id⟩
  | roleSet =>
    cases call with
    | replicaOf host port =>
      cases hs
      refine ⟨rfl, rfl, fun h j link phase hlink hthread => ?_⟩
      simp only [RoleState.goto, Function.update_apply] at hlink
      split at hlink
      · cases hlink
        cases hthread
      · exact h j link phase hlink hthread
    | replicaOfNoOne =>
      cases hs
      exact ⟨rfl, rfl, id⟩
  | created i =>
    cases hs
    exact ⟨rfl, rfl, hmodify i _ fun _ => rfl⟩
  | starting i =>
    cases hs
    refine ⟨rfl, rfl, fun h j link phase hlink hthread => ?_⟩
    simp only [RoleState.modifyLink, RoleState.goto, Function.update_apply] at hlink
    split at hlink
    · obtain ⟨old, -, rfl⟩ := Option.map_eq_some_iff.mp hlink
      cases hthread
      trivial
    · exact h j link phase hlink hthread

/-! ## The whole service -/

theorem serviceOk_start {server : Server} (h : server.db.WordValues) :
    ServiceOk (.start server) [] where
  values := h
  links _ _ _ hlink := by cases hlink
  conns _ := rfl

section

variable {s s' : Service} {outs : List (Option Answer)} {a : ServiceAction} {o : Option Answer}
  {fd : Nat} {conn conn' : Conn} {now : Now} {r : SocketResult}

/-- One connection has changed, and the answer is on it. -/
theorem ServiceOk.update (h : ServiceOk s outs) (hdb : s'.server.db.WordValues)
    (hlinks : LinksOk s'.toRoleState) (hothers : ∀ fd', fd' ≠ fd → s'.conns fd' = s.conns fd')
    (hself : s'.conns fd = some conn) (x : Option (Bytes × Bytes))
    (hconn : ConnOk (answers fd outs ++ x.toList) conn) :
    ServiceOk s' (outs ++ [x.map fun a => ⟨fd, a.1, a.2⟩]) where
  values := hdb
  links := hlinks
  conns fd' := by
    rw [answers_append]
    by_cases hfd : fd' = fd
    · subst hfd
      have hone : answers fd' [x.map fun a => (⟨fd', a.1, a.2⟩ : Answer)] = x.toList := by
        cases x <;> simp [answers]
      rw [hself, hone]
      exact hconn
    · have hnone : answers fd' [x.map fun a => (⟨fd, a.1, a.2⟩ : Answer)] = [] := by
        cases x <;> simp [answers, Ne.symm hfd]
      rw [hothers fd' hfd, hnone, List.append_nil]
      exact h.conns fd'

/-- The same without an answer, by a thread that may have changed the server. -/
theorem ServiceOk.setConn (h : ServiceOk s outs) {manager : RoleState}
    (hdb : manager.server.db.WordValues) (hlinks : LinksOk manager)
    (hconn : ConnOk (answers fd outs) conn) :
    ServiceOk ({ s with toRoleState := manager }.setConn fd conn) (outs ++ [none]) := by
  refine h.update (x := none) hdb hlinks (fun fd' hfd => Function.update_of_ne hfd _ _)
    (Function.update_self _ _ _) ?_
  rw [Option.toList_none, List.append_nil]
  exact hconn

/-- A step without an answer that leaves the connections. -/
theorem ServiceOk.silent (h : ServiceOk s outs) (hconns : s'.conns = s.conns)
    (hdb : s'.server.db.WordValues) (hlinks : LinksOk s'.toRoleState) :
    ServiceOk s' (outs ++ [none]) where
  values := hdb
  links := hlinks
  conns fd := by
    rw [hconns, answers_append, show answers fd [none] = [] from rfl, List.append_nil]
    exact h.conns fd

/-- What a write to the client of a connection comes to. -/
theorem writeClient_eq_some {next failed : Service}
    (hs : s.writeClient fd conn r next failed = some s') :
    r = .ok ∧ s' = next ∨
      conn.peer = .gone ∧
        (r = .failed ∧ s' = failed.setConn fd { conn with phase := .dropped conn.phase.pending } ∨
          r = .killed ∧ s' = { s with dead := true }) := by
  obtain ⟨hallows, hs⟩ := Option.ite_none_right_eq_some.mp hs
  have hgone : r ≠ .ok → conn.peer = .gone := by
    intro hr
    cases hpeer : conn.peer with
    | gone => rfl
    | reads | stuck =>
      rw [hpeer] at hallows
      cases r with
      | ok => exact absurd rfl hr
      | failed | killed => cases hallows
  cases r with
  | ok =>
    cases hs
    exact .inl ⟨rfl, rfl⟩
  | failed =>
    cases hs
    exact .inr ⟨hgone (by rintro ⟨⟩), .inl ⟨rfl, rfl⟩⟩
  | killed =>
    cases hs
    exact .inr ⟨hgone (by rintro ⟨⟩), .inr ⟨rfl, rfl⟩⟩

theorem writeReplicas_eq_some {next : Service} (hs : s.writeReplicas r next = some s') :
    s.replicaIs .stuck = false ∧
      (r ≠ .killed ∧ s' = next ∨ r = .killed ∧ s' = { s with dead := true }) := by
  obtain ⟨hstuck, hs⟩ := Option.ite_none_left_eq_some.mp hs
  refine ⟨Bool.eq_false_iff.mpr hstuck, ?_⟩
  cases r with
  | ok | failed =>
    cases hs
    exact .inl ⟨by rintro ⟨⟩, rfl⟩
  | killed =>
    obtain ⟨-, hs⟩ := Option.ite_none_right_eq_some.mp hs
    cases hs
    exact .inr ⟨rfl, rfl⟩

/-- **A turn of a thread** keeps the service in order. -/
theorem turn_ok (h : ServiceOk s outs) (hconn : s.conns fd = some conn)
    (hs : s.turn fd conn now r = some s') :
    ServiceOk s' (outs ++ [(Service.answered conn r).map fun a => ⟨fd, a.1, a.2⟩]) := by
  have hold := h.conns fd
  rw [hconn] at hold
  have hok := hold.phase
  unfold Service.turn at hs
  unfold Service.answered
  cases hphase : conn.phase with
  | reading =>
    rw [hphase] at hs
    cases r with
    | ok =>
      cases hs
      obtain ⟨server, conn', hread, hdb, hnew⟩ := readTurn_ok hold hphase s fd now
      rw [hread]
      exact h.setConn (hdb ▸ h.values) h.links hnew
    | failed =>
      obtain ⟨-, hs⟩ := Option.ite_none_right_eq_some.mp hs
      cases hs
      exact h.setConn h.values h.links
        (hold.goto (.dropped none) trivial (by rw [hphase]; rfl) nofun)
    | killed => cases hs
  | executing line cmd rest =>
    rw [hphase] at hs hok
    cases rest with
    | step act next =>
      cases hs
      obtain ⟨hp, hends, hwithin⟩ := hok
      obtain ⟨hkept, hnext⟩ := hends s.server.db h.values
      exact h.setConn hkept h.links (hold.goto (.executing line cmd (next s.server.db))
        ⟨hp, hnext, (hwithin.2 s.server.db).mono (by decide)⟩ (by rw [hphase]; rfl) nofun)
    | done x =>
      obtain ⟨response, call⟩ := x
      obtain ⟨hp, ⟨hpayload, hfits⟩, -⟩ := hok
      have hans : Answers line response := ⟨hpayload, fun cmd' hp' => by
        rw [hp] at hp'
        cases hp'
        exact hfits⟩
      dsimp only at hs
      cases hcall : call.bind Call.roleCall with
      | some roleCall =>
        rw [hcall] at hs
        cases hs
        exact h.setConn h.values h.links
          (hold.goto (.calling line response) hans (by rw [hphase]; rfl) nofun)
      | none =>
        rw [hcall] at hs
        cases hs
        refine h.setConn ?_ h.links (hold.goto _ ?_ ?_ ?_)
        · show (s.server.makeCall call).db.WordValues
          rw [Server.makeCall_db]
          exact h.values
        · split <;> exact hans
        · rw [hphase]
          split <;> rfl
        · split <;> nofun
  | calling line response =>
    rw [hphase] at hs hok
    dsimp only at hs
    split at hs
    · obtain ⟨manager, hstep, rfl⟩ := Option.map_eq_some_iff.mp hs
      obtain ⟨hdb, -, hlinks⟩ := callerStep_frame hstep
      exact h.silent rfl (show manager.server.db.WordValues from hdb ▸ h.values) (hlinks h.links)
    · cases hs
      exact h.setConn h.values h.links
        (hold.goto (.writing line response) hok (by rw [hphase]; rfl) nofun)
  | recording line response =>
    rw [hphase] at hs hok
    cases hs
    exact h.setConn h.values h.links
      (hold.goto (.propagating line response) hok (by rw [hphase]; rfl) nofun)
  | propagating line response =>
    rw [hphase] at hs hok
    obtain ⟨-, ⟨-, rfl⟩ | ⟨-, rfl⟩⟩ := writeReplicas_eq_some hs
    · exact h.setConn h.values h.links
        (hold.goto (.writing line response) hok (by rw [hphase]; rfl) nofun)
    · exact h.silent rfl h.values h.links
  | writing line response =>
    rw [hphase] at hs
    obtain ⟨rfl, rfl⟩ | ⟨-, ⟨rfl, rfl⟩ | ⟨rfl, rfl⟩⟩ := writeClient_eq_some hs
    · refine h.update ?_ ?_ ?_ ?_ (some (line, response)) (connOk_reply hold hphase)
      · exact h.values
      · exact h.links
      · exact fun fd' hfd => Function.update_of_ne hfd _ _
      · exact Function.update_self _ _ _
    · exact h.setConn h.values h.links
        (hold.goto (.dropped conn.phase.pending) trivial rfl nofun)
    · exact h.silent rfl h.values h.links
  | syncing line =>
    rw [hphase] at hs
    obtain ⟨rfl, rfl⟩ | ⟨-, ⟨rfl, rfl⟩ | ⟨rfl, rfl⟩⟩ := writeClient_eq_some hs
    · exact h.setConn h.values h.links
        (hold.goto (.stream line) trivial (by rw [hphase]; rfl) nofun)
    · exact h.setConn h.values h.links
        (hold.goto (.dropped conn.phase.pending) trivial rfl nofun)
    · exact h.silent rfl h.values h.links
  | stream line =>
    rw [hphase] at hs
    obtain ⟨-, hs⟩ := Option.ite_none_right_eq_some.mp hs
    cases hs
    exact h.setConn h.values h.links
      (hold.goto (.dropped (some line)) trivial (by rw [hphase]; rfl) nofun)
  | dropped | ended =>
    rw [hphase] at hs
    cases hs

/-- What a step of the thread of a link does. -/
theorem linkStep_eq_some {i : Nat} {e : LinkEvent} (hs : s.linkStep i e r = some s') :
    r = .killed ∧ s' = { s with dead := true } ∨
      ∃ link phase server phase', s.links i = some link ∧ link.thread = some phase ∧
        runLoop link.running s.server phase e = some (server, phase') ∧
        s' = { s with
          server := server
          links := Function.update s.links i (some { link with thread := some phase' }) } := by
  unfold Service.linkStep at hs
  split at hs
  · rename_i host port running phase hlink
    obtain ⟨⟨server, phase'⟩, hrun, hs⟩ := Option.bind_eq_some_iff.mp hs
    dsimp only at hs
    split at hs
    · obtain ⟨-, ⟨-, rfl⟩ | ⟨rfl, rfl⟩⟩ := writeReplicas_eq_some hs
      · exact .inr ⟨_, _, server, phase', hlink, rfl, hrun, rfl⟩
      · exact .inl ⟨rfl, rfl⟩
    · cases hs
      exact .inr ⟨_, _, server, phase', hlink, rfl, hrun, rfl⟩
  · cases hs

/-- A step of the thread of a link. -/
theorem linkStep_ok (h : ServiceOk s outs) {i : Nat} {e : LinkEvent}
    (hs : s.linkStep i e r = some s') : ServiceOk s' (outs ++ [none]) := by
  obtain ⟨-, rfl⟩ | ⟨link, phase, server, phase', hlink, hthread, hrun, rfl⟩ := linkStep_eq_some hs
  · exact h.silent rfl h.values h.links
  · obtain ⟨hdb, hphase⟩ := runLoop_ok h.values (h.links i _ _ hlink hthread) hrun
    refine h.silent rfl hdb fun j link₁ phase₁ hj hthread₁ => ?_
    simp only [Function.update_apply] at hj
    split at hj
    · cases hj
      cases hthread₁
      exact hphase
    · exact h.links j link₁ phase₁ hj hthread₁

/-- **Step.** Every step of every party keeps the service in order. -/
theorem serviceOk_step (h : ServiceOk s outs) (hs : serviceMachine.step s a = some (s', o)) :
    ServiceOk s' (outs ++ [o]) := by
  obtain ⟨-, hs⟩ := Option.ite_none_left_eq_some.mp hs
  cases a with
  | accept fd chunks =>
    simp only [Service.step] at hs
    split at hs
    · rename_i hfd
      cases hs
      have hnone := h.conns fd
      rw [hfd] at hnone
      refine h.setConn h.values h.links ?_
      rw [hnone]
      exact ⟨⟨[], fun n => by rw [List.length_nil, Nat.zero_add, List.nil_append], rfl⟩, by simp,
        trivial, by simp⟩
    · cases hs
  | turn fd now r =>
    simp only [Service.step] at hs
    split at hs
    · cases hs
    · rename_i conn hfd
      obtain ⟨t, hturn, heq⟩ := Option.map_eq_some_iff.mp hs
      cases heq
      exact turn_ok h hfd hturn
  | peer fd peer =>
    simp only [Service.step] at hs
    split at hs
    · cases hs
    · rename_i conn hfd
      obtain ⟨-, hs⟩ := Option.ite_none_left_eq_some.mp hs
      cases hs
      have hconn := h.conns fd
      rw [hfd] at hconn
      exact h.setConn h.values h.links
        ⟨hconn.lines, hconn.answers, hconn.phase, hconn.ended⟩
  | link i e r =>
    obtain ⟨t, hlink, heq⟩ := Option.map_eq_some_iff.mp hs
    cases heq
    exact linkStep_ok h hlink
  | pop now e =>
    obtain ⟨-, hs⟩ := Option.ite_none_right_eq_some.mp hs
    cases hs
    exact h.silent rfl h.values h.links
  | expire =>
    simp only [Service.step] at hs
    split at hs
    · cases hs
    · cases hs
      exact h.silent rfl h.values.del h.links
  | save =>
    cases hs
    exact h.silent rfl h.values h.links

end

/-- **Run.** The service is in order after every run. -/
theorem serviceOk_run {server : Server} (hdb : server.db.WordValues) {acts : List ServiceAction}
    {t : Service} {outs : List (Option Answer)}
    (hrun : serviceMachine.run (.start server) acts = some (t, outs)) : ServiceOk t outs :=
  Machine.run_history (C := fun _ _ => True) (I := fun t _ outs => ServiceOk t outs)
    (fun _ _ _ _ _ _ _ h _ hs => serviceOk_step h hs) (Machine.along_true _ _) hrun
    (serviceOk_start hdb)

/-- Two clients of a fresh server, whose lines interleave. -/
def twoClients : List ServiceAction :=
  [.accept 5 [ascii "SET k v" ++ [newline] ++ ascii "GE", ascii "T k" ++ [cr, newline, newline]],
    .accept 6 [ascii "DEL k" ++ [newline]]] ++
    List.replicate 7 (.turn 5 .epoch .ok) ++ [.turn 6 .epoch .ok] ++
    List.replicate 2 (.turn 5 .epoch .ok) ++ List.replicate 6 (.turn 6 .epoch .ok) ++ List.replicate 4 (.turn 5 .epoch .ok)

theorem run_twoClients :
    ∃ t outs conn, serviceMachine.run (.start (Server.start true 0 (fun _ => .epoch) .empty))
        twoClients = some (t, outs) ∧ t.conns 5 = some conn ∧
      answers 5 outs = [(ascii "SET k v", Reply.ok), (ascii "GET k", Reply.bulk (ascii "v"))] ∧
      answers 6 outs = [(ascii "DEL k", Reply.integer 1)] := by
  have hend : ((serviceMachine.run (.start (Server.start true 0 (fun _ => .epoch) .empty))
      twoClients).map fun x => (answers 5 x.2, answers 6 x.2, (x.1.conns 5).isSome)) =
      some ([(ascii "SET k v", Reply.ok), (ascii "GET k", Reply.bulk (ascii "v"))],
        [(ascii "DEL k", Reply.integer 1)], true) := by
    decide +kernel
  obtain ⟨⟨t, outs⟩, hrun, heq⟩ := Option.map_eq_some_iff.mp hend
  obtain ⟨h5, h6, hconn⟩ : answers 5 outs = _ ∧ answers 6 outs = _ ∧ (t.conns 5).isSome = true := by
    simpa only [Prod.mk.injEq] using heq
  obtain ⟨conn, hconn⟩ := Option.isSome_iff_exists.mp hconn
  exact ⟨t, outs, conn, hrun, hconn, h5, h6⟩

/-! ## Replies and the limit of the reader -/

/-- A reader takes the reply however it is cut exactly if it is no longer than the limit. -/
theorem Answers.readWhole_iff {line reply : Bytes} (h : Answers line reply) {cmd : Command}
    (hp : parse line = .ok cmd) :
    (reply.length ≤ kMaxLineLength ↔ cmd.Quotable) ∧ (ReadWhole reply ↔ cmd.Quotable) := by
  refine ⟨h.fits cmd hp, (TinyKV.readWhole_iff h.payload.oneLine ?_).trans (h.fits cmd hp)⟩
  exact fun hcr => h.payload.noCr (List.mem_of_getLast? hcr)

/-- The reply to a line that comes alone. -/
theorem answers_handleLine {s : Server} (hdb : s.db.WordValues) {line : Bytes} {cmd : Command}
    (hp : parse line = .ok cmd) (hsync : cmd.type ≠ .SYNC) (fd : Nat) (now : Now) :
    ∃ s' reply, s.handleLine fd now line = (s', .reply reply) ∧ Answers line reply := by
  have hcmd : ∀ {P : Command → Prop}, P cmd → ∀ cmd', parse line = .ok cmd' → P cmd' := by
    intro P h cmd' hp'
    rw [hp] at hp'
    cases hp'
    exact h
  rw [s.handleLine_of_parse hp, if_neg hsync]
  split
  · rename_i hro
    rw [Bool.and_eq_true] at hro
    refine ⟨s, _, rfl, isReply_readOnlyError.isPayload, hcmd ?_⟩
    refine iff_of_true isReply_readOnlyError.short fun hu => ?_
    rw [hu] at hro
    cases hro.1
  · have hends := ((endsWell_executeSteps hp serverWiring now).run hdb).2
    rw [run_executeSteps] at hends
    exact ⟨_, _, rfl, hends.1, hcmd hends.2⟩

/-- **Replies that can be received.** In every run of a server that started from any files, the
reply to a line that parses has at most 8192 bytes, and a reader takes it however it is cut, exactly
if the line is no unknown command whose word is longer than 8169 bytes. So it is for the lines that
the connections have answered, and for any line in the state that is reached. -/
theorem reply_fits_iff (appendOnly : Bool) (capacity : Nat) (clock : Nat → Now) (disk : Disk)
    {acts : List ServiceAction} {t : Service} {outs : List (Option Answer)}
    (hrun : serviceMachine.run (.start (Server.start appendOnly capacity clock disk)) acts =
      some (t, outs)) :
    (∀ fd line reply cmd, (line, reply) ∈ answers fd outs → parse line = .ok cmd →
      (reply.length ≤ kMaxLineLength ↔ cmd.Quotable) ∧ (ReadWhole reply ↔ cmd.Quotable)) ∧
    ∀ fd now line cmd, parse line = .ok cmd → cmd.type ≠ .SYNC →
      ∃ s' reply, t.server.handleLine fd now line = (s', .reply reply) ∧
        (reply.length ≤ kMaxLineLength ↔ cmd.Quotable) ∧ (ReadWhole reply ↔ cmd.Quotable) := by
  have hok := serviceOk_run (wordValues_start appendOnly capacity clock disk) hrun
  constructor
  · intro fd line reply cmd hmem hp
    have hconn := hok.conns fd
    split at hconn
    · rw [hconn] at hmem
      cases hmem
    · exact (hconn.answers _ hmem).readWhole_iff hp
  · intro fd now line cmd hp hsync
    obtain ⟨s', reply, hline, hans⟩ := answers_handleLine hok.values hp hsync fd now
    exact ⟨s', reply, hline, hans.readWhole_iff hp⟩

theorem reply_fits_iff_twoClients : ReadWhole (Reply.bulk (ascii "v")) := by
  obtain ⟨t, outs, conn, hrun, -, h5, -⟩ := run_twoClients
  obtain ⟨hanswers, -⟩ := reply_fits_iff true 0 (fun _ => .epoch) .empty hrun
  exact (hanswers 5 (ascii "GET k") _ ⟨.GET, ascii "GET", [ascii "k"]⟩ (by rw [h5]; simp)
    (by decide +kernel)).2.mpr fun hu => by cases hu

/-- A command word of 8170 bytes. -/
def longWord : Bytes := List.replicate 8170 120

theorem parse_longWord : parse longWord = .ok ⟨.UNKNOWN, longWord, []⟩ := by
  have hword : IsWord isspace longWord := by
    refine ⟨List.ne_nil_of_length_pos ?_, fun c hc => ?_⟩
    · rw [longWord, List.length_replicate]
      omega
    · rw [(List.mem_replicate.mp hc).2]
      decide
  have htype : commandTypeFromName longWord = .UNKNOWN := by
    by_contra hknown
    have hlen := length_name_le hknown
    rw [longWord, List.length_replicate] at hlen
    omega
  refine parse_eq_ok.mpr ⟨?_, longWord, [], hword.words_eq, by rw [htype]⟩
  rw [longWord, List.length_replicate, kMaxLineLength]
  omega

/-- The error for it is longer than 8192 bytes. -/
theorem not_reply_fits_longWord :
    ¬ ∀ (appendOnly : Bool) (capacity : Nat) (clock : Nat → Now) (disk : Disk)
      (acts : List ServiceAction) (t : Service) (outs : List (Option Answer)),
      serviceMachine.run (.start (Server.start appendOnly capacity clock disk)) acts =
        some (t, outs) →
      ∀ fd now line cmd s' reply, parse line = .ok cmd → cmd.type ≠ .SYNC →
        t.server.handleLine fd now line = (s', .reply reply) → reply.length ≤ kMaxLineLength := by
  intro h
  have hline : freshServer.handleLine 5 .epoch longWord =
      (freshServer, .reply (unknownError longWord)) := by
    simp only [Server.handleLine, parse_longWord]
    rfl
  have hshort := h true 0 (fun _ => .epoch) .empty [] _ [] rfl 5 .epoch longWord _ _ _
    parse_longWord (by simp) hline
  rw [length_unknownError, longWord, List.length_replicate, kMaxLineLength] at hshort
  omega

end TinyKV
