import TinyKV.Sharding.Transparency
import TinyKV.Lib.Linearizability

/-!
# Many clients of the router

`Router::handleConnection` in `src/sharding/router.cpp` runs in a thread for each client. The
threads share the connection to a shard, and `forward` holds `backend.mutex` from the look at the
connection until the reply is there. In between, threads with lines for other shards go on, and the
servers handle lines in their own time.

* `clientsMachine`: any number of threads, a step at a time. `forward_alone`: the steps of a thread
  that nobody disturbs are `Cluster.forward`.
* `Clients.settled`: the cluster with the replies that are on their way taken off; it is in lock
  step (`Lockstep.lean`), whatever the threads are in the middle of.
* `ClientsInv`: the invariant, with a lemma for each kind of step.
* `serverSpec`: a line at one server that holds all keys.
* `router_linearizable`: the history of the clients has a linearization at the one server.

As in `Transparency.lean`, the lines are commands on keys, the topology stays, no connection
breaks and no deadline is reached.
-/

namespace TinyKV

open Cpp Text

/-! ## The threads -/

/-- Where the thread of a client is with a line. -/
inductive RouterPhase where
  /-- `forward` has the address and waits for the mutex. -/
  | waiting
  | locked
  | connected
  /-- The line is sent, and the server has not handled it. -/
  | sent
  | served
  /-- `writeLine(clientFd, response)` -/
  | answered (response : Bytes)
  deriving DecidableEq

structure RouterThread where
  /-- The clock reading of the server that handles the line. -/
  now : Now
  line : Line
  shardId : Bytes
  /-- What `activeAddressFor` returned. -/
  address : Bytes
  phase : RouterPhase

/-- The cluster with the threads of the router. -/
structure Clients where
  cluster : Cluster
  /-- The thread that holds `backend.mutex` of a shard. -/
  owner : Bytes → Option Nat
  threads : Nat → Option RouterThread

def Clients.start (topology : ShardTopology) (servers : Bytes → Option Server) (nextFd : Nat) :
    Clients where
  cluster := Cluster.start topology servers nextFd
  owner := fun _ => none
  threads := fun _ => none

inductive ClientAction where
  /-- A client sends a line. -/
  | begin (t : Nat) (now : Now) (line : Line)
  | lock (t : Nat)
  /-- The look at the connection, which may open one. -/
  | connect (t : Nat)
  | send (t : Nat)
  /-- The server of the connection handles the line, which came in these chunks. -/
  | serve (t : Nat) (request : Chunking)
  | receive (t : Nat) (reply : Chunking)
  /-- The client gets its reply. -/
  | reply (t : Nat)

/-- The reply of `handleConnection` if `forward` fails. -/
def unavailable (shardId : Bytes) : Bytes :=
  Reply.error (ascii "shard " ++ shardId ++ ascii " unavailable")

namespace Clients

variable (s : Clients)

/-- The thread is at a phase. -/
def goto (t : Nat) (th : RouterThread) (phase : RouterPhase) : Clients :=
  { s with threads := Function.update s.threads t (some { th with phase := phase }) }

/-- `forward` returns and gives the mutex back. -/
def finish (t : Nat) (th : RouterThread) (c : Cluster) (response : Bytes) : Clients :=
  { s with
    cluster := c
    owner := Function.update s.owner th.shardId none
    threads := Function.update s.threads t (some { th with phase := .answered response }) }

/-- `handleConnection` up to the wait for a mutex, or with an answer of the router itself. -/
def beginLine (t : Nat) (now : Now) (line : Line) : Clients :=
  let idle : RouterThread := ⟨now, line, [], [], .waiting⟩
  if line.1.isEmpty then s
  else match parse line.1 with
    | .error e => s.goto t idle (.answered (Reply.error e.what))
    | .ok cmd =>
      match s.cluster.route cmd with
      | none => s.goto t idle (.answered (s.cluster.answer cmd))
      | some shardId =>
        let address := s.cluster.topology.activeAddressFor shardId
        if address.isEmpty then s.goto t idle (.answered (unavailable shardId))
        else s.goto t ⟨now, line, shardId, address, .waiting⟩ .waiting

/-- `forward` from the look at the connection up to `sendLine`. -/
def openConnection (t : Nat) (th : RouterThread) : Clients :=
  let b := s.cluster.backends th.shardId
  let b := if b.address ≠ th.address then { b with address := th.address, conn := none } else b
  match s.cluster.connect b th.address with
  | none => s.finish t th (s.cluster.setBackend th.shardId b) (unavailable th.shardId)
  | some (c, conn) =>
    { s with cluster := c.setBackend th.shardId { b with conn := some conn } }.goto t th .connected

def sendLine (t : Nat) (th : RouterThread) (conn : Connection) : Clients :=
  let b := s.cluster.backends th.shardId
  match s.cluster.servers conn.peer with
  | none =>
    s.finish t th (s.cluster.setBackend th.shardId { b with conn := none }) (unavailable th.shardId)
  | some _ => s.goto t th .sent

/-- The turn of the server. -/
def serveLine (t : Nat) (th : RouterThread) (conn : Connection) (server : Server)
    (request : Chunking) : Clients :=
  let r := Cluster.serve server conn th.now request th.line.1
  let b := s.cluster.backends th.shardId
  let c := { s.cluster with
    servers := Function.update s.cluster.servers conn.peer (some r.1) }
  { s with cluster := c.setBackend th.shardId { b with conn := some r.2 } }.goto t th .served

def receiveLine (t : Nat) (th : RouterThread) (conn : Connection) (server : Server)
    (reply : Chunking) : Option Clients :=
  let b := s.cluster.backends th.shardId
  let bytes := Cluster.available server conn
  match readLine b.buffer (reply.cut bytes) with
  | .line response buffer rest =>
    let conn := { conn with taken := conn.taken + (bytes.length - rest.flatten.length) }
    some (s.finish t th
      (s.cluster.setBackend th.shardId { b with conn := some conn, buffer := buffer }) response)
  | .tooLong buffer _ =>
    some (s.finish t th (s.cluster.setBackend th.shardId { b with conn := none, buffer := buffer })
      (unavailable th.shardId))
  | .wait _ => none -- `recv` blocks.

/-- The connection of the shard of a thread, and the server behind it. -/
def link (th : RouterThread) : Option (Connection × Server) :=
  (s.cluster.backends th.shardId).conn.bind fun conn =>
    (s.cluster.servers conn.peer).map fun server => (conn, server)

/-- The thread, if it is at a phase. -/
def threadAt (t : Nat) (phase : RouterPhase) : Option RouterThread :=
  (s.threads t).filter fun th => th.phase = phase

end Clients

/-- The router with its clients. The output is a reply, with the client that gets it. -/
def clientsMachine : Machine Clients ClientAction (Option (Nat × Bytes)) where
  step s
    | .begin t now line =>
      match s.threads t with
      | none => some (s.beginLine t now line, none)
      | some _ => none
    | .lock t => (s.threadAt t .waiting).bind fun th =>
      if s.owner th.shardId = none then
        let s := { s with owner := Function.update s.owner th.shardId (some t) }
        some (s.goto t th .locked, none)
      else none
    | .connect t => (s.threadAt t .locked).map fun th => (s.openConnection t th, none)
    | .send t => (s.threadAt t .connected).bind fun th =>
      (s.cluster.backends th.shardId).conn.map fun conn => (s.sendLine t th conn, none)
    | .serve t request => (s.threadAt t .sent).bind fun th =>
      (s.link th).map fun l => (s.serveLine t th l.1 l.2 request, none)
    | .receive t reply => (s.threadAt t .served).bind fun th =>
      (s.link th).bind fun l => (s.receiveLine t th l.1 l.2 reply).map fun s' => (s', none)
    | .reply t => (s.threads t).bind fun th =>
      match th.phase with
      | .answered response =>
        some ({ s with threads := Function.update s.threads t none }, some (t, response))
      | _ => none

/-! ## What a step can do -/

theorem threadAt_eq_some {s : Clients} {t : Nat} {phase : RouterPhase} {th : RouterThread} :
    s.threadAt t phase = some th ↔ s.threads t = some th ∧ th.phase = phase := by
  rw [Clients.threadAt, Option.filter_eq_some_iff, decide_eq_true_eq]

theorem link_eq_some {s : Clients} {th : RouterThread} {conn : Connection} {server : Server} :
    s.link th = some (conn, server) ↔
      (s.cluster.backends th.shardId).conn = some conn ∧
        s.cluster.servers conn.peer = some server := by
  unfold Clients.link
  constructor
  · intro h
    obtain ⟨conn', hconn, hserver⟩ := Option.bind_eq_some_iff.mp h
    obtain ⟨server', hs, heq⟩ := Option.map_eq_some_iff.mp hserver
    cases heq
    exact ⟨hconn, hs⟩
  · rintro ⟨hconn, hs⟩
    rw [hconn, Option.bind_some, hs]
    rfl

/-- A step of a thread is one at its phase. -/
theorem clients_step {s s' : Clients} {a : ClientAction} {o : Option (Nat × Bytes)}
    (hs : clientsMachine.step s a = some (s', o)) :
    match a with
    | .begin t now line => s.threads t = none ∧ o = none ∧ s' = s.beginLine t now line
    | .lock t => ∃ th, s.threads t = some th ∧ th.phase = .waiting ∧ s.owner th.shardId = none ∧
        o = none ∧
        s' = { s with owner := Function.update s.owner th.shardId (some t) }.goto t th .locked
    | .connect t => ∃ th, s.threads t = some th ∧ th.phase = .locked ∧ o = none ∧
        s' = s.openConnection t th
    | .send t => ∃ th conn, s.threads t = some th ∧ th.phase = .connected ∧
        (s.cluster.backends th.shardId).conn = some conn ∧ o = none ∧ s' = s.sendLine t th conn
    | .serve t request => ∃ th conn server, s.threads t = some th ∧ th.phase = .sent ∧
        (s.cluster.backends th.shardId).conn = some conn ∧
        s.cluster.servers conn.peer = some server ∧ o = none ∧
        s' = s.serveLine t th conn server request
    | .receive t reply => ∃ th conn server, s.threads t = some th ∧ th.phase = .served ∧
        (s.cluster.backends th.shardId).conn = some conn ∧
        s.cluster.servers conn.peer = some server ∧ o = none ∧
        s.receiveLine t th conn server reply = some s'
    | .reply t => ∃ th response, s.threads t = some th ∧ th.phase = .answered response ∧
        o = some (t, response) ∧ s' = { s with threads := Function.update s.threads t none } := by
  cases a with
  | begin t now line =>
    simp only [clientsMachine] at hs
    split at hs
    · rename_i ht
      cases hs
      exact ⟨ht, rfl, rfl⟩
    · cases hs
  | lock t =>
    obtain ⟨th, ht, hs⟩ := Option.bind_eq_some_iff.mp hs
    obtain ⟨hth, hphase⟩ := threadAt_eq_some.mp ht
    split at hs
    · rename_i howner
      cases hs
      exact ⟨th, hth, hphase, howner, rfl, rfl⟩
    · cases hs
  | connect t =>
    obtain ⟨th, ht, heq⟩ := Option.map_eq_some_iff.mp hs
    obtain ⟨hth, hphase⟩ := threadAt_eq_some.mp ht
    cases heq
    exact ⟨th, hth, hphase, rfl, rfl⟩
  | send t =>
    obtain ⟨th, ht, hs⟩ := Option.bind_eq_some_iff.mp hs
    obtain ⟨hth, hphase⟩ := threadAt_eq_some.mp ht
    obtain ⟨conn, hconn, heq⟩ := Option.map_eq_some_iff.mp hs
    cases heq
    exact ⟨th, conn, hth, hphase, hconn, rfl, rfl⟩
  | serve t request =>
    obtain ⟨th, ht, hs⟩ := Option.bind_eq_some_iff.mp hs
    obtain ⟨hth, hphase⟩ := threadAt_eq_some.mp ht
    obtain ⟨⟨conn, server⟩, hl, heq⟩ := Option.map_eq_some_iff.mp hs
    obtain ⟨hconn, hserver⟩ := link_eq_some.mp hl
    cases heq
    exact ⟨th, conn, server, hth, hphase, hconn, hserver, rfl, rfl⟩
  | receive t reply =>
    obtain ⟨th, ht, hs⟩ := Option.bind_eq_some_iff.mp hs
    obtain ⟨hth, hphase⟩ := threadAt_eq_some.mp ht
    obtain ⟨⟨conn, server⟩, hl, hs⟩ := Option.bind_eq_some_iff.mp hs
    obtain ⟨hconn, hserver⟩ := link_eq_some.mp hl
    obtain ⟨s₁, hr, heq⟩ := Option.map_eq_some_iff.mp hs
    cases heq
    exact ⟨th, conn, server, hth, hphase, hconn, hserver, rfl, hr⟩
  | reply t =>
    obtain ⟨th, hth, hs⟩ := Option.bind_eq_some_iff.mp hs
    split at hs
    · rename_i response hphase
      cases hs
      exact ⟨th, response, hth, hphase, rfl, rfl⟩
    · cases hs

/-! ## A thread alone -/

theorem serve_peer (server : Server) (conn : Connection) (now : Now) (request : Chunking)
    (line : Bytes) : (Cluster.serve server conn now request line).2.peer = conn.peer := by
  unfold Cluster.serve
  repeat' split
  all_goals rfl

/-- A thread that no other thread and no server disturbs does what `Cluster.forward` does. -/
theorem forward_alone {s : Clients} {t : Nat} {th : RouterThread} (hth : s.threads t = some th)
    (hphase : th.phase = .waiting) (howner : s.owner th.shardId = none)
    (haddress : th.address = s.cluster.topology.activeAddressFor th.shardId)
    {request reply : Chunking} {joins : Bool} {c : Cluster} {response : Bytes}
    (hf : s.cluster.forward th.shardId th.now request reply joins th.line.1 =
      some (c, some response)) :
    clientsMachine.run s [.lock t, .connect t, .send t, .serve t request, .receive t reply] =
      some (s.finish t th c response, List.replicate 5 none) := by
  obtain ⟨now, line, id, address, phase⟩ := th
  dsimp only at hphase haddress howner
  subst hphase haddress
  unfold Cluster.forward at hf
  dsimp only at hf
  generalize hb : (if (s.cluster.backends id).address ≠ s.cluster.topology.activeAddressFor id then
    { s.cluster.backends id with
      address := s.cluster.topology.activeAddressFor id, conn := none }
    else s.cluster.backends id) = b at hf
  split at hf
  · cases hf
  cases hconnect : s.cluster.connect b (s.cluster.topology.activeAddressFor id) with
  | none =>
    rw [hconnect] at hf
    cases hf
  | some x =>
    obtain ⟨c₁, conn⟩ := x
    rw [hconnect] at hf
    dsimp only at hf
    unfold Cluster.exchange at hf
    cases hserver : c₁.servers conn.peer with
    | none =>
      rw [hserver] at hf
      cases hf
    | some server =>
      rw [hserver] at hf
      dsimp only at hf
      obtain ⟨-, hf⟩ := Option.ite_none_left_eq_some.mp hf
      generalize hserve : Cluster.serve server conn now request line.1 = r at hf
      have hpeer : r.2.peer = conn.peer := by rw [← hserve]; exact serve_peer _ _ _ _ _
      cases hread : readLine b.buffer (reply.cut (Cluster.available r.1 r.2)) with
      | wait buffer =>
        rw [hread] at hf
        cases hf
      | tooLong buffer rest =>
        rw [hread] at hf
        cases hf
      | line l buffer rest =>
        rw [hread] at hf
        cases hf
        simp only [Machine.run, clientsMachine, Clients.threadAt, hth, howner, Option.filter_some,
          decide_true, if_true, Option.bind_some, Clients.goto, Function.update_self,
          Option.map_some, Clients.openConnection, hb, hconnect, Cluster.setBackend,
          Clients.sendLine, hserver, Clients.link, Clients.serveLine, hserve, hpeer,
          Clients.receiveLine, hread, Clients.finish, Function.update_idem]
        rfl
/-! ## Replies on their way -/

/-- The thread holds the mutex of its shard. -/
def RouterPhase.holds : RouterPhase → Bool
  | .locked | .connected | .sent | .served => true
  | .waiting | .answered _ => false

/-- It has looked at the connection. -/
def RouterPhase.linked : RouterPhase → Bool
  | .connected | .sent | .served => true
  | .waiting | .locked | .answered _ => false

namespace Clients

variable (s : Clients)

/-- The thread with the mutex of the shard has a reply on its way. -/
def awaits (id : Bytes) : Bool :=
  (s.owner id).any fun t => (s.threadAt t .served).any fun th => th.shardId = id

/-- The lines that the server of a connection has written to it. -/
def sentTo (conn : Connection) : Option (List Bytes) :=
  (s.cluster.servers conn.peer).map fun server => server.sent conn.fd

/-- The connection with everything received. -/
def settle (conn : Connection) : Connection :=
  match s.sentTo conn with
  | some lines => { conn with taken := (unlines newline lines).length }
  | none => conn

def settledBackend (id : Bytes) : BackendConnection :=
  if s.awaits id then
    { s.cluster.backends id with conn := (s.cluster.backends id).conn.map s.settle }
  else s.cluster.backends id

/-- The cluster without the replies that are on their way. -/
def settled : Cluster := { s.cluster with backends := s.settledBackend }

/-- The thread got its shard and its address for a command on a key. -/
def Routed (th : RouterThread) : Prop :=
  ∃ cmd key, parse th.line.1 = .ok cmd ∧ IsKeyCommand cmd.type = true ∧
    cmd.args.head? = some key ∧ th.shardId = s.cluster.ring.getNode key ∧
    th.address = s.cluster.topology.activeAddressFor th.shardId

/-- The reply is there to be received, and nothing else. -/
def Replied (th : RouterThread) (rep : Bytes) : Prop :=
  IsReply rep ∧ ∀ conn server, (s.cluster.backends th.shardId).conn = some conn →
    s.cluster.servers conn.peer = some server → Cluster.available server conn = rep ++ [newline]

/-- What a thread may rely on, and what its client waits for. -/
structure ThreadOk (t : Nat) (th : RouterThread) (p : CallStage (Now × Line) Bytes) : Prop where
  routed : (∀ response, th.phase ≠ .answered response) → s.Routed th
  owner : th.phase.holds = true → s.owner th.shardId = some t
  linked : th.phase.linked = true → ∃ conn,
    (s.cluster.backends th.shardId).conn = some conn ∧ conn.peer = th.address
  pending : match th.phase with
    | .answered response => p = .effected response
    | .served => ∃ rep, p = .effected rep ∧ s.Replied th rep
    | .waiting | .locked | .connected | .sent => p = .called (th.now, th.line)

end Clients

/-- What holds of the router, with what its clients wait for and the cells of all keys. -/
structure ClientsInv (s : Clients) (pending : Nat → CallStage (Now × Line) Bytes)
    (cells : Bytes → Cell) : Prop where
  lockstep : Lockstep s.settled
  live : s.cluster.Live
  plain : ∀ id ∈ s.cluster.topology.shardIds, ∀ server,
    s.cluster.servers (s.cluster.topology.activeAddressFor id) = some server → server.Plain
  threads : ∀ t th, s.threads t = some th → s.ThreadOk t th (pending t)
  idle : ∀ t, s.threads t = none → pending t = .idle
  split : Keyed.Split s.cluster.addressForKey s.cluster.cells fun key => some (cells key)

section

variable {s s' : Clients} {t : Nat} {th : RouterThread} {id : Bytes}
  {pending pending' : Nat → CallStage (Now × Line) Bytes} {p : CallStage (Now × Line) Bytes}
  {cells : Bytes → Cell}

theorem awaits_iff : s.awaits id = true ↔ ∃ t th, s.owner id = some t ∧ s.threads t = some th ∧
    th.phase = .served ∧ th.shardId = id := by
  unfold Clients.awaits
  rw [Option.any_eq_true]
  constructor
  · rintro ⟨t, howner, hany⟩
    obtain ⟨th, hth, hid⟩ := (Option.any_eq_true _ _).mp hany
    obtain ⟨hth, hphase⟩ := threadAt_eq_some.mp hth
    exact ⟨t, th, howner, hth, hphase, of_decide_eq_true hid⟩
  · rintro ⟨t, th, howner, hth, hphase, hid⟩
    refine ⟨t, howner, (Option.any_eq_true _ _).mpr ⟨th, ?_, decide_eq_true hid⟩⟩
    exact threadAt_eq_some.mpr ⟨hth, hphase⟩

/-- The thread that holds the mutex tells whether a reply is on its way. -/
theorem awaits_of_owner (howner : s.owner id = some t) (hth : s.threads t = some th)
    (hphase : th.phase ≠ .served) : s.awaits id = false := by
  rw [Bool.eq_false_iff, ne_eq, awaits_iff]
  rintro ⟨t', th', ht', hth', hserved, -⟩
  rw [howner] at ht'
  cases ht'
  rw [hth] at hth'
  cases hth'
  exact hphase hserved

/-- A step of a thread that has no reply of the shard on its way, before or after. -/
theorem awaits_congr (howner : ∀ t', t' ≠ t → (s'.owner id = some t' ↔ s.owner id = some t'))
    (hthreads : ∀ t', t' ≠ t → s'.threads t' = s.threads t')
    (hold : ∀ th, s.threads t = some th → th.shardId = id → th.phase ≠ .served)
    (hnew : ∀ th, s'.threads t = some th → th.shardId = id → th.phase ≠ .served) :
    s'.awaits id = s.awaits id := by
  rw [Bool.eq_iff_iff, awaits_iff, awaits_iff]
  constructor
  · rintro ⟨t', th, ho, hth, hphase, hid⟩
    by_cases ht : t' = t
    · subst ht
      exact absurd hphase (hnew th hth hid)
    · exact ⟨t', th, (howner t' ht).mp ho, (hthreads t' ht) ▸ hth, hphase, hid⟩
  · rintro ⟨t', th, ho, hth, hphase, hid⟩
    by_cases ht : t' = t
    · subst ht
      exact absurd hphase (hold th hth hid)
    · exact ⟨t', th, (howner t' ht).mpr ho, (hthreads t' ht).symm ▸ hth, hphase, hid⟩

theorem settledBackend_of_not_awaits (h : s.awaits id = false) :
    s.settledBackend id = s.cluster.backends id := by
  rw [Clients.settledBackend, h]
  rfl

theorem settledBackend_buffer (s : Clients) (id : Bytes) :
    (s.settledBackend id).buffer = (s.cluster.backends id).buffer := by
  unfold Clients.settledBackend
  split <;> rfl

theorem settledBackend_address (s : Clients) (id : Bytes) :
    (s.settledBackend id).address = (s.cluster.backends id).address := by
  unfold Clients.settledBackend
  split <;> rfl

theorem settle_peer (s : Clients) (conn : Connection) :
    (s.settle conn).peer = conn.peer ∧ (s.settle conn).fd = conn.fd := by
  unfold Clients.settle
  split <;> exact ⟨rfl, rfl⟩

/-- The connection of a shard, once everything is received. -/
theorem settledBackend_conn {conn : Connection} (h : (s.cluster.backends id).conn = some conn) :
    ∃ conn', (s.settledBackend id).conn = some conn' ∧ conn'.peer = conn.peer ∧
      conn'.fd = conn.fd := by
  unfold Clients.settledBackend
  split
  · exact ⟨s.settle conn, by rw [h]; rfl, settle_peer s conn⟩
  · exact ⟨conn, h, rfl, rfl⟩

/-- A step that leaves the cluster as it is. -/
theorem settled_congr (hcluster : s'.cluster = s.cluster)
    (hawaits : ∀ id, s'.awaits id = s.awaits id) : s'.settled = s.settled := by
  have hbackend : s'.settledBackend = s.settledBackend := by
    funext id
    unfold Clients.settledBackend Clients.settle Clients.sentTo
    rw [hcluster, hawaits]
  rw [Clients.settled, Clients.settled, hcluster, hbackend]

/-- What another thread relies on. -/
theorem Clients.ThreadOk.frame (h : s.ThreadOk t th p) (hring : s'.cluster.ring = s.cluster.ring)
    (htopology : s'.cluster.topology = s.cluster.topology)
    (howner : ∀ id, s.owner id = some t → s'.owner id = some t)
    (hconn : ∀ id, s.owner id = some t →
      (s'.cluster.backends id).conn = (s.cluster.backends id).conn)
    (hsent : ∀ conn, s.owner th.shardId = some t →
      (s.cluster.backends th.shardId).conn = some conn → s'.sentTo conn = s.sentTo conn) :
    s'.ThreadOk t th p := by
  have hholds : th.phase.linked = true → th.phase.holds = true := by
    cases th.phase <;> simp [RouterPhase.linked, RouterPhase.holds]
  refine ⟨fun hphase => ?_, fun hphase => howner _ (h.owner hphase), fun hphase => ?_, ?_⟩
  · unfold Clients.Routed
    rw [hring, htopology]
    exact h.routed hphase
  · rw [hconn _ (h.owner (hholds hphase))]
    exact h.linked hphase
  · have hpending := h.pending
    split at hpending
    · exact hpending
    · rename_i hphase
      obtain ⟨rep, hp, hreply, havailable⟩ := hpending
      have hmutex := h.owner (by rw [hphase]; rfl)
      refine ⟨rep, hp, hreply, fun conn server' hc hs' => ?_⟩
      rw [hconn _ hmutex] at hc
      have hsame := hsent conn hmutex hc
      rw [Clients.sentTo, hs', Option.map_some] at hsame
      obtain ⟨server, hs, hlines⟩ := Option.map_eq_some_iff.mp hsame.symm
      rw [Cluster.available, ← hlines]
      exact havailable conn server hc hs
    · exact hpending
    · exact hpending
    · exact hpending
    · exact hpending

/-- A thread moves on, and takes a mutex or gives it back, without a look at the cluster. -/
theorem ClientsInv.move (h : ClientsInv s pending cells) (hcluster : s'.cluster = s.cluster)
    (hthreads : ∀ t', t' ≠ t → s'.threads t' = s.threads t')
    (howner : ∀ id t', t' ≠ t → (s'.owner id = some t' ↔ s.owner id = some t'))
    (hold : ∀ th, s.threads t = some th → th.phase ≠ .served)
    (hnew : ∀ th, s'.threads t = some th → th.phase ≠ .served ∧ s'.ThreadOk t th p)
    (hidle : s'.threads t = none → p = .idle) :
    ClientsInv s' (Function.update pending t p) cells := by
  have hsettled : s'.settled = s.settled :=
    settled_congr hcluster fun id => awaits_congr (howner id) hthreads (fun th hth _ => hold th hth)
      (fun th hth _ => (hnew th hth).1)
  refine ⟨hsettled ▸ h.lockstep, hcluster ▸ h.live, hcluster ▸ h.plain, fun t' th hth => ?_,
    fun t' hth => ?_, hcluster ▸ h.split⟩
  · by_cases ht : t' = t
    · subst ht
      rw [Function.update_self]
      exact (hnew th hth).2
    · rw [Function.update_of_ne ht]
      refine (h.threads t' th (hthreads t' ht ▸ hth)).frame (by rw [hcluster]) (by rw [hcluster])
        (fun id => (howner id t' ht).mpr) (fun id _ => by rw [hcluster]) fun conn _ _ => ?_
      rw [Clients.sentTo, Clients.sentTo, hcluster]
  · by_cases ht : t' = t
    · subst ht
      rw [Function.update_self]
      exact hidle hth
    · rw [Function.update_of_ne ht]
      exact h.idle t' (hthreads t' ht ▸ hth)

/-- The backend of a shard whose mutex a thread holds has no reply on its way, unless the thread is
about to receive it. -/
theorem settled_of_owner (howner : s.owner id = some t) (hth : s.threads t = some th)
    (hphase : th.phase ≠ .served) : s.settledBackend id = s.cluster.backends id :=
  settledBackend_of_not_awaits (awaits_of_owner howner hth hphase)

/-- A connection is opened. -/
theorem lockstep_connect {c : Cluster} (h : Lockstep c) (id address : Bytes) :
    Lockstep (Cluster.setBackend { c with nextFd := c.nextFd + 1 } id { c.backends id with
      address := address, conn := some ⟨address, c.nextFd, false, 0⟩ }) := by
  -- The connection of a shard is the new one, or it was there before.
  have hcases : ∀ id' conn,
      (Function.update c.backends id { c.backends id with
        address := address, conn := some ⟨address, c.nextFd, false, 0⟩ } id').conn = some conn →
      (id' = id ∧ conn = ⟨address, c.nextFd, false, 0⟩) ∨
        (id' ≠ id ∧ (c.backends id').conn = some conn) := by
    intro id' conn hconn
    by_cases hid : id' = id
    · subst hid
      rw [Function.update_self] at hconn
      cases hconn
      exact .inl ⟨rfl, rfl⟩
    · rw [Function.update_of_ne hid] at hconn
      exact .inr ⟨hid, hconn⟩
  refine ⟨h.servers, fun a server hs fd hle => h.fresh a server hs fd (Nat.le_of_succ_le hle), ?_,
    ?_, ?_, ?_⟩
  · intro id'
    show (Function.update c.backends id _ id').buffer = []
    by_cases hid : id' = id
    · subst hid
      rw [Function.update_self]
      exact h.buffer id'
    · rw [Function.update_of_ne hid]
      exact h.buffer id'
  · intro id' conn hconn
    show conn.peer = (Function.update c.backends id _ id').address ∧ conn.fd < c.nextFd + 1
    obtain ⟨rfl, rfl⟩ | ⟨hid, hconn⟩ := hcases id' conn hconn
    · rw [Function.update_self]
      exact ⟨rfl, Nat.lt_succ_self _⟩
    · rw [Function.update_of_ne hid]
      obtain ⟨hpeer, hfd⟩ := h.opened id' conn hconn
      exact ⟨hpeer, Nat.lt_succ_of_lt hfd⟩
  · intro id' conn server hconn hserver
    obtain ⟨rfl, rfl⟩ | ⟨-, hconn⟩ := hcases id' conn hconn
    · obtain ⟨hnil, hnot⟩ := h.fresh _ server hserver c.nextFd le_rfl
      exact ⟨rfl, hnot, by rw [hnil]; rfl⟩
    · exact h.idle id' conn server hconn hserver
  · intro id₁ id₂ conn₁ conn₂ h₁ h₂ hfd
    obtain ⟨rfl, rfl⟩ | ⟨-, hold₁⟩ := hcases id₁ conn₁ h₁ <;>
      obtain ⟨rfl, rfl⟩ | ⟨-, hold₂⟩ := hcases id₂ conn₂ h₂
    · rfl
    · exact absurd hfd.symm (Nat.ne_of_lt (h.opened id₂ conn₂ hold₂).2)
    · exact absurd hfd (Nat.ne_of_lt (h.opened id₁ conn₁ hold₁).2)
    · exact h.apart id₁ id₂ conn₁ conn₂ hold₁ hold₂ hfd

/-- The thread that holds a mutex is the only one. -/
theorem ne_of_owner {t' : Nat} (howner : s.owner id = some t) (hne : t' ≠ t) {id' : Bytes}
    (h : s.owner id' = some t') : id' ≠ id := by
  rintro rfl
  rw [howner] at h
  cases h
  exact hne rfl

/-- The connection of a shard is put back. -/
theorem setBackend_self {c : Cluster} {conn : Connection}
    (h : (c.backends id).conn = some conn) :
    c.setBackend id { c.backends id with conn := some conn } = c := by
  rw [← h, Cluster.setBackend]
  exact congrArg (fun f => ({ c with backends := f } : Cluster)) (Function.update_eq_self _ _)

/-- The shard of a thread is reachable, and its server is plain. -/
theorem ClientsInv.reachable (h : ClientsInv s pending cells) (hrouted : s.Routed th) :
    th.address ≠ [] ∧ (splitAddress th.address).isSome = true ∧
      ∃ server, s.cluster.servers th.address = some server ∧ server.Plain := by
  obtain ⟨cmd, key, -, hk, hkey, hshard, haddress⟩ := hrouted
  have hroute := route_key s.cluster hk hkey
  have hid := (route_eq_some h.live hroute).2
  rw [← hshard] at hid
  obtain ⟨hne, hsplit, hsome⟩ := h.live.reachable _ hid
  rw [← haddress] at hne hsplit hsome
  obtain ⟨server, hserver⟩ := Option.isSome_iff_exists.mp hsome
  exact ⟨hne, hsplit, server, hserver, h.plain _ hid server (haddress ▸ hserver)⟩

/-- `forward` finds the connection of the shard open, or opens one. -/
theorem openConnection_cases (h : ClientsInv s pending cells) (hth : s.threads t = some th)
    (hphase : th.phase = .locked) :
    (∃ conn, (s.cluster.backends th.shardId).conn = some conn ∧ conn.peer = th.address ∧
      s.openConnection t th = s.goto t th .connected) ∨
    s.openConnection t th = ({ s with
      cluster := Cluster.setBackend { s.cluster with nextFd := s.cluster.nextFd + 1 } th.shardId
        { s.cluster.backends th.shardId with
          address := th.address
          conn := some ⟨th.address, s.cluster.nextFd, false, 0⟩ } } : Clients).goto t th
        .connected := by
  have hok := h.threads t th hth
  obtain ⟨-, hsplit, server, hserver, -⟩ :=
    h.reachable (hok.routed (by rw [hphase]; rintro _ ⟨⟩))
  have howner := hok.owner (by rw [hphase]; rfl)
  have hsettled := settled_of_owner howner hth (by rw [hphase]; rintro ⟨⟩)
  unfold Clients.openConnection
  dsimp only
  generalize hb : (if (s.cluster.backends th.shardId).address ≠ th.address then
    { s.cluster.backends th.shardId with address := th.address, conn := none }
    else s.cluster.backends th.shardId) = b
  have hconnect : s.cluster.connect b th.address =
      b.conn.elim (some ({ s.cluster with nextFd := s.cluster.nextFd + 1 },
        ⟨th.address, s.cluster.nextFd, false, 0⟩)) fun conn => some (s.cluster, conn) := by
    unfold Cluster.connect
    rw [hsplit, hserver]
    cases b.conn <;> rfl
  rw [hconnect]
  split at hb
  · -- The backend was at another address.
    subst hb
    exact .inr rfl
  · rename_i haddress
    rw [not_not] at haddress
    subst hb
    cases hconn : (s.cluster.backends th.shardId).conn with
    | some conn =>
      refine .inl ⟨conn, rfl, ?_, ?_⟩
      · have hopened := h.lockstep.opened th.shardId conn
          (by rw [← hconn]; exact congrArg BackendConnection.conn hsettled)
        rw [hopened.1, ← haddress]
        exact settledBackend_address s th.shardId
      · dsimp only [Option.elim_some]
        rw [setBackend_self hconn]
    | none =>
      refine .inr ?_
      dsimp only [Option.elim_none]
      rw [← haddress]

/-- The thread that holds a mutex opens a connection. -/
theorem ClientsInv.opened (h : ClientsInv s pending cells) (hth : s.threads t = some th)
    (hphase : th.phase = .locked) :
    ClientsInv (({ s with
      cluster := Cluster.setBackend { s.cluster with nextFd := s.cluster.nextFd + 1 } th.shardId
        { s.cluster.backends th.shardId with
          address := th.address
          conn := some ⟨th.address, s.cluster.nextFd, false, 0⟩ } } : Clients).goto t th
        .connected) pending cells := by
  have hok := h.threads t th hth
  have howner := hok.owner (by rw [hphase]; rfl)
  have hsettled := settled_of_owner howner hth (by rw [hphase]; rintro ⟨⟩)
  generalize hs' : (({ s with
      cluster := Cluster.setBackend { s.cluster with nextFd := s.cluster.nextFd + 1 } th.shardId
        { s.cluster.backends th.shardId with
          address := th.address
          conn := some ⟨th.address, s.cluster.nextFd, false, 0⟩ } } : Clients).goto t th
        .connected) = s'
  have hthread : s'.threads t = some { th with phase := .connected } := by
    rw [← hs']
    exact Function.update_self _ _ _
  have hthreads : ∀ t', t' ≠ t → s'.threads t' = s.threads t' := by
    intro t' ht
    rw [← hs']
    exact Function.update_of_ne ht _ _
  have howners : s'.owner = s.owner := by rw [← hs']; rfl
  have hservers : s'.cluster.servers = s.cluster.servers := by rw [← hs']; rfl
  have hself : s'.cluster.backends th.shardId = { s.cluster.backends th.shardId with
      address := th.address, conn := some ⟨th.address, s.cluster.nextFd, false, 0⟩ } := by
    rw [← hs']
    exact Function.update_self _ _ _
  have hother : ∀ id, id ≠ th.shardId → s'.cluster.backends id = s.cluster.backends id := by
    intro id hid
    rw [← hs']
    exact Function.update_of_ne hid _ _
  have hawaits (id : Bytes) : s'.awaits id = s.awaits id := by
    refine awaits_congr (t := t) (fun t' _ => by rw [howners]) hthreads ?_ ?_
    · intro th' hth' _
      rw [hth] at hth'
      cases hth'
      rw [hphase]
      rintro ⟨⟩
    · intro th' hth' _
      rw [hthread] at hth'
      cases hth'
      rintro ⟨⟩
  have hsame : s'.settled = Cluster.setBackend { s.settled with nextFd := s.settled.nextFd + 1 }
      th.shardId { s.settled.backends th.shardId with
        address := th.address, conn := some ⟨th.address, s.settled.nextFd, false, 0⟩ } := by
    have hbackends : s'.settledBackend = Function.update s.settledBackend th.shardId
        { s.settledBackend th.shardId with
          address := th.address, conn := some ⟨th.address, s.cluster.nextFd, false, 0⟩ } := by
      funext id
      by_cases hid : id = th.shardId
      · subst hid
        rw [Function.update_self, hsettled,
          settled_of_owner (t := t) (by rw [howners]; exact howner) hthread (by rintro ⟨⟩), hself]
      · rw [Function.update_of_ne hid]
        unfold Clients.settledBackend Clients.settle Clients.sentTo
        rw [hawaits, hother id hid, hservers]
    rw [Clients.settled, hbackends, ← hs']
    rfl
  have hlive : s'.cluster.Live := by
    rw [← hs']
    exact ⟨h.live.nonempty, h.live.ring, h.live.reachable⟩
  refine ⟨hsame ▸ lockstep_connect h.lockstep _ _, hlive, ?_, fun t' th' hth' => ?_,
    fun t' hth' => ?_, ?_⟩
  · rw [← hs']
    exact h.plain
  · by_cases ht : t' = t
    · subst ht
      rw [hthread] at hth'
      cases hth'
      have hpending := hok.pending
      rw [hphase] at hpending
      refine ⟨fun _ => ?_, fun _ => by rw [howners]; exact howner,
        fun _ => ⟨_, congrArg BackendConnection.conn hself, rfl⟩, hpending⟩
      rw [← hs']
      exact hok.routed (by rw [hphase]; rintro _ ⟨⟩)
    · have hapart {id : Bytes} (hm : s.owner id = some t') : id ≠ th.shardId :=
        ne_of_owner howner ht hm
      refine (h.threads t' th' (hthreads t' ht ▸ hth')).frame ?_ ?_ (fun id hm => howners ▸ hm)
        (fun id hm => by rw [hother id (hapart hm)]) fun conn _ _ => ?_
      · rw [← hs']
        rfl
      · rw [← hs']
        rfl
      · rw [Clients.sentTo, Clients.sentTo, hservers]
  · have ht : t' ≠ t := by
      rintro rfl
      rw [hthread] at hth'
      cases hth'
    exact h.idle t' (hthreads t' ht ▸ hth')
  · rw [← hs']
    exact h.split

/-! ## The steps -/

/-- A thread that has no reply on its way goes on. -/
theorem ClientsInv.goto (h : ClientsInv s pending cells) (hth : s.threads t = some th)
    (hphase : th.phase ≠ .served) {phase : RouterPhase} (hnew : phase ≠ .served)
    (hok : (s.goto t th phase).ThreadOk t { th with phase := phase } (pending t)) :
    ClientsInv (s.goto t th phase) pending cells := by
  have hself : (s.goto t th phase).threads t = some { th with phase := phase } :=
    Function.update_self _ _ _
  have hothers : ∀ t', t' ≠ t → (s.goto t th phase).threads t' = s.threads t' := fun t' ht =>
    Function.update_of_ne ht _ _
  have hcluster : (s.goto t th phase).cluster = s.cluster := rfl
  have hmove := h.move (p := pending t) hcluster hothers (fun _ _ _ => Iff.rfl) ?_ ?_ ?_
  · rwa [Function.update_eq_self] at hmove
  · intro th' hth'
    rw [hth] at hth'
    cases hth'
    exact hphase
  · intro th' hth'
    rw [hself] at hth'
    cases hth'
    exact ⟨hnew, hok⟩
  · intro hnone
    rw [hself] at hnone
    cases hnone

/-- A line with a command on a key is forwarded to the shard of the key. -/
theorem beginLine_key (hlive : s.cluster.Live) {line : Line} (hline : keyLine line.1 = true)
    (t : Nat) (now : Now) : ∃ th : RouterThread, s.beginLine t now line = s.goto t th .waiting ∧
      th.phase = .waiting ∧ th.now = now ∧ th.line = line ∧ s.Routed th := by
  obtain ⟨cmd, key, hp, hk, hkey⟩ := keyLine_spec hline
  have hroute := route_key s.cluster hk hkey
  obtain ⟨hne, -, -⟩ := hlive.reachable _ (route_eq_some hlive hroute).2
  refine ⟨⟨now, line, s.cluster.ring.getNode key,
    s.cluster.topology.activeAddressFor (s.cluster.ring.getNode key), .waiting⟩, ?_, rfl, rfl, rfl,
    cmd, key, hp, hk, hkey, rfl, rfl⟩
  have hempty : line.1.isEmpty = false := by
    rw [Bool.eq_false_iff]
    intro he
    rw [List.isEmpty_iff.mp he] at hp
    cases hp
  unfold Clients.beginLine
  simp only [hempty, hp, hroute, List.isEmpty_iff, hne, Bool.false_eq_true, if_false]

theorem ClientsInv.beginLine (h : ClientsInv s pending cells) (hnone : s.threads t = none)
    {line : Line} (hline : keyLine line.1 = true) (now : Now) :
    ClientsInv (s.beginLine t now line) (Function.update pending t (.called (now, line)))
      cells := by
  obtain ⟨th, hbegin, hphase, rfl, rfl, hrouted⟩ := beginLine_key h.live hline t now
  rw [hbegin]
  have hself : (s.goto t th .waiting).threads t = some { th with phase := .waiting } :=
    Function.update_self _ _ _
  refine h.move rfl (fun t' ht => Function.update_of_ne ht _ _) (fun _ _ _ => Iff.rfl) ?_ ?_ ?_
  · intro th' hth'
    rw [hnone] at hth'
    cases hth'
  · intro th' hth'
    rw [hself] at hth'
    cases hth'
    exact ⟨by rintro ⟨⟩, fun _ => hrouted, by rintro ⟨⟩, by rintro ⟨⟩, rfl⟩
  · intro hnone
    rw [hself] at hnone
    cases hnone

theorem ClientsInv.lock (h : ClientsInv s pending cells) (hth : s.threads t = some th)
    (hphase : th.phase = .waiting) (howner : s.owner th.shardId = none) :
    ClientsInv
      (({ s with owner := Function.update s.owner th.shardId (some t) } : Clients).goto t th
        .locked) pending cells := by
  have hok := h.threads t th hth
  have hpending := hok.pending
  rw [hphase] at hpending
  have hself : (({ s with owner := Function.update s.owner th.shardId (some t) } : Clients).goto t
      th .locked).threads t = some { th with phase := .locked } := Function.update_self _ _ _
  have hothers : ∀ t', t' ≠ t →
      (({ s with owner := Function.update s.owner th.shardId (some t) } : Clients).goto t th
        .locked).threads t' = s.threads t' := fun t' ht => Function.update_of_ne ht _ _
  have hcluster :
      (({ s with owner := Function.update s.owner th.shardId (some t) } : Clients).goto t th
        .locked).cluster = s.cluster := rfl
  have hmove := h.move (p := pending t) hcluster hothers ?_ ?_ ?_ ?_
  · rwa [Function.update_eq_self] at hmove
  · intro id t' ht
    show Function.update s.owner th.shardId (some t) id = some t' ↔ _
    by_cases hid : id = th.shardId
    · subst hid
      rw [Function.update_self, howner]
      exact ⟨fun he => absurd (Option.some.inj he).symm ht, by rintro ⟨⟩⟩
    · rw [Function.update_of_ne hid]
  · intro th' hth'
    rw [hth] at hth'
    cases hth'
    rw [hphase]
    rintro ⟨⟩
  · intro th' hth'
    rw [hself] at hth'
    cases hth'
    exact ⟨by rintro ⟨⟩, fun _ => hok.routed (by rw [hphase]; rintro _ ⟨⟩),
      fun _ => Function.update_self _ _ _, by rintro ⟨⟩, hpending⟩
  · intro hnone
    rw [hself] at hnone
    cases hnone

theorem ClientsInv.connect (h : ClientsInv s pending cells) (hth : s.threads t = some th)
    (hphase : th.phase = .locked) : ClientsInv (s.openConnection t th) pending cells := by
  have hok := h.threads t th hth
  have hpending := hok.pending
  rw [hphase] at hpending
  rcases openConnection_cases h hth hphase with ⟨conn, hconn, hpeer, hopen⟩ | hopen
  · rw [hopen]
    refine h.goto hth (by rw [hphase]; rintro ⟨⟩) (by rintro ⟨⟩) ?_
    exact ⟨fun _ => hok.routed (by rw [hphase]; rintro _ ⟨⟩),
      fun _ => hok.owner (by rw [hphase]; rfl), fun _ => ⟨conn, hconn, hpeer⟩, hpending⟩
  · rw [hopen]
    exact h.opened hth hphase

theorem ClientsInv.send (h : ClientsInv s pending cells) (hth : s.threads t = some th)
    (hphase : th.phase = .connected) {conn : Connection}
    (hconn : (s.cluster.backends th.shardId).conn = some conn) :
    ClientsInv (s.sendLine t th conn) pending cells := by
  have hok := h.threads t th hth
  have hpending := hok.pending
  rw [hphase] at hpending
  have hrouted := hok.routed (by rw [hphase]; rintro _ ⟨⟩)
  obtain ⟨conn', hconn', hpeer⟩ := hok.linked (by rw [hphase]; rfl)
  obtain rfl : conn = conn' := Option.some.inj (hconn.symm.trans hconn')
  obtain ⟨-, -, server, hserver, -⟩ := h.reachable hrouted
  have hsend : s.sendLine t th conn = s.goto t th .sent := by
    unfold Clients.sendLine
    rw [hpeer, hserver]
  rw [hsend]
  refine h.goto hth (by rw [hphase]; rintro ⟨⟩) (by rintro ⟨⟩) ?_
  exact ⟨fun _ => hrouted, fun _ => hok.owner (by rw [hphase]; rfl), fun _ => ⟨conn, hconn, hpeer⟩,
    hpending⟩

/-- The client has its reply. -/
theorem ClientsInv.reply (h : ClientsInv s pending cells) (hth : s.threads t = some th)
    {response : Bytes} (hphase : th.phase = .answered response) :
    pending t = .effected response ∧
      ClientsInv { s with threads := Function.update s.threads t none }
        (Function.update pending t .idle) cells := by
  have hpending := (h.threads t th hth).pending
  rw [hphase] at hpending
  have hself : Function.update s.threads t none t = none := Function.update_self _ _ _
  refine ⟨hpending, ?_⟩
  refine h.move rfl (fun t' ht => Function.update_of_ne ht _ _) (fun _ _ _ => Iff.rfl) ?_ ?_ ?_
  · intro th' hth'
    rw [hth] at hth'
    cases hth'
    rw [hphase]
    rintro ⟨⟩
  · intro th' hth'
    cases hself.symm.trans hth'
  · exact fun _ => rfl

/-- Connections of two shards are apart, also when they go to the same server. -/
theorem ClientsInv.apart (h : ClientsInv s pending cells) {id' : Bytes} (hid : id' ≠ id)
    {conn conn' : Connection} (hconn : (s.cluster.backends id).conn = some conn)
    (hconn' : (s.cluster.backends id').conn = some conn') {server : Server}
    (hserver : s.cluster.servers conn'.peer = some server) :
    conn'.fd ≠ conn.fd ∧ conn'.fd ∉ server.replicaFds := by
  obtain ⟨a, ha, -, hfd⟩ := settledBackend_conn hconn
  obtain ⟨a', ha', hpeer', hfd'⟩ := settledBackend_conn hconn'
  refine ⟨fun he => hid (h.lockstep.apart id' id a' a ha' ha (by rw [hfd', hfd, he])), ?_⟩
  have hidle := h.lockstep.idle id' a' server ha' (by rw [hpeer']; exact hserver)
  rw [← hfd']
  exact hidle.notReplica

/-- The server at an address is replaced. -/
def Clients.setServer (s : Clients) (address : Bytes) (server : Server) : Clients :=
  { s with cluster := { s.cluster with
    servers := Function.update s.cluster.servers address (some server) } }

/-- A reply to one connection is not seen on the connection of another shard. -/
theorem ClientsInv.sentTo_other (h : ClientsInv s pending cells) {id' : Bytes} (hid : id' ≠ id)
    {conn conn' : Connection} {server server' : Server} {rep : Bytes}
    (hconn : (s.cluster.backends id).conn = some conn)
    (hserver : s.cluster.servers conn.peer = some server)
    (hsent : ∀ fd, fd ∉ server.replicaFds → server'.sent fd = server.sent fd)
    (hconn' : (s.cluster.backends id').conn = some conn') :
    (s.setServer conn.peer (server'.send conn.fd [rep])).sentTo conn' = s.sentTo conn' := by
  show ((Function.update s.cluster.servers conn.peer _) conn'.peer).map _ = _
  rw [Clients.sentTo]
  by_cases hpeer : conn'.peer = conn.peer
  · obtain ⟨hfd, hreplica⟩ := h.apart hid hconn hconn' (hpeer ▸ hserver)
    rw [hpeer, Function.update_self, hserver, Option.map_some, Option.map_some, ← hsent _ hreplica]
    exact congrArg some (Function.update_of_ne hfd _ _)
  · rw [Function.update_of_ne hpeer]

/-- A server has answered: once the reply is received, that is one request in lock step. -/
theorem ClientsInv.settled_served (h : ClientsInv s pending cells) (rep : Bytes)
    (hth : s.threads t = some th) (hphase : th.phase = .sent) {conn : Connection}
    {server server' : Server}
    (hconn : (s.cluster.backends th.shardId).conn = some conn)
    (hserver : s.cluster.servers conn.peer = some server) (hidle : conn.Idle server)
    (hsent : ∀ fd, fd ∉ server.replicaFds → server'.sent fd = server.sent fd) :
    ((s.setServer conn.peer (server'.send conn.fd [rep])).goto t th .served).settled =
      s.settled.answered th.shardId (s.cluster.backends th.shardId) conn server' rep := by
  have howner := (h.threads t th hth).owner (by rw [hphase]; rfl)
  generalize hs' : (s.setServer conn.peer (server'.send conn.fd [rep])).goto t th .served = s'
  have hbackends : s'.cluster.backends = s.cluster.backends := by rw [← hs']; rfl
  have howners : s'.owner = s.owner := by rw [← hs']; rfl
  have hself : s'.threads t = some { th with phase := .served } := by
    rw [← hs']
    exact Function.update_self _ _ _
  have hother : ∀ t', t' ≠ t → s'.threads t' = s.threads t' := by
    intro t' ht
    rw [← hs']
    exact Function.update_of_ne ht _ _
  have hbuffer : (s.cluster.backends th.shardId).buffer = [] := by
    rw [← settled_of_owner howner hth (by rw [hphase]; rintro ⟨⟩)]
    exact h.lockstep.buffer th.shardId
  have hsettled : s'.settledBackend = Function.update s.settledBackend th.shardId
      { s.cluster.backends th.shardId with
        conn := some { conn with taken := conn.taken + (rep.length + 1) }
        buffer := [] } := by
    funext id
    by_cases hid : id = th.shardId
    · subst hid
      have hawaits : s'.awaits th.shardId = true :=
        awaits_iff.mpr ⟨t, _, by rw [howners]; exact howner, hself, rfl, rfl⟩
      have hlines : s'.sentTo conn = some (server.sent conn.fd ++ [rep]) := by
        rw [← hs', ← hsent _ hidle.notReplica]
        show ((Function.update s.cluster.servers conn.peer _) conn.peer).map _ = _
        rw [Function.update_self, Option.map_some]
        exact congrArg some (Function.update_self _ _ _)
      rw [Clients.settledBackend, hawaits, if_pos rfl, hbackends, hconn, Option.map_some,
        Clients.settle, hlines, Function.update_self, ← hbuffer]
      simp [hidle.taken]
    · have hawaits : s'.awaits id = s.awaits id := by
        refine awaits_congr (t := t) (fun t' _ => by rw [howners]) hother ?_ ?_
        · intro th' hth' hshard
          rw [hth] at hth'
          cases hth'
          exact absurd hshard.symm hid
        · intro th' hth' hshard
          rw [hself] at hth'
          cases hth'
          exact absurd hshard.symm hid
      rw [Function.update_of_ne hid]
      unfold Clients.settledBackend
      rw [hawaits, hbackends]
      cases hconn' : (s.cluster.backends id).conn with
      | none => rfl
      | some conn' =>
        have hlines : s'.sentTo conn' = s.sentTo conn' := by
          rw [← hs']
          exact h.sentTo_other hid hconn hserver hsent hconn'
        rw [Option.map_some, Option.map_some, Clients.settle, Clients.settle, hlines]
  rw [Clients.settled, hsettled, ← hs']
  rfl

/-- The turn of the server: it answers the line as the one server does, and its reply is on its
way. -/
theorem ClientsInv.serve (h : ClientsInv s pending cells) (hth : s.threads t = some th)
    (hphase : th.phase = .sent) {conn : Connection} {server : Server}
    (hconn : (s.cluster.backends th.shardId).conn = some conn)
    (hserver : s.cluster.servers conn.peer = some server) (request : Chunking) :
    ∃ cmd key, parse th.line.1 = .ok cmd ∧ IsKeyCommand cmd.type = true ∧
      cmd.args.head? = some key ∧ pending t = .called (th.now, th.line) ∧
      ClientsInv (s.serveLine t th conn server request)
        (Function.update pending t (.effected ((cells key).exec th.now cmd).2))
        (Function.update cells key ((cells key).exec th.now cmd).1) := by
  have hok := h.threads t th hth
  have hpending := hok.pending
  rw [hphase] at hpending
  have hrouted := hok.routed (by rw [hphase]; rintro _ ⟨⟩)
  have howner := hok.owner (by rw [hphase]; rfl)
  obtain ⟨conn', hconn', hpeer⟩ := hok.linked (by rw [hphase]; rfl)
  obtain rfl : conn = conn' := Option.some.inj (hconn.symm.trans hconn')
  obtain ⟨-, -, server', hserver', hplain⟩ := h.reachable hrouted
  obtain rfl : server = server' := by
    rw [hpeer] at hserver
    exact Option.some.inj (hserver.symm.trans hserver')
  obtain ⟨cmd, key, hp, hk, hkey, hshard, haddress⟩ := hrouted
  refine ⟨cmd, key, hp, hk, hkey, hpending, ?_⟩
  -- The connection is idle, so there is one reply.
  have hsettled := settled_of_owner howner hth (by rw [hphase]; rintro ⟨⟩)
  have hsconn : (s.settledBackend th.shardId).conn = some conn := by rw [hsettled, hconn]
  have hidle : conn.Idle server := h.lockstep.idle _ conn server hsconn hserver
  have hbuffer : (s.cluster.backends th.shardId).buffer = [] := by
    rw [← hsettled]
    exact h.lockstep.buffer th.shardId
  obtain ⟨hsync, hq⟩ := lockstepLine_spec (lockstepLine_of_keyCommand hp hk) hp
    (fun he => by rw [he] at hkey; cases hkey)
  obtain ⟨s₁, rep, hreply, hrep, hbackend, hfds, hsent, hserve, havailable⟩ :=
    serve_idle (h.lockstep.servers _ server hserver) hidle hp hsync hq th.now request
  obtain ⟨s₂, hs₂, hplain₂, hcell⟩ :=
    handleLine_key hplain (parse_stripCr hp) hk hkey conn.fd th.now
  rw [hs₂] at hreply
  obtain ⟨rfl, hrep'⟩ := Prod.mk.inj hreply
  cases hrep'
  have hsame : server.db.cell key = cells key := by
    have hsplit := h.split key
    rw [Cluster.cells, Cluster.addressForKey, ← hshard, ← haddress, ← hpeer, hserver] at hsplit
    exact Option.some.inj hsplit
  rw [hsame] at hcell hrep hserve havailable
  generalize (cells key).exec th.now cmd = r at *
  have hserveLine : s.serveLine t th conn server request =
      (s.setServer conn.peer (s₂.send conn.fd [r.2])).goto t th .served := by
    unfold Clients.serveLine
    rw [hserve]
    exact congrArg (fun c => ({ s with cluster := c } : Clients).goto t th .served)
      (setBackend_self (c := { s.cluster with
        servers := Function.update s.cluster.servers conn.peer (some (s₂.send conn.fd [r.2])) })
        hconn)
  have hlock := h.settled_served r.2 hth hphase hconn hserver hidle hsent
  rw [hserveLine]
  generalize hs' : (s.setServer conn.peer (s₂.send conn.fd [r.2])).goto t th .served = s' at *
  have hservers : s'.cluster.servers =
      Function.update s.cluster.servers conn.peer (some (s₂.send conn.fd [r.2])) := by
    rw [← hs']
    rfl
  have htopology : s'.cluster.topology = s.cluster.topology := by rw [← hs']; rfl
  have hring : s'.cluster.ring = s.cluster.ring := by rw [← hs']; rfl
  have hself : s'.threads t = some { th with phase := .served } := by
    rw [← hs']
    exact Function.update_self _ _ _
  have hother : ∀ t', t' ≠ t → s'.threads t' = s.threads t' := by
    intro t' ht
    rw [← hs']
    exact Function.update_of_ne ht _ _
  refine ⟨?_, ⟨?_, ?_, ?_⟩, ?_, fun t' th' hth' => ?_, fun t' hth' => ?_, ?_⟩
  · obtain ⟨haddr, hfd⟩ := h.lockstep.opened _ conn hsconn
    rw [hlock]
    refine lockstep_answered h.lockstep hserver hidle ?_ hfd ?_ hbackend hfds hsent
    · rw [haddr]
      exact settledBackend_address s th.shardId
    · exact fun id' conn' hid hconn' he => hid (h.lockstep.apart id' _ conn' conn hconn' hsconn he)
  · rw [htopology]
    exact h.live.nonempty
  · rw [htopology, hring]
    exact h.live.ring
  · rw [htopology, hservers]
    intro id hid
    obtain ⟨hne, hsplit, hsome⟩ := h.live.reachable id hid
    refine ⟨hne, hsplit, ?_⟩
    rw [Function.update_apply]
    split
    · rfl
    · exact hsome
  · rw [htopology, hservers]
    intro id hid u hu
    rw [Function.update_apply] at hu
    split at hu
    · cases hu
      exact ⟨hplain₂.role, hplain₂.unbounded⟩
    · exact h.plain id hid u hu
  · by_cases ht : t' = t
    · subst ht
      rw [hself] at hth'
      cases hth'
      rw [Function.update_self]
      refine ⟨fun _ => ⟨cmd, key, hp, hk, hkey, ?_, ?_⟩, fun _ => ?_, fun _ => ⟨conn, ?_, hpeer⟩,
        r.2, rfl, hrep, fun conn' server' hc hs => ?_⟩
      · rw [hring]
        exact hshard
      · rw [htopology]
        exact haddress
      · rw [← hs']
        exact howner
      · rw [← hs']
        exact hconn
      · have hc' : (s.cluster.backends th.shardId).conn = some conn' := by
          rw [← hc, ← hs']
          rfl
        obtain rfl : conn = conn' := Option.some.inj (hconn.symm.trans hc')
        rw [hservers, Function.update_self] at hs
        cases hs
        exact havailable
    · rw [Function.update_of_ne ht]
      have hapart {id : Bytes} (hm : s.owner id = some t') : id ≠ th.shardId :=
        ne_of_owner howner ht hm
      refine (h.threads t' th' (hother t' ht ▸ hth')).frame hring htopology (fun id hm => ?_)
        (fun id _ => ?_) fun conn' hm hconn' => ?_
      · rw [← hs']
        exact hm
      · rw [← hs']
        rfl
      · rw [← hs']
        exact h.sentTo_other (hapart hm) hconn hserver hsent hconn'
  · have ht : t' ≠ t := by
      rintro rfl
      rw [hself] at hth'
      cases hth'
    rw [Function.update_of_ne ht]
    exact h.idle t' (hother t' ht ▸ hth')
  · have hplace : s'.cluster.addressForKey = s.cluster.addressForKey := by
      funext k
      rw [Cluster.addressForKey, Cluster.addressForKey, htopology, hring]
    have haddr : conn.peer = s.cluster.addressForKey key := by
      rw [hpeer, haddress, hshard]
      rfl
    have hparts : s'.cluster.cells = Function.update s.cluster.cells (s.cluster.addressForKey key)
        (Function.update (s.cluster.cells (s.cluster.addressForKey key)) key (some r.1)) := by
      have hat : s'.cluster.servers = Function.update s.cluster.servers
          (s.cluster.addressForKey key) (some (s₂.send conn.fd [r.2])) := haddr ▸ hservers
      exact cells_update (haddr ▸ hserver) hat hcell
    have hwhole : (fun k => some (Function.update cells key r.1 k)) =
        Function.update (fun k => some (cells k)) key (some r.1) := by
      funext k
      rw [Function.update_apply, Function.update_apply]
      split <;> rfl
    rw [hplace, hparts, hwhole]
    exact h.split.update key (some r.1)

/-- The router receives the reply, and only that. -/
theorem receiveLine_replied {b : BackendConnection} (hb : s.cluster.backends th.shardId = b)
    (hbuffer : b.buffer = []) {rep : Bytes} (hrep : IsReply rep) {conn : Connection}
    {server : Server} (havailable : Cluster.available server conn = rep ++ [newline])
    (reply : Chunking) :
    s.receiveLine t th conn server reply = some (s.finish t th (s.cluster.setBackend th.shardId
      { b with conn := some { conn with taken := conn.taken + (rep.length + 1) } }) rep) := by
  obtain ⟨address, old, buffer⟩ := b
  obtain rfl : buffer = [] := hbuffer
  obtain ⟨cs, hread, hcs⟩ := readLine_single reply hrep.oneLine hrep.short
  unfold Clients.receiveLine
  rw [hb, havailable]
  simp only [hread, hcs, stripCr_eq_self hrep.noCr, List.length_append, List.length_singleton,
    List.length_nil, Nat.sub_zero]

theorem ClientsInv.receive (h : ClientsInv s pending cells) (hth : s.threads t = some th)
    (hphase : th.phase = .served) {conn : Connection} {server : Server}
    (hconn : (s.cluster.backends th.shardId).conn = some conn)
    (hserver : s.cluster.servers conn.peer = some server) {reply : Chunking}
    (hs : s.receiveLine t th conn server reply = some s') : ClientsInv s' pending cells := by
  have hok := h.threads t th hth
  have howner := hok.owner (by rw [hphase]; rfl)
  have hpending := hok.pending
  rw [hphase] at hpending
  obtain ⟨rep, hp, hrep, havailable⟩ := hpending
  have hbytes := havailable conn server hconn hserver
  have hbuffer : (s.cluster.backends th.shardId).buffer = [] := by
    rw [← settledBackend_buffer]
    exact h.lockstep.buffer th.shardId
  rw [receiveLine_replied rfl hbuffer hrep hbytes] at hs
  replace hs := Option.some.inj hs
  have hservers : s'.cluster.servers = s.cluster.servers := by rw [← hs]; rfl
  have hself : s'.threads t = some { th with phase := .answered rep } := by
    rw [← hs]
    exact Function.update_self _ _ _
  have hother : ∀ t', t' ≠ t → s'.threads t' = s.threads t' := by
    intro t' ht
    rw [← hs]
    exact Function.update_of_ne ht _ _
  have hfree : s'.owner th.shardId = none := by
    rw [← hs]
    exact Function.update_self _ _ _
  have howners : ∀ id, id ≠ th.shardId → s'.owner id = s.owner id := by
    intro id hid
    rw [← hs]
    exact Function.update_of_ne hid _ _
  have hbackend : s'.cluster.backends th.shardId = { s.cluster.backends th.shardId with
      conn := some { conn with taken := conn.taken + (rep.length + 1) } } := by
    rw [← hs]
    exact Function.update_self _ _ _
  have hbackends : ∀ id, id ≠ th.shardId → s'.cluster.backends id = s.cluster.backends id := by
    intro id hid
    rw [← hs]
    exact Function.update_of_ne hid _ _
  -- The reply was taken off already.
  have hsettled : s'.settled = s.settled := by
    have heq : s'.settledBackend = s.settledBackend := by
      funext id
      by_cases hid : id = th.shardId
      · subst hid
        have hnot : s'.awaits th.shardId = false := by
          rw [Clients.awaits, hfree]
          rfl
        have hlines : s.sentTo conn = some (server.sent conn.fd) := by
          rw [Clients.sentTo, hserver, Option.map_some]
        have htaken : (unlines newline (server.sent conn.fd)).length =
            conn.taken + (rep.length + 1) := by
          have hlength := congrArg List.length hbytes
          rw [Cluster.available, List.length_drop, List.length_append,
            List.length_singleton] at hlength
          omega
        rw [settledBackend_of_not_awaits hnot, hbackend, Clients.settledBackend,
          awaits_iff.mpr ⟨t, th, howner, hth, hphase, rfl⟩, if_pos rfl, hconn, Option.map_some,
          Clients.settle, hlines, ← htaken]
      · have hawaits : s'.awaits id = s.awaits id := by
          refine awaits_congr (t := t) (fun t' _ => by rw [howners id hid]) hother ?_ ?_
          · intro th' hth' hshard
            rw [hth] at hth'
            cases hth'
            exact absurd hshard.symm hid
          · intro th' hth' _
            rw [hself] at hth'
            cases hth'
            rintro ⟨⟩
        unfold Clients.settledBackend Clients.settle Clients.sentTo
        rw [hawaits, hbackends id hid, hservers]
    rw [Clients.settled, heq, ← hs]
    rfl
  refine ⟨hsettled ▸ h.lockstep, ?_, ?_, fun t' th' hth' => ?_, fun t' hth' => ?_, ?_⟩
  · rw [← hs]
    exact ⟨h.live.nonempty, h.live.ring, h.live.reachable⟩
  · rw [← hs]
    exact h.plain
  · by_cases ht : t' = t
    · subst ht
      rw [hself] at hth'
      cases hth'
      exact ⟨fun hne => absurd rfl (hne rep), by rintro ⟨⟩, by rintro ⟨⟩, hp⟩
    · have hapart {id : Bytes} (hm : s.owner id = some t') : id ≠ th.shardId :=
        ne_of_owner howner ht hm
      refine (h.threads t' th' (hother t' ht ▸ hth')).frame ?_ ?_ (fun id hm => ?_)
        (fun id hm => ?_) fun conn' _ _ => ?_
      · rw [← hs]
        rfl
      · rw [← hs]
        rfl
      · rw [howners id (hapart hm)]
        exact hm
      · rw [hbackends id (hapart hm)]
      · rw [Clients.sentTo, Clients.sentTo, hservers]
  · have ht : t' ≠ t := by
      rintro rfl
      rw [hself] at hth'
      cases hth'
    exact h.idle t' (hother t' ht ▸ hth')
  · rw [← hs]
    exact h.split

end

/-! ## Whole runs -/

/-- A line at one server. -/
def serverSpec (fd : Nat) (op : Now × Line) (single : Server) : Server × Bytes :=
  match single.handleLine fd op.1 op.2.1 with
  | (single, .reply r) => (single.send fd [r], r)
  | (single, .skip) | (single, .stream) => (single, [])

theorem serverSpec_key {single : Server} (hs : single.Plain) {line : Line} {key : Bytes}
    {cmd : Command} (hp : parse line.1 = .ok cmd) (hk : IsKeyCommand cmd.type = true)
    (hkey : cmd.args.head? = some key) (fd : Nat) (now : Now) :
    ∃ single', serverSpec fd (now, line) single =
        (single', ((single.db.cell key).exec now cmd).2) ∧ single'.Plain ∧
      single'.db.cell =
        Function.update single.db.cell key ((single.db.cell key).exec now cmd).1 := by
  obtain ⟨s', hs', hplain, hcell⟩ := handleLine_key hs hp hk hkey fd now
  refine ⟨s'.send fd [((single.db.cell key).exec now cmd).2], ?_, ⟨hplain.role, hplain.unbounded⟩,
    hcell⟩
  simp only [serverSpec, hs']

/-- What is seen of the clients in a run. -/
def clientsHistory (acts : List ClientAction) (outs : List (Option (Nat × Bytes))) :
    List (HistoryEvent Nat (Now × Line) Bytes) :=
  (acts.zip outs).filterMap fun
    | (.begin t now line, _) => some (.call t (now, line))
    | (.reply _, some (t, response)) => some (.ret t response)
    | _ => none

theorem clientsHistory_concat {acts : List ClientAction} {outs : List (Option (Nat × Bytes))}
    (h : outs.length = acts.length) (a : ClientAction) (o : Option (Nat × Bytes)) :
    clientsHistory (acts ++ [a]) (outs ++ [o]) =
      clientsHistory acts outs ++ clientsHistory [a] [o] := by
  rw [clientsHistory, List.zip_append h.symm, List.filterMap_append]
  rfl

/-- The lines are commands on keys. -/
def ClientAction.OnKey : ClientAction → Prop
  | .begin _ _ line => keyLine line.1 = true
  | _ => True

theorem clientsInv_start {topology : ShardTopology} {servers : Bytes → Option Server} {n : Nat}
    (hne : topology ≠ [])
    (hserved : ∀ id ∈ topology.shardIds,
      (splitAddress (topology.activeAddressFor id)).isSome = true ∧
      ∃ t, servers (topology.activeAddressFor id) = some t ∧ t.Empty)
    (hfresh : FreshFor servers n) {start : Server} (hstart : start.Empty) :
    ClientsInv (.start topology servers n) (fun _ => .idle) start.db.cell := by
  refine ⟨lockstep_start hfresh, ⟨hne, rfl, fun id hid => ?_⟩, fun id hid t ht => ?_,
    by rintro _ _ ⟨⟩, fun _ _ => rfl, fun key => ?_⟩
  · obtain ⟨hsplit, t, ht, -⟩ := hserved id hid
    exact ⟨ne_nil_of_splitAddress hsplit, hsplit, Option.isSome_iff_exists.mpr ⟨t, ht⟩⟩
  · obtain ⟨-, t', ht', hempty⟩ := hserved id hid
    rw [show servers (topology.activeAddressFor id) = some t from ht] at ht'
    cases ht'
    exact hempty.toPlain
  · have hid : (Clients.start topology servers n).cluster.ring.getNode key ∈ topology.shardIds :=
      ConsistentHashRing.getNode_foldl_addNode (fun he => hne (List.map_eq_nil_iff.mp he)) key
    obtain ⟨-, t, ht, hempty⟩ := hserved _ hid
    show (servers (topology.activeAddressFor _)).map _ = some (start.db.cell key)
    rw [ht, Option.map_some, hempty.cell key, hstart.cell key]

/-- What a run keeps. -/
def Clients.Tracked (fd : Nat) (start : Server) (s : Clients) (acts : List ClientAction)
    (outs : List (Option (Nat × Bytes))) : Prop :=
  ∃ pending ops single, single.Plain ∧ ClientsInv s pending single.db.cell ∧
    Book (serverSpec fd) start pending (clientsHistory acts outs) ops single

theorem Clients.tracked_step {fd : Nat} {start : Server} {s s' : Clients}
    {acts : List ClientAction} {outs : List (Option (Nat × Bytes))} {a : ClientAction}
    {o : Option (Nat × Bytes)} (hlen : outs.length = acts.length)
    (h : s.Tracked fd start acts outs) (ha : a.OnKey)
    (hs : clientsMachine.step s a = some (s', o)) :
    s'.Tracked fd start (acts ++ [a]) (outs ++ [o]) := by
  obtain ⟨pending, ops, single, hplain, hinv, hbook⟩ := h
  have hstep := clients_step hs
  -- A step that is not seen, and at which nothing takes effect.
  have hquiet (hevents : clientsHistory [a] [o] = [])
      (hinv' : ClientsInv s' pending single.db.cell) :
      s'.Tracked fd start (acts ++ [a]) (outs ++ [o]) := by
    refine ⟨pending, ops, single, hplain, hinv', ?_⟩
    rw [clientsHistory_concat hlen, hevents, List.append_nil]
    exact hbook
  cases a with
  | begin t now line =>
    obtain ⟨hnone, rfl, rfl⟩ := hstep
    refine ⟨_, ops, single, hplain, hinv.beginLine hnone ha now, ?_⟩
    rw [clientsHistory_concat hlen]
    exact hbook.call (hinv.idle t hnone) (now, line)
  | lock t =>
    obtain ⟨th, hth, hphase, howner, rfl, rfl⟩ := hstep
    exact hquiet rfl (hinv.lock hth hphase howner)
  | connect t =>
    obtain ⟨th, hth, hphase, rfl, rfl⟩ := hstep
    exact hquiet rfl (hinv.connect hth hphase)
  | send t =>
    obtain ⟨th, conn, hth, hphase, hconn, rfl, rfl⟩ := hstep
    exact hquiet rfl (hinv.send hth hphase hconn)
  | serve t request =>
    obtain ⟨th, conn, server, hth, hphase, hconn, hserver, rfl, rfl⟩ := hstep
    obtain ⟨cmd, key, hp, hk, hkey, hpending, hinv'⟩ :=
      hinv.serve hth hphase hconn hserver request
    obtain ⟨single', hspec, hplain', hcell⟩ := serverSpec_key hplain hp hk hkey fd th.now
    have heffect := hbook.effect hpending
    rw [hspec] at heffect
    rw [← hcell] at hinv'
    refine ⟨_, ops ++ [⟨t, (th.now, th.line), ((single.db.cell key).exec th.now cmd).2⟩], single',
      hplain', hinv', ?_⟩
    rw [clientsHistory_concat hlen, show clientsHistory [.serve t request] [none] = [] from rfl,
      List.append_nil]
    exact heffect
  | receive t reply =>
    obtain ⟨th, conn, server, hth, hphase, hconn, hserver, rfl, hr⟩ := hstep
    exact hquiet rfl (hinv.receive hth hphase hconn hserver hr)
  | reply t =>
    obtain ⟨th, response, hth, hphase, rfl, rfl⟩ := hstep
    obtain ⟨hpending, hinv'⟩ := hinv.reply hth hphase
    refine ⟨_, ops, single, hplain, hinv', ?_⟩
    rw [clientsHistory_concat hlen]
    exact hbook.ret hpending

/-- **Linearizability behind the router.** Each shard is served by an empty unbounded server at its
active address. However the threads of the router and the servers take turns, the history of the
clients has a linearization at one empty unbounded server, which ends with the keys and values of
all shards: the replies are those of the one server, and a line that was answered before another one
was sent comes first. -/
theorem router_linearizable {topology : ShardTopology} {servers : Bytes → Option Server} {n : Nat}
    (hne : topology ≠ [])
    (hserved : ∀ id ∈ topology.shardIds,
      (splitAddress (topology.activeAddressFor id)).isSome = true ∧
      ∃ t, servers (topology.activeAddressFor id) = some t ∧ t.Empty)
    (hfresh : FreshFor servers n) {start : Server} (hstart : start.Empty) (fd : Nat)
    {acts : List ClientAction} (hacts : ∀ a ∈ acts, a.OnKey) {s : Clients}
    {outs : List (Option (Nat × Bytes))}
    (hrun : clientsMachine.run (.start topology servers n) acts = some (s, outs)) :
    ∃ ops single, Linearization (serverSpec fd) start (clientsHistory acts outs) ops single ∧
      RealTime (clientsHistory acts outs) ops ∧
      Keyed.Split s.cluster.addressForKey s.cluster.cells fun key => some (single.db.cell key) := by
  have hinit : (Clients.start topology servers n).Tracked fd start [] [] :=
    ⟨_, [], start, hstart.toPlain, clientsInv_start hne hserved hfresh hstart, book_start _ _⟩
  obtain ⟨pending, ops, single, -, hinv, hbook⟩ :=
    Machine.run_history (C := fun _ a => a.OnKey) (I := Clients.Tracked fd start)
      (fun _ _ _ _ _ _ hbefore h ha hs =>
        Clients.tracked_step (Machine.length_of_run hbefore) h ha hs)
      (Machine.along_of_forall hacts _) hrun hinit
  exact ⟨ops, single, hbook.lin, hbook.lin.realTime, hinv.split⟩

/-- Three clients: the lines of 0 and 1 go to one shard, and that of 2 to the other. -/
def overlappingLines : List ClientAction :=
  [.begin 0 .epoch (.ofText "INCR k"), .begin 1 .epoch (.ofText "INCR k"),
    .begin 2 .epoch (.ofText "INCR n"), .lock 0, .lock 2, .connect 0, .connect 2, .send 0, .send 2,
    .serve 2 bytewise, .serve 0 bytewise, .receive 0 bytewise, .lock 1, .connect 1, .send 1,
    .serve 1 bytewise, .receive 2 bytewise, .receive 1 bytewise, .reply 1, .reply 0, .reply 2]

theorem router_linearizable_overlapping :
    ∃ s outs, clientsMachine.run (.start pairTopology pairServers 5) overlappingLines =
        some (s, outs) ∧
      outs.reduceOption = [(1, ascii ":2"), (0, ascii ":1"), (2, ascii ":1")] ∧
      ∃ ops single, Linearization (serverSpec 7) freshServer
          (clientsHistory overlappingLines outs) ops single ∧
        RealTime (clientsHistory overlappingLines outs) ops ∧
        Keyed.Split s.cluster.addressForKey s.cluster.cells fun key =>
          some (single.db.cell key) := by
  have hempty : freshServer.Empty := empty_start _ _
  have hserved : ∀ id ∈ pairTopology.shardIds,
      (splitAddress (pairTopology.activeAddressFor id)).isSome = true ∧
      ∃ t, pairServers (pairTopology.activeAddressFor id) = some t ∧ t.Empty := by
    intro id hid
    rcases List.mem_pair.mp hid with rfl | rfl <;>
      exact ⟨by decide, freshServer, by rfl, hempty⟩
  have hfresh : FreshFor pairServers 5 := by
    refine freshFor_of_freshServer 5 fun a s hs => ?_
    unfold pairServers at hs
    split at hs
    · exact (Option.some.inj hs).symm
    · cases hs
  have hlines : ∀ a ∈ overlappingLines, a.OnKey := by
    simp only [overlappingLines, List.forall_mem_cons]
    have hincr : keyLine (ascii "INCR k") = true := by decide +kernel
    exact ⟨hincr, hincr, (by decide +kernel : keyLine (ascii "INCR n") = true), trivial, trivial,
      trivial, trivial, trivial, trivial, trivial, trivial, trivial, trivial, trivial, trivial,
      trivial, trivial, trivial, trivial, trivial, trivial, by simp⟩
  have hreplies : ((clientsMachine.run (.start pairTopology pairServers 5) overlappingLines).map
      fun x => x.2.reduceOption) = some [(1, ascii ":2"), (0, ascii ":1"), (2, ascii ":1")] := by
    decide +kernel
  obtain ⟨⟨s, outs⟩, hrun, hout⟩ := Option.map_eq_some_iff.mp hreplies
  exact ⟨s, outs, hrun, hout, router_linearizable (by decide) hserved hfresh hempty 7 hlines hrun⟩

end TinyKV
