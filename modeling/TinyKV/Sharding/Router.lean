import TinyKV.Server
import TinyKV.Net
import TinyKV.Sharding.Ring
import TinyKV.Sharding.Topology

/-!
# The router and its backends

`src/sharding/router.cpp` and `src/net/tcp_client.cpp`. The router answers some commands itself and
forwards the others to the shard of their first argument, over one connection for each shard that
all its clients share. A `Cluster` is the router with the servers behind it. Its state has what
both sides of a connection have: what the server has written to it, and how much of that the
router has received.

* `Cluster.forward`: one request. The server reads the line, handles it and writes its reply; the
  router reads one line. A step that has no result is a call that blocks. A server that stops a link
  blocks unless the thread of the link ends, which is up to the action.
* `Cluster.handleLine`: one line of a client of the router.

A connection stays open on the side of the server until the router closes it. Clients that talk to
a backend directly, what links and sweepers do to its data, failovers and broken connections are
left out.
-/

namespace TinyKV

open Cpp Text SnapshotManager

/-- An open connection from the router to a server. -/
structure Connection where
  /-- The address it was opened to. -/
  peer : Bytes
  /-- Its descriptor on the server. -/
  fd : Nat
  /-- The server treats it as a replica stream. -/
  stream : Bool
  /-- How many of the bytes that the server has written the router has received. -/
  taken : Nat

/-- `BackendConnection`, with `fd_` and `reader_` of its client. -/
structure BackendConnection where
  address : Bytes := []
  conn : Option Connection := none
  /-- `LineReader::buffer_`; `close` does not clear it. -/
  buffer : Bytes := []

/-- The router and the servers, by their addresses. -/
structure Cluster where
  topology : ShardTopology
  ring : ConsistentHashRing
  /-- `backends_`; a shard without an entry has a fresh one. -/
  backends : Bytes → BackendConnection
  servers : Bytes → Option Server
  /-- The next descriptor that a server gives to a connection. -/
  nextFd : Nat

/-- `Router::Router`, before any connection is open. -/
def Cluster.start (topology : ShardTopology) (servers : Bytes → Option Server) (nextFd : Nat) :
    Cluster where
  topology := topology
  ring := (topology.shardIds).foldl ConsistentHashRing.addNode {}
  backends := fun _ => {}
  servers := servers
  nextFd := nextFd

/-- `splitAddress`: the host and the port around the last colon. -/
def splitAddress (address : Bytes) : Option (Bytes × Int) :=
  let colon : UInt8 := 58
  if colon ∈ address then
    let port := (address.reverse.takeWhile fun c => c ≠ colon).reverse
    let host := ((address.reverse.dropWhile fun c => c ≠ colon).tail).reverse
    (stoi port).map fun p => (host, p)
  else none

namespace Cluster

def addressForKey (c : Cluster) (key : Bytes) : Bytes :=
  c.topology.activeAddressFor (c.ring.getNode key)

/-- A server's turn: it reads the line and handles it. On a replica stream it drops the line. -/
def serve (s : Server) (conn : Connection) (now : Now) (request : Chunking) (line : Bytes) :
    Server × Connection :=
  match readLine [] (request.cut (line ++ [newline])) with
  | .line l _ _ =>
    if conn.stream then (s, conn)
    else match s.handleLine conn.fd now l with
      | (s, .skip) => (s, conn)
      | (s, .reply r) => (s.send conn.fd [r], conn)
      | (s, .stream) => (s, { conn with stream := true })
  -- A forwarded line has parsed, so it is not too long and it has its line end.
  | .tooLong _ _ | .wait _ => (s, conn)

/-- The bytes that the server has written and the router has not received. -/
def available (s : Server) (conn : Connection) : Bytes :=
  (unlines newline (s.sent conn.fd)).drop conn.taken

/-- The connection that a request goes over: the open one, or a new one. -/
def connect (c : Cluster) (b : BackendConnection) (address : Bytes) :
    Option (Cluster × Connection) :=
  match b.conn with
  | some conn => some (c, conn)
  | none =>
    if (splitAddress address).isSome && (c.servers address).isSome then
      some ({ c with nextFd := c.nextFd + 1 }, ⟨address, c.nextFd, false, 0⟩)
    else none

/-- Set the entry of a shard. -/
def setBackend (c : Cluster) (shardId : Bytes) (b : BackendConnection) : Cluster :=
  { c with backends := Function.update c.backends shardId b }

/-- `sendLine` and `receiveLine` on an open connection. If the server stops a link, `joins` says
whether the thread of the link ends. -/
def exchange (c : Cluster) (shardId : Bytes) (b : BackendConnection) (conn : Connection) (now : Now)
    (request reply : Chunking) (joins : Bool) (line : Bytes) : Option (Cluster × Option Bytes) :=
  match c.servers conn.peer with
  | none => some (c.setBackend shardId { b with conn := none }, none)
  | some s =>
    if !conn.stream && s.stopsLink now line && !joins then none else -- The server does not answer.
    let r := serve s conn now request line
    let c := { c with servers := Function.update c.servers conn.peer (some r.1) }
    let bytes := available r.1 r.2
    match readLine b.buffer (reply.cut bytes) with
    | .line response buffer rest =>
      let conn := { r.2 with taken := r.2.taken + (bytes.length - rest.flatten.length) }
      some (c.setBackend shardId { b with conn := some conn, buffer := buffer }, some response)
    | .tooLong buffer _ =>
      some (c.setBackend shardId { b with conn := none, buffer := buffer }, none)
    | .wait _ => none -- `recv` blocks.

/-- `Router::forward` -/
def forward (c : Cluster) (shardId : Bytes) (now : Now) (request reply : Chunking) (joins : Bool)
    (line : Bytes) : Option (Cluster × Option Bytes) :=
  let address := c.topology.activeAddressFor shardId
  if address.isEmpty then some (c, none)
  else
    let b := c.backends shardId
    -- The shard's active node changed: drop the connection to the old one.
    let b := if b.address ≠ address then { b with address := address, conn := none } else b
    match c.connect b address with
    | none => some (c.setBackend shardId b, none)
    | some (c, conn) => c.exchange shardId b conn now request reply joins line

def roleName : NodeRole → Bytes
  | .PRIMARY => ascii "PRIMARY"
  | .REPLICA => ascii "REPLICA"

def healthName : NodeHealth → Bytes
  | .UP => ascii "UP"
  | .DOWN => ascii "DOWN"

def nodesReply (c : Cluster) : Bytes :=
  (ascii ";").intercalate <| c.topology.snapshot.map fun node =>
    node.shardId ++ ascii ":" ++ roleName node.role ++ ascii ":" ++ node.address ++ ascii ":" ++
      healthName node.health ++ ascii ":" ++
      (if node.active then ascii "ACTIVE" else ascii "STANDBY")

/-- The shard that a command is forwarded to; `none` if the router answers it. -/
def route (c : Cluster) (cmd : Command) : Option Bytes :=
  if cmd.type = .ROUTE ∨ cmd.type = .NODES then none
  else cmd.args.head?.map c.ring.getNode

/-- What the router answers itself. -/
def answer (c : Cluster) (cmd : Command) : Bytes :=
  if cmd.type = .ROUTE then
    match cmd.args with
    | [key] => Reply.bulk (c.addressForKey key)
    | _ => Reply.error (ascii "wrong number of arguments for 'ROUTE'")
  else if cmd.type = .NODES then
    match cmd.args with
    | [] => Reply.bulk c.nodesReply
    | _ => Reply.error (ascii "wrong number of arguments for 'NODES'")
  -- PING carries no key, so there is nothing to route it by.
  else if cmd.type = .PING then Reply.ok
  else Reply.error (ascii "'" ++ cmd.name ++ ascii "' has no key to route on")

/-- One turn of the loop of `Router::handleConnection`, with the line written to the client. -/
def handleLine (c : Cluster) (now : Now) (request reply : Chunking) (joins : Bool) (line : Bytes) :
    Option (Cluster × Option Bytes) :=
  if line.isEmpty then some (c, none)
  else match parse line with
    | .error e => some (c, some (Reply.error e.what))
    | .ok cmd =>
      match c.route cmd with
      | none => some (c, some (c.answer cmd))
      | some shardId =>
        match c.forward shardId now request reply joins line with
        | none => none
        | some (c, some response) => some (c, some response)
        | some (c, none) =>
          some (c, some (Reply.error (ascii "shard " ++ shardId ++ ascii " unavailable")))

end Cluster

/-- A line of a client of the router, the clock reading of the server that handles it, and how the
bytes are cut on their way there and back. -/
structure RouterAction where
  now : Now
  line : Line
  request : Chunking
  reply : Chunking
  /-- If the line stops a link of the server, the thread of the link ends. -/
  joins : Bool

/-- The router as a machine. Clients of the router take turns on a backend, so their lines are one
sequence. -/
def routerMachine : Machine Cluster RouterAction (Option Bytes) where
  step c a := c.handleLine a.now a.request a.reply a.joins a.line.1

end TinyKV
