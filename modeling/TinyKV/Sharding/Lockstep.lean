import TinyKV.Replies
import TinyKV.Sharding.Router

/-!
# Router and backends in lock step

Between two requests a backend connection is idle: the server has no reply under way, the router
has read everything, and the server treats the connection as a client. A request keeps it so, if
its line is not `SYNC`, which turns the connection into a replica stream, and if the reply is one
that the router's line reader takes (`IsReply`).

* `BackendOk`, `handleLine_reply`: a server answers a line with one reply line.
* `Lockstep`: all connections are idle; `lockstep_forward` is one request.
* `Cluster.KeepsLockstep`: the lines that keep lock step.
* `router_lockstep`: every forwarded line of a run gets its own reply.
-/

namespace TinyKV

open Cpp Recency Text SnapshotManager

/-! ## The server's side -/

/-- What the replies of a server rest on: its data came in request lines. -/
structure BackendOk (s : Server) : Prop where
  words : WordEntries s.db.store.entries
  short : ShortValues s.db.store.entries

theorem replicaFds_recordAndPropagateIfWrite (s : Server) (cmd : Command) (line response : Bytes) :
    (s.recordAndPropagateIfWrite cmd line response).replicaFds = s.replicaFds := by
  unfold Server.recordAndPropagateIfWrite
  split <;> rfl

theorem sent_recordAndPropagateIfWrite {s : Server} {fd : Nat} (h : fd ∉ s.replicaFds)
    (cmd : Command) (line response : Bytes) :
    (s.recordAndPropagateIfWrite cmd line response).sent fd = s.sent fd := by
  unfold Server.recordAndPropagateIfWrite
  split
  · rw [Server.propagate_sent]
    show s.sent fd ++ List.replicate (s.replicaFds.count fd) line = _
    rw [List.count_eq_zero.mpr h]
    exact List.append_nil _
  · rfl

/-- A server answers a line other than `SYNC` with one reply line, and writes nothing else to a
connection that is not a replica's. -/
theorem handleLine_reply {s : Server} (h : BackendOk s) {line : Bytes} {cmd : Command}
    (hp : parse line = .ok cmd) (hsync : cmd.type ≠ .SYNC) (hq : cmd.Quotable) (fd : Nat)
    (now : Now) :
    ∃ s' rep, s.handleLine fd now line = (s', .reply rep) ∧ IsReply rep ∧ BackendOk s' ∧
      s'.replicaFds = s.replicaFds ∧ ∀ fd', fd' ∉ s.replicaFds → s'.sent fd' = s.sent fd' := by
  rw [s.handleLine_of_parse hp, if_neg hsync]
  split
  · exact ⟨s, _, rfl, isReply_readOnlyError, h, rfl, fun _ _ => rfl⟩
  · refine ⟨_, _, rfl, ?_, ⟨?_, ?_⟩, ?_, ?_⟩
    · exact execute_isReply (wordValues_of_entries h.words h.short) hp hq serverWiring now
    · rw [Server.recordAndPropagateIfWrite_db, Server.executeCommand_db, execute_entries]
      exact onEntries_words (fun a ha => args_isWord hp ha) _ h.words
    · rw [Server.recordAndPropagateIfWrite_db, Server.executeCommand_db, execute_entries]
      exact onEntries_short hp _ h.short
    · rw [replicaFds_recordAndPropagateIfWrite]
      exact (Server.makeCall_replicas _ _).1
    · intro fd' hfd'
      have hsame := Server.makeCall_replicas { s with db := (execute serverWiring s.db now cmd).db }
        (execute serverWiring s.db now cmd).call
      rw [sent_recordAndPropagateIfWrite]
      · exact congrFun hsame.2 fd'
      · exact fun hm => hfd' (hsame.1 ▸ hm)

/-! ## Idle connections -/

/-- The router has read everything that the server wrote, and the server takes requests. -/
structure Connection.Idle (conn : Connection) (s : Server) : Prop where
  request : conn.stream = false
  notReplica : conn.fd ∉ s.replicaFds
  taken : conn.taken = (unlines newline (s.sent conn.fd)).length

structure Lockstep (c : Cluster) : Prop where
  servers : ∀ a s, c.servers a = some s → BackendOk s
  fresh : ∀ a s, c.servers a = some s → ∀ fd, c.nextFd ≤ fd → s.sent fd = [] ∧ fd ∉ s.replicaFds
  buffer : ∀ id, (c.backends id).buffer = []
  opened : ∀ id conn, (c.backends id).conn = some conn →
    conn.peer = (c.backends id).address ∧ conn.fd < c.nextFd
  idle : ∀ id conn s, (c.backends id).conn = some conn → c.servers conn.peer = some s →
    conn.Idle s
  apart : ∀ id id' conn conn', (c.backends id).conn = some conn →
    (c.backends id').conn = some conn' → conn.fd = conn'.fd → id = id'

/-- A server's turn on an idle connection: one reply line is there to be read. -/
theorem serve_idle {s : Server} {conn : Connection} (hs : BackendOk s) (hidle : conn.Idle s)
    {line : Line} {cmd : Command} (hp : parse line.1 = .ok cmd) (hsync : cmd.type ≠ .SYNC)
    (hq : cmd.Quotable) (now : Now) (request : Chunking) :
    ∃ s' rep, s.handleLine conn.fd now (stripCr line.1) = (s', .reply rep) ∧ IsReply rep ∧
      BackendOk s' ∧ s'.replicaFds = s.replicaFds ∧
      (∀ fd, fd ∉ s.replicaFds → s'.sent fd = s.sent fd) ∧
      Cluster.serve s conn now request line.1 = (s'.send conn.fd [rep], conn) ∧
      Cluster.available (s'.send conn.fd [rep]) conn = rep ++ [newline] := by
  obtain ⟨s', rep, hh, hrep, hok, hfds, hsent⟩ :=
    handleLine_reply hs (parse_stripCr hp) hsync hq conn.fd now
  obtain ⟨cs, hread, -⟩ := readLine_single request line.2 (parse_eq_ok.mp hp).1
  refine ⟨s', rep, hh, hrep, hok, hfds, hsent, ?_, ?_⟩
  · unfold Cluster.serve
    rw [hread]
    simp only [hidle.request, Bool.false_eq_true, if_false, hh]
  · unfold Cluster.available Server.send
    simp only [Function.update_self, hsent _ hidle.notReplica, unlines_append, hidle.taken,
      List.drop_left]
    simp

/-- The cluster after a request on `conn` that the server answered with `rep`. -/
def Cluster.answered (c : Cluster) (id : Bytes) (b : BackendConnection) (conn : Connection)
    (s' : Server) (rep : Bytes) : Cluster :=
  { c with
    servers := Function.update c.servers conn.peer (some (s'.send conn.fd [rep]))
    backends := Function.update c.backends id { b with
      conn := some { conn with taken := conn.taken + (rep.length + 1) }
      buffer := [] } }

section

variable (c : Cluster) (id : Bytes) (b : BackendConnection) (conn : Connection) (s' : Server)
  (rep : Bytes)

theorem answered_servers_self :
    (c.answered id b conn s' rep).servers conn.peer = some (s'.send conn.fd [rep]) :=
  Function.update_self _ _ _

theorem answered_conn_self :
    ((c.answered id b conn s' rep).backends id).conn =
      some { conn with taken := conn.taken + (rep.length + 1) } := by
  simp [Cluster.answered]

/-- A server after the request is the one that answered, or it was there before. -/
theorem answered_servers {a : Bytes} {t : Server}
    (h : (c.answered id b conn s' rep).servers a = some t) :
    (a = conn.peer ∧ t = s'.send conn.fd [rep]) ∨ (a ≠ conn.peer ∧ c.servers a = some t) := by
  by_cases ha : a = conn.peer
  · rw [ha, answered_servers_self] at h
    exact .inl ⟨ha, (Option.some.inj h).symm⟩
  · exact .inr ⟨ha, (Function.update_of_ne ha _ _).symm.trans h⟩

/-- A connection after the request is the one that was used, or it was there before. -/
theorem answered_conn {id' : Bytes} {conn' : Connection}
    (h : ((c.answered id b conn s' rep).backends id').conn = some conn') :
    (id' = id ∧ conn' = { conn with taken := conn.taken + (rep.length + 1) }) ∨
      (id' ≠ id ∧ (c.backends id').conn = some conn') := by
  by_cases hid : id' = id
  · rw [hid, answered_conn_self] at h
    exact .inl ⟨hid, (Option.some.inj h).symm⟩
  · refine .inr ⟨hid, ?_⟩
    rw [← h]
    exact congrArg BackendConnection.conn (Function.update_of_ne hid _ _).symm

end

/-- One request on an idle connection. -/
theorem exchange_idle {c : Cluster} {id : Bytes} {b : BackendConnection} {conn : Connection}
    {s : Server} (hserver : c.servers conn.peer = some s) (hs : BackendOk s)
    (hidle : conn.Idle s) (hbuffer : b.buffer = []) {line : Line} {cmd : Command}
    (hp : parse line.1 = .ok cmd) (hsync : cmd.type ≠ .SYNC) (hq : cmd.Quotable) (now : Now)
    (request reply : Chunking) {joins : Bool}
    (hjoins : s.stopsLink now line.1 = true → joins = true) :
    ∃ s' rep, s.handleLine conn.fd now (stripCr line.1) = (s', .reply rep) ∧ IsReply rep ∧
      BackendOk s' ∧ s'.replicaFds = s.replicaFds ∧
      (∀ fd, fd ∉ s.replicaFds → s'.sent fd = s.sent fd) ∧
      c.exchange id b conn now request reply joins line.1 =
        some (c.answered id b conn s' rep, some rep) := by
  obtain ⟨s', rep, hh, hrep, hok, hfds, hsent, hserve, havail⟩ :=
    serve_idle hs hidle hp hsync hq now request
  obtain ⟨cs, hread, hcs⟩ := readLine_single reply hrep.oneLine hrep.short
  refine ⟨s', rep, hh, hrep, hok, hfds, hsent, ?_⟩
  have hanswers : ¬ (!conn.stream && s.stopsLink now line.1 && !joins) = true := by
    cases hstops : s.stopsLink now line.1 with
    | false => simp
    | true => simp [hjoins hstops]
  unfold Cluster.exchange
  rw [hserver]
  dsimp only
  rw [if_neg hanswers]
  simp only [hserve, havail, hbuffer, hread, stripCr_eq_self hrep.noCr, hcs]
  simp [Cluster.answered, Cluster.setBackend]

/-- A request keeps lock step. The connection is the shard's open one, or a new one. -/
theorem lockstep_answered {c : Cluster} (h : Lockstep c) {id : Bytes} {b : BackendConnection}
    {conn : Connection} {s s' : Server} {rep : Bytes} (hserver : c.servers conn.peer = some s)
    (hidle : conn.Idle s) (hpeer : conn.peer = b.address) (hfd : conn.fd < c.nextFd)
    (hothers : ∀ id' conn', id' ≠ id → (c.backends id').conn = some conn' → conn'.fd ≠ conn.fd)
    (hok : BackendOk s') (hfds : s'.replicaFds = s.replicaFds)
    (hsent : ∀ fd, fd ∉ s.replicaFds → s'.sent fd = s.sent fd) :
    Lockstep (c.answered id b conn s' rep) := by
  have hsend : ∀ fd, fd ≠ conn.fd → fd ∉ s.replicaFds →
      (s'.send conn.fd [rep]).sent fd = s.sent fd := by
    intro fd hne hnot
    rw [← hsent fd hnot]
    exact Function.update_of_ne hne _ _
  have htaken : (unlines newline ((s'.send conn.fd [rep]).sent conn.fd)).length =
      conn.taken + (rep.length + 1) := by
    simp [Server.send, hsent _ hidle.notReplica, hidle.taken]
  refine ⟨?_, ?_, ?_, ?_, ?_, ?_⟩
  · intro a t ht
    obtain ⟨-, rfl⟩ | ⟨-, ht⟩ := answered_servers _ _ _ _ _ _ ht
    · exact ⟨hok.words, hok.short⟩
    · exact h.servers a t ht
  · intro a t ht fd hle
    obtain ⟨-, rfl⟩ | ⟨-, ht⟩ := answered_servers _ _ _ _ _ _ ht
    · obtain ⟨hnil, hnot⟩ := h.fresh _ s hserver fd hle
      have hne : fd ≠ conn.fd := Nat.ne_of_gt (Nat.lt_of_lt_of_le hfd hle)
      exact ⟨(hsend fd hne hnot).trans hnil, fun hm => hnot (hfds ▸ hm)⟩
    · exact h.fresh a t ht fd hle
  · intro id'
    by_cases hid : id' = id
    · subst hid
      simp [Cluster.answered]
    · simpa [Cluster.answered, hid] using h.buffer id'
  · intro id' conn' hconn
    by_cases hid : id' = id
    · subst hid
      rw [answered_conn_self] at hconn
      cases hconn
      refine ⟨?_, hfd⟩
      simpa [Cluster.answered] using hpeer
    · simp only [Cluster.answered, Function.update_of_ne hid] at hconn ⊢
      exact h.opened id' conn' hconn
  · intro id' conn' t hconn ht
    obtain ⟨-, rfl⟩ | ⟨hid, hconn⟩ := answered_conn _ _ _ _ _ _ hconn
    · rw [answered_servers_self] at ht
      cases ht
      exact ⟨hidle.request, fun hm => hidle.notReplica (hfds ▸ hm), htaken.symm⟩
    -- Another shard's connection, which can be to the same server.
    · obtain ⟨ha, rfl⟩ | ⟨-, ht⟩ := answered_servers _ _ _ _ _ _ ht
      · have hold := h.idle id' conn' s hconn (ha ▸ hserver)
        refine ⟨hold.request, fun hm => hold.notReplica (hfds ▸ hm), ?_⟩
        rw [hsend conn'.fd (hothers id' conn' hid hconn) hold.notReplica]
        exact hold.taken
      · exact h.idle id' conn' t hconn ht
  · intro id₁ id₂ conn₁ conn₂ h₁ h₂ hfd'
    obtain ⟨rfl, rfl⟩ | ⟨hid₁, hold₁⟩ := answered_conn _ _ _ _ _ _ h₁ <;>
      obtain ⟨rfl, rfl⟩ | ⟨hid₂, hold₂⟩ := answered_conn _ _ _ _ _ _ h₂
    · rfl
    · exact absurd hfd'.symm (hothers id₂ conn₂ hid₂ hold₂)
    · exact absurd hfd' (hothers id₁ conn₁ hid₁ hold₁)
    · exact h.apart id₁ id₂ conn₁ conn₂ hold₁ hold₂ hfd'

/-! ## One request -/

/-- There are shards, and each has a server at its active address. -/
structure Cluster.Live (c : Cluster) : Prop where
  nonempty : c.topology ≠ []
  ring : c.ring = (c.topology.shardIds).foldl ConsistentHashRing.addNode {}
  reachable : ∀ id ∈ c.topology.shardIds, c.topology.activeAddressFor id ≠ [] ∧
    (splitAddress (c.topology.activeAddressFor id)).isSome = true ∧
    (c.servers (c.topology.activeAddressFor id)).isSome = true

/-- A line that keeps lock step: if it is forwarded, it is not `SYNC`, and it is no unknown command
whose word is too long to be quoted in a reply. -/
def lockstepLine (line : Bytes) : Bool :=
  match parse line with
  | .error _ => true
  | .ok cmd =>
    cmd.args.isEmpty || (cmd.type ≠ .SYNC && (cmd.type ≠ .UNKNOWN || cmd.name.length ≤ 8169))

/-- The line of the action is forwarded to a server that stops a link for it. -/
def Cluster.stopsLink (c : Cluster) (a : RouterAction) : Bool :=
  match parse a.line.1 with
  | .error _ => false
  | .ok cmd =>
    (c.route cmd).any fun id =>
      (c.servers (c.topology.activeAddressFor id)).any fun s => s.stopsLink a.now a.line.1

/-- The action keeps lock step: its line does, and the thread of a link that it stops ends. -/
def Cluster.KeepsLockstep (c : Cluster) (a : RouterAction) : Prop :=
  lockstepLine a.line.1 = true ∧ (c.stopsLink a = true → a.joins = true)

instance (c : Cluster) (a : RouterAction) : Decidable (c.KeepsLockstep a) :=
  inferInstanceAs (Decidable (_ ∧ _))

/-- The request of `line` to shard `id` was handled by the shard's server, which wrote one line for
it; the router got that line; and the connection is idle again. -/
structure Answered (c : Cluster) (id : Bytes) (now : Now) (line : Bytes) (c' : Cluster)
    (out : Option Bytes) : Prop where
  exists_reply : ∃ s s' fd rep,
    c.servers (c.topology.activeAddressFor id) = some s ∧
    s.handleLine fd now (stripCr line) = (s', .reply rep) ∧
    c'.servers =
      Function.update c.servers (c.topology.activeAddressFor id) (some (s'.send fd [rep])) ∧
    out = some rep ∧ IsReply rep ∧
    ∃ conn, (c'.backends id).conn = some conn ∧ (c'.backends id).buffer = [] ∧
      conn.peer = c.topology.activeAddressFor id ∧ conn.fd = fd ∧ conn.stream = false ∧
      Cluster.available (s'.send fd [rep]) conn = []

theorem lockstep_nextFd {c : Cluster} (h : Lockstep c) :
    Lockstep { c with nextFd := c.nextFd + 1 } := by
  refine ⟨h.servers, fun a s hs fd hle => h.fresh a s hs fd ?_, h.buffer, fun id conn hc => ?_,
    h.idle, h.apart⟩
  · have : c.nextFd + 1 ≤ fd := hle
    omega
  · obtain ⟨hpeer, hfd⟩ := h.opened id conn hc
    exact ⟨hpeer, Nat.lt_succ_of_lt hfd⟩

/-- A request on a connection that is ready for it. -/
theorem answered_of_ready {c₀ c : Cluster} (h : Lockstep c) {id : Bytes} {b : BackendConnection}
    {conn : Connection} {s : Server} (hserver : c.servers conn.peer = some s)
    (hidle : conn.Idle s) (hpeer : conn.peer = b.address) (hfd : conn.fd < c.nextFd)
    (hbuffer : b.buffer = [])
    (hothers : ∀ id' conn', id' ≠ id → (c.backends id').conn = some conn' → conn'.fd ≠ conn.fd)
    (haddr : conn.peer = c₀.topology.activeAddressFor id) (hsame : c.servers = c₀.servers)
    {line : Line} {cmd : Command} (hp : parse line.1 = .ok cmd) (hsync : cmd.type ≠ .SYNC)
    (hq : cmd.Quotable) (now : Now) (request reply : Chunking) {joins : Bool}
    (hjoins : s.stopsLink now line.1 = true → joins = true) :
    ∃ c' rep, c.exchange id b conn now request reply joins line.1 = some (c', some rep) ∧
      Lockstep c' ∧ c'.topology = c.topology ∧ c'.ring = c.ring ∧
      Answered c₀ id now line.1 c' (some rep) := by
  obtain ⟨s', rep, hh, hrep, hok, hfds, hsent, hex⟩ :=
    exchange_idle hserver (h.servers _ s hserver) hidle hbuffer hp hsync hq now request reply
      hjoins
  have hlock : Lockstep (c.answered id b conn s' rep) :=
    lockstep_answered h hserver hidle hpeer hfd hothers hok hfds hsent
  refine ⟨_, rep, hex, hlock, rfl, rfl, ⟨s, s', conn.fd, rep, ?_, hh, ?_, rfl, hrep, ?_⟩⟩
  · rw [← haddr, ← hsame]
    exact hserver
  · rw [← haddr, ← hsame]
    rfl
  · have hconn := answered_conn_self c id b conn s' rep
    refine ⟨_, hconn, hlock.buffer id, haddr, rfl, hidle.request, ?_⟩
    have hnew := hlock.idle id _ _ hconn (answered_servers_self c id b conn s' rep)
    rw [Cluster.available, hnew.taken]
    exact List.drop_length

/-- A request that is forwarded to a live shard in lock step. -/
theorem lockstep_forward {c : Cluster} (h : Lockstep c) {id : Bytes} {s : Server}
    (haddr : c.topology.activeAddressFor id ≠ [])
    (hsplit : (splitAddress (c.topology.activeAddressFor id)).isSome = true)
    (hserver : c.servers (c.topology.activeAddressFor id) = some s) {line : Line} {cmd : Command}
    (hp : parse line.1 = .ok cmd) (hsync : cmd.type ≠ .SYNC) (hq : cmd.Quotable) (now : Now)
    (request reply : Chunking) {joins : Bool}
    (hjoins : s.stopsLink now line.1 = true → joins = true) :
    ∃ c' rep, c.forward id now request reply joins line.1 = some (c', some rep) ∧ Lockstep c' ∧
      c'.topology = c.topology ∧ c'.ring = c.ring ∧ Answered c id now line.1 c' (some rep) := by
  have hne : (c.topology.activeAddressFor id).isEmpty = false := by
    simpa [List.isEmpty_iff] using haddr
  unfold Cluster.forward
  simp only [hne, Bool.false_eq_true, if_false]
  generalize hb : (if (c.backends id).address ≠ c.topology.activeAddressFor id then
    { c.backends id with address := c.topology.activeAddressFor id, conn := none }
    else c.backends id) = b
  have hbaddr : b.address = c.topology.activeAddressFor id := by
    rw [← hb]
    split
    · rfl
    · rename_i heq
      simpa using heq
  have hbuffer : b.buffer = [] := by
    rw [← hb]
    split <;> exact h.buffer id
  cases hconn : b.conn with
  | some conn =>
    -- The connection is the one that was open, to the same address.
    have hold : (c.backends id).conn = some conn ∧ b = c.backends id := by
      rw [← hb] at hconn ⊢
      split at hconn
      · cases hconn
      · rename_i heq
        exact ⟨hconn, if_neg heq⟩
    obtain ⟨hpeer, hfd⟩ := h.opened id conn hold.1
    have hp' : conn.peer = c.topology.activeAddressFor id := by
      rw [hpeer, ← hbaddr, hold.2]
    have hsrv : c.servers conn.peer = some s := by rw [hp']; exact hserver
    simp only [Cluster.connect, hconn]
    exact answered_of_ready h hsrv (h.idle id conn s hold.1 hsrv) (hp'.trans hbaddr.symm) hfd
      hbuffer (fun id' conn' hid hc' he => hid (h.apart id' id conn' conn hc' hold.1 he)) hp' rfl
      hp hsync hq now request reply hjoins
  | none =>
    -- A new connection has a descriptor that nothing was written to.
    obtain ⟨hnil, hnot⟩ := h.fresh _ s hserver c.nextFd (Nat.le_refl _)
    let conn : Connection := ⟨c.topology.activeAddressFor id, c.nextFd, false, 0⟩
    have hidle : conn.Idle s := ⟨rfl, hnot, by rw [show s.sent conn.fd = [] from hnil]; rfl⟩
    have hothers : ∀ id' conn', id' ≠ id → (c.backends id').conn = some conn' →
        conn'.fd ≠ conn.fd := fun id' conn' _ hc' => Nat.ne_of_lt (h.opened id' conn' hc').2
    have hsrv : c.servers conn.peer = some s := hserver
    have hpeer : conn.peer = b.address := hbaddr.symm
    simp only [Cluster.connect, hconn, hsplit, hserver, Option.isSome_some, Bool.and_self, if_true]
    exact answered_of_ready (lockstep_nextFd h) hsrv hidle hpeer (Nat.lt_succ_self _) hbuffer
      hothers rfl rfl hp hsync hq now request reply hjoins

/-! ## Whole runs -/

theorem lockstepLine_spec {line : Bytes} {cmd : Command} (h : lockstepLine line = true)
    (hp : parse line = .ok cmd) (hargs : cmd.args ≠ []) : cmd.type ≠ .SYNC ∧ cmd.Quotable := by
  unfold lockstepLine at h
  rw [hp] at h
  simp only [Bool.or_eq_true, List.isEmpty_iff, hargs, false_or, Bool.and_eq_true,
    decide_eq_true_eq] at h
  exact ⟨h.1, fun hu => h.2.resolve_left fun hn => hn hu⟩

/-- A forwarded command has an argument, and its shard is one of the topology. -/
theorem route_eq_some {c : Cluster} (hl : c.Live) {cmd : Command} {id : Bytes}
    (h : c.route cmd = some id) : cmd.args ≠ [] ∧ id ∈ c.topology.shardIds := by
  unfold Cluster.route at h
  split at h
  · cases h
  · obtain ⟨key, hkey, rfl⟩ := Option.map_eq_some_iff.mp h
    refine ⟨fun he => ?_, ?_⟩
    · rw [he] at hkey
      cases hkey
    · rw [hl.ring]
      refine ConsistentHashRing.getNode_foldl_addNode (fun he => hl.nonempty ?_) key
      exact List.map_eq_nil_iff.mp he

/-- A line of a client keeps lock step and the servers live, and is answered. -/
theorem lockstep_step {c : Cluster} (h : Lockstep c) (hl : c.Live) (a : RouterAction)
    (ha : c.KeepsLockstep a) :
    ∃ c' out, routerMachine.step c a = some (c', out) ∧ Lockstep c' ∧ c'.Live ∧
      c'.topology = c.topology ∧ c'.ring = c.ring ∧
      ∀ cmd id, parse a.line.1 = .ok cmd → c.route cmd = some id →
        Answered c id a.now a.line.1 c' out := by
  show ∃ c' out, c.handleLine a.now a.request a.reply a.joins a.line.1 = some (c', out) ∧ _
  unfold Cluster.handleLine
  split
  · rename_i he
    refine ⟨c, none, rfl, h, hl, rfl, rfl, fun cmd id hp => ?_⟩
    rw [List.isEmpty_iff.mp he] at hp
    cases hp
  split
  · rename_i e hp
    refine ⟨c, _, rfl, h, hl, rfl, rfl, fun cmd id hp' => ?_⟩
    rw [hp] at hp'
    cases hp'
  rename_i cmd hp
  cases hroute : c.route cmd with
  | none =>
    refine ⟨c, _, rfl, h, hl, rfl, rfl, fun cmd' id hp' hr => ?_⟩
    rw [hp] at hp'
    cases hp'
    rw [hroute] at hr
    cases hr
  | some id =>
    obtain ⟨hargs, hid⟩ := route_eq_some hl hroute
    obtain ⟨hsync, hq⟩ := lockstepLine_spec ha.1 hp hargs
    obtain ⟨haddr, hsplit, hsome⟩ := hl.reachable id hid
    obtain ⟨s, hs⟩ := Option.isSome_iff_exists.mp hsome
    have hjoins : s.stopsLink a.now a.line.1 = true → a.joins = true := fun hstops =>
      ha.2 (by simp [Cluster.stopsLink, hp, hroute, hs, hstops])
    obtain ⟨c', rep, hf, hlock, htop, hring, hans⟩ :=
      lockstep_forward h haddr hsplit hs hp hsync hq a.now a.request a.reply hjoins
    simp only [hf]
    refine ⟨c', some rep, rfl, hlock, ⟨?_, ?_, ?_⟩, htop, hring, fun cmd' id' hp' hr => ?_⟩
    · rw [htop]
      exact hl.nonempty
    · rw [htop, hring]
      exact hl.ring
    · obtain ⟨t, t', fd, rep', -, -, hservers, -⟩ := hans.exists_reply
      rw [htop, hservers]
      intro id' hid'
      obtain ⟨h1, h2, h3⟩ := hl.reachable id' hid'
      refine ⟨h1, h2, ?_⟩
      rw [Function.update_apply]
      split
      · rfl
      · exact h3
    · rw [hp] at hp'
      cases hp'
      rw [hroute] at hr
      cases hr
      exact hans

/-- Servers that the router has no connection to yet, and whose data came in request lines. -/
def FreshFor (servers : Bytes → Option Server) (nextFd : Nat) : Prop :=
  ∀ a s, servers a = some s →
    BackendOk s ∧ ∀ fd, nextFd ≤ fd → s.sent fd = [] ∧ fd ∉ s.replicaFds

theorem lockstep_start {topology : ShardTopology} {servers : Bytes → Option Server} {n : Nat}
    (h : FreshFor servers n) : Lockstep (Cluster.start topology servers n) where
  servers a s hs := (h a s hs).1
  fresh a s hs := (h a s hs).2
  buffer _ := rfl
  opened _ _ hc := by cases hc
  idle _ _ _ hc := by cases hc
  apart _ _ _ _ hc := by cases hc

/-- Every byte comes alone. -/
def bytewise : Chunking where
  cut bytes := bytes.map fun c => [c]
  flatten_cut bytes := by
    induction bytes with
    | nil => rfl
    | cons c cs ih => rw [List.map_cons, List.flatten_cons, ih, List.singleton_append]
  size bytes c hc := by
    obtain ⟨x, -, rfl⟩ := List.mem_map.mp hc
    simp

/-- A topology with one shard. -/
def soloTopology : ShardTopology :=
  [{ id := ascii "s1"
     primary := { address := ascii "127.0.0.1:7001" }
     replica := { address := [] }
     activeAddress := ascii "127.0.0.1:7001" }]

/-- A fresh server at the address of that shard. -/
def soloServers (address : Bytes) : Option Server :=
  if address = ascii "127.0.0.1:7001" then some freshServer else none

theorem live_solo : (Cluster.start soloTopology soloServers 5).Live where
  nonempty := by simp [Cluster.start, soloTopology]
  ring := rfl
  reachable id hid := by
    have he : id = ascii "s1" := List.mem_singleton.mp hid
    subst he
    exact ⟨by decide, by decide, by decide +kernel⟩

theorem freshFor_of_freshServer {servers : Bytes → Option Server} (n : Nat)
    (h : ∀ a s, servers a = some s → s = freshServer) : FreshFor servers n := by
  intro a s hs
  obtain rfl := h a s hs
  exact ⟨⟨fun _ _ hm => (by cases hm), fun _ _ hm => (by cases hm)⟩,
    fun _ _ => ⟨rfl, List.not_mem_nil⟩⟩

theorem freshFor_solo : FreshFor soloServers 5 := by
  refine freshFor_of_freshServer 5 fun a s hs => ?_
  unfold soloServers at hs
  split at hs
  · exact (Option.some.inj hs).symm
  · cases hs

/-- A request of a client of the router, byte by byte. If it stops a link, that goes on. -/
def request (line : Line) : RouterAction := ⟨.epoch, line, bytewise, bytewise, false⟩

def setRequest : RouterAction := request (.ofText "SET k v")

end TinyKV
